import Mathlib.Data.Finset.Image
import Mathlib.Order.Interval.Finset.Nat
import Olympia.Lib.Run
import Olympia.FlushManager
import Olympia.MemoryAccessInfo

/-!
# The load/store unit

`core/lsu/LSU.cpp`.  An instruction from Dispatch stays in `ldst_inst_queue_` from its arrival to
the end of its memory access.  When its operands are ready it enters the ready queue, from there
the pipeline, and from the pipeline back to the ready queue when the translation or the cache
misses, until a load completes or a store has retired and been written.

The `LoadStoreInstInfo` objects, with their `MemoryAccessInfo`, are found by the key of their
instruction in `info`; the queues hold the instructions.  A stored iterator of the source is
valid exactly while the object is in the queue.  `LsuWork` is everything but the instruction
queue and the store buffer, so that a function that returns an `LsuWork` cannot change these.

Outside are the MMU, of which there is only the miss it works on, and the data cache: the lists
`mmuRequests` and `cacheRequests` are the requests they have been sent.  The outstanding payloads
of the events `uev_append_ready_` and `uev_replay_ready_` are lists; the event `uev_issue_inst_`
has no payload and is not modelled, a run may issue at any time.  `in_ready_queue_` is not
initialised in the source; here it starts as false.  That `DCache::handleDataRead_` sets the data of
an access ready is not reflected: `handleCacheRead_` does the same for every hit before
`completeInst_` asks for it.  Two assertions repeat the test that their
caller has just made and are left out: on a flushed instruction in
`updateIssuePriorityAfterCacheReload_`, and on the reason of a bypass in `handleCacheLookupReq_`.
-/

namespace Olympia

/-- `LoadStoreInstInfo::IssuePriority`. -/
inductive IssuePriority where
  | highest
  | cacheReload
  | cachePending
  | mmuReload
  | mmuPending
  | newDisp
  | lowest
  deriving DecidableEq, Repr

/-- `LoadStoreInstInfo::IssueState`. -/
inductive IssueState where
  | ready
  | issued
  | notReady
  deriving DecidableEq, Repr

/-- `LoadStoreInstInfo`. -/
structure LoadStoreInstInfo extends MemoryAccessInfo where
  priority : IssuePriority := .lowest
  state : IssueState := .notReady
  inReadyQueue : Bool := false
  deriving DecidableEq, Repr

/-- `LSUParameterSet`. -/
structure LsuParams where
  ldstInstQueueSize : ℕ := 8
  replayBufferSize : ℕ := 8
  allowSpeculativeLoadExec : Bool := false
  allowDataForwarding : Bool := true
  mmuLookupStageLength : ℕ := 1
  cacheLookupStageLength : ℕ := 1
  cacheReadStageLength : ℕ := 1
  ldstInstQueueSize_lt : ldstInstQueueSize < 2 ^ 32 := by first | exact u32_lt (nat_lit 8) | decide

namespace LsuParams

variable (p : LsuParams)

def mmuLookupStage : ℕ := p.mmuLookupStageLength

def cacheLookupStage : ℕ := p.mmuLookupStage + p.cacheLookupStageLength

def cacheReadStage : ℕ := p.cacheLookupStage + 1

def completeStage : ℕ := p.cacheReadStage + p.cacheReadStageLength

end LsuParams

/-- A ready callback of the LSU: for the address, or for the data in a register file. -/
inductive LsuCallback where
  | address (ri : RenamedInst)
  | data (f : RegFile) (ri : RenamedInst)

namespace LsuCallback

def inst : LsuCallback → RenamedInst
  | address ri => ri
  | data _ ri => ri

def regFile : LsuCallback → RegFile
  | address _ => .integer
  | data f _ => f

/-- The bits the callback waits for. -/
def mask : LsuCallback → RegisterBitMask
  | address ri => ri.srcMask .integer
  | data f ri => ri.dataMask f

end LsuCallback

/-- The state of the LSU without the instruction queue and the store buffer. -/
structure LsuWork where
  info : InstKey → LoadStoreInstInfo := fun _ => {}
  readyQueue : List RenamedInst := []
  replayBuffer : List RenamedInst := []
  /-- what `append` puts into the first stage when the pipeline moves -/
  appended : Option RenamedInst := none
  stages : ℕ → Option RenamedInst := fun _ => none
  /-- payloads of `uev_append_ready_` -/
  appendReady : List RenamedInst := []
  /-- payloads of `uev_replay_ready_` -/
  replayReady : List RenamedInst := []
  callbacks : List LsuCallback := []
  mmuRequests : List RenamedInst := []
  /-- the miss the MMU works on -/
  mmuPending : Option RenamedInst := none
  cacheRequests : List RenamedInst := []

structure LsuState where
  ldstInstQueue : List RenamedInst := []
  storeBuffer : List RenamedInst := []
  work : LsuWork := {}

namespace LsuWork

/-- A change of the object of an instruction. -/
def modifyInfo (w : LsuWork) (k : InstKey) (f : LoadStoreInstInfo → LoadStoreInstInfo) : LsuWork :=
  { w with info := Function.update w.info k (f (w.info k)) }

/-- `invalidateStage`. -/
def invalidateStage (w : LsuWork) (stage : ℕ) : LsuWork :=
  { w with stages := Function.update w.stages stage none }

/-- The pipeline moves. -/
def advance (w : LsuWork) : LsuWork :=
  { w with
    appended := none
    stages := fun
      | 0 => w.appended
      | n + 1 => w.stages n }

/-- `removeInstFromReplayQueue_`. -/
def removeFromReplay (w : LsuWork) (ri : RenamedInst) : LsuWork :=
  { w with replayBuffer := w.replayBuffer.filter fun e => e.key ≠ ri.key }

end LsuWork

namespace Lsu

/-- An instruction is in a queue. -/
def inQueue (q : List RenamedInst) (ri : RenamedInst) : Bool := q.any fun e => e.key = ri.key

/-! ## The ready queue -/

/-- `appendToReadyQueue_` on an object: the oldest instruction comes first. -/
def appendToReadyQueue (w : LsuWork) (ri : RenamedInst) : Except Assertion LsuWork := do
  spartaAssert (!inQueue w.readyQueue ri) .alreadyInReadyQueue
  let w := { w with
    readyQueue := w.readyQueue.takeWhile (fun e : RenamedInst => e.uniqueId ≤ ri.uniqueId) ++ ri ::
      w.readyQueue.dropWhile (fun e : RenamedInst => e.uniqueId ≤ ri.uniqueId) }
  return w.modifyInfo ri.key fun i => { i with inReadyQueue := true, state := .ready }

/-- `updateIssuePriorityAfterNewDispatch_`. -/
def updateIssuePriorityAfterNewDispatch (q : List RenamedInst) (w : LsuWork) (T : InstTable)
    (ri : RenamedInst) : Except Assertion (LsuWork × InstTable) := do
  spartaAssert (inQueue q ri) .priorityNotInQueue
  return (w.modifyInfo ri.key fun i => { i with state := .ready, priority := .newDisp },
    T.setStatus ri.key .scheduled)

/-- The two calls that make an instruction ready to issue for the first time. -/
def makeReady (q : List RenamedInst) (w : LsuWork) (T : InstTable) (ri : RenamedInst) :
    Except Assertion (LsuWork × InstTable) := do
  let (w, T) ← updateIssuePriorityAfterNewDispatch q w T ri
  -- `appendToReadyQueue_` on an instruction looks for its object in the queue
  spartaAssert (inQueue q ri) .ldstNotFound
  let w ← appendToReadyQueue w ri
  return (w, T)

/-! ## Operands -/

/-- `instOperandReady_`: the address operands, in the integer file only. -/
def instOperandReady (sb : Scoreboards) (ri : RenamedInst) : Bool :=
  (sb .integer).isSet (ri.srcMask .integer)

/-- The register files in which the data of a store is not ready; `x0` always is. -/
def dataNotReady (sb : Scoreboards) (ri : RenamedInst) : List RegFile :=
  if ri.dataReg.any fun r => r.opInfo.isX0 then []
  else RegFile.all.filter fun f => !(sb f).isSet (ri.dataMask f)

/-- `allOlderStoresIssued_`. -/
def allOlderStoresIssued (q : List RenamedInst) (w : LsuWork) (ri : RenamedInst) : Bool :=
  q.all fun e => !(e.inst.isStore && e.uniqueId < ri.uniqueId &&
    !(w.info e.key).phyAddrReady && e.key ≠ ri.key)

/-- `handleOperandIssueCheck_`. -/
def handleOperandIssueCheck (p : LsuParams) (sb : Scoreboards) (q : List RenamedInst)
    (w : LsuWork) (T : InstTable) (ri : RenamedInst) : Except Assertion (LsuWork × InstTable) :=
  if T.status ri.key = .scheduled then .ok (w, T)
  else if !instOperandReady sb ri then
    .ok ({ w with callbacks := w.callbacks ++ [.address ri] }, T)
  else if ri.inst.isStore then
    if dataNotReady sb ri = [] then makeReady q w T ri
    else .ok ({ w with callbacks := w.callbacks ++ (dataNotReady sb ri).map fun f => .data f ri },
      T)
  else if p.allowSpeculativeLoadExec || allOlderStoresIssued q w ri then makeReady q w T ri
  else .ok (w, T)

/-- The `n`-th callback fires, if its bits are set. -/
def readyCallback (p : LsuParams) (sb : Scoreboards) (q : List RenamedInst) (w : LsuWork)
    (T : InstTable) (n : ℕ) : Option (Except Assertion (LsuWork × InstTable)) :=
  match w.callbacks[n]? with
  | none => none
  | some cb =>
    if (sb cb.regFile).isSet cb.mask then
      some (handleOperandIssueCheck p sb q { w with callbacks := w.callbacks.eraseIdx n } T cb.inst)
    else none

/-- The body of the loop of `readyDependentLoads_`. -/
def readyDependentLoad (sb : Scoreboards) (q : List RenamedInst) (st : LsuWork × InstTable)
    (ri : RenamedInst) : Except Assertion (LsuWork × InstTable) :=
  if !ri.inst.isStore && st.2.status ri.key == .dispatched && instOperandReady sb ri then
    makeReady q st.1 st.2 ri
  else .ok st

/-- `readyDependentLoads_`. -/
def readyDependentLoads (sb : Scoreboards) (q : List RenamedInst) (w : LsuWork) (T : InstTable) :
    Except Assertion (LsuWork × InstTable) :=
  q.foldlM (readyDependentLoad sb q) (w, T)

/-! ## Arrival, retirement and issue -/

/-- `getInstsFromDispatch_`, with `allocateInstToIssueQueue_` and `allocateInstToStoreBuffer_`. -/
def getInstsFromDispatch (p : LsuParams) (sb : Scoreboards) (s : LsuState) (T : InstTable)
    (ri : RenamedInst) : Except Assertion (LsuState × InstTable) := do
  spartaAssert (s.ldstInstQueue.length < p.ldstInstQueueSize) .ldstQueueOverflow
  let q := s.ldstInstQueue ++ [ri]
  spartaAssert (!ri.inst.isStore || s.storeBuffer.length < p.ldstInstQueueSize)
    .storeBufferOverflow
  let (w, T) ← handleOperandIssueCheck p sb q (s.work.modifyInfo ri.key fun _ => {}) T ri
  return ({ ldstInstQueue := q
            storeBuffer := if ri.inst.isStore then s.storeBuffer ++ [ri] else s.storeBuffer
            work := w }, T)

/-- `getAckFromROB_`, with `updateIssuePriorityAfterStoreInstRetire_`. -/
def getAckFromROB (s : LsuState) (T : InstTable) (ri : RenamedInst) :
    Except Assertion LsuState := do
  spartaAssert (T.status ri.key = .retired) .storeNotRetired
  spartaAssert (!ri.inst.isStore || s.storeBuffer.head?.any fun e => e.uniqueId = ri.uniqueId)
    .storeOutOfOrder
  spartaAssert (inQueue s.ldstInstQueue ri) .priorityNotInQueue
  let w := s.work.modifyInfo ri.key fun i => { i with
    state := if i.state ≠ .issued then .ready else i.state
    priority := .cachePending }
  return { s with
    storeBuffer := if ri.inst.isStore then s.storeBuffer.tail else s.storeBuffer
    work := { w with appendReady := w.appendReady ++ [ri] } }

/-- `appendToReplayQueue_`. -/
def appendToReplayQueue (p : LsuParams) (w : LsuWork) (ri : RenamedInst) :
    Except Assertion LsuWork := do
  spartaAssert (w.replayBuffer.length < p.replayBufferSize) .replayOverflow
  spartaAssert (!inQueue w.replayBuffer ri) .replayDuplicate
  return { w with replayBuffer := w.replayBuffer ++ [ri] }

/-- `issueInst_`, with `arbitrateInstIssue_`, and the instruction it issues. -/
def issueInst (p : LsuParams) (w : LsuWork) : Except Assertion (LsuWork × RenamedInst) :=
  match w.readyQueue with
  | [] => .error .arbitrationFails
  | ri :: rest => do
    spartaAssert w.appended.isNone .appendedTwice
    let w := { w with readyQueue := rest, appended := some ri }
    let w ← if p.allowSpeculativeLoadExec then appendToReplayQueue p w ri else .ok w
    return (w.modifyInfo ri.key fun i =>
      { i with inReadyQueue := false, state := .issued, priority := .lowest }, ri)

/-! ## Replays -/

/-- `updateInstReplayReady_`. -/
def updateInstReplayReady (w : LsuWork) (ri : RenamedInst) : LsuWork :=
  let w := w.modifyInfo ri.key fun i => { i with state := .notReady }
  { w with replayReady := w.replayReady ++ [ri] }.removeFromReplay ri

/-- `updateInstReplayReady_`, which is called only when loads are speculative. -/
def scheduleReplay (p : LsuParams) (w : LsuWork) (ri : RenamedInst) : LsuWork :=
  if p.allowSpeculativeLoadExec then updateInstReplayReady w ri else w

/-- `replayReady_` on the `n`-th outstanding payload. -/
def replayReady (w : LsuWork) (n : ℕ) : Option LsuWork :=
  w.replayReady[n]?.map fun ri =>
    let w := { w with replayReady := w.replayReady.eraseIdx n }
    let w := w.modifyInfo ri.key fun i => { i with
      state := if i.state = .notReady then .ready else i.state
      priority := if i.phyAddrReady then .cachePending else .mmuPending }
    { w with appendReady := w.appendReady ++ [ri] }

/-- `appendReady_` on the `n`-th outstanding payload. -/
def appendReady (w : LsuWork) (n : ℕ) : Option (Except Assertion LsuWork) :=
  w.appendReady[n]?.map fun ri =>
    let w := { w with appendReady := w.appendReady.eraseIdx n }
    if !(w.info ri.key).inReadyQueue && !inQueue w.replayBuffer ri then appendToReadyQueue w ri
    else .ok w

/-- What a stage does with an instruction whose access has missed: it goes back to the ready
queue, unless it is there already, and leaves the pipeline. -/
def bounce (w : LsuWork) (stage : ℕ) (ri : RenamedInst) : Except Assertion LsuWork := do
  let w ← if !(w.info ri.key).inReadyQueue then appendToReadyQueue w ri else .ok w
  return w.invalidateStage stage

/-! ## The MMU stage -/

/-- `handleMMULookupReq_`. -/
def handleMMULookupReq (p : LsuParams) (sb : Scoreboards) (q : List RenamedInst) (w : LsuWork)
    (T : InstTable) : Except Assertion (LsuWork × InstTable) :=
  match w.stages p.mmuLookupStage with
  | none => .ok (w, T)
  | some ri =>
    if (w.info ri.key).mmuState = .hit then .ok (w, T)
    else do
      let (w, T) ←
        if !p.allowSpeculativeLoadExec && ri.inst.isStore then readyDependentLoads sb q w T
        else .ok (w, T)
      return ({ w with mmuRequests := w.mmuRequests ++ [ri] }, T)

/-- `dropInstFromPipeline_`: only the first stage that holds the instruction. -/
def dropInstFromPipeline (p : LsuParams) (w : LsuWork) (ri : RenamedInst) : LsuWork :=
  match (List.range (p.completeStage + 1)).find? fun n =>
      (w.stages n).any fun e => e.key = ri.key with
  | some n => w.invalidateStage n
  | none => w

/-- The loads of the replay buffer that use the address of a store. -/
def sameAddressLoads (w : LsuWork) (ri : RenamedInst) : List RenamedInst :=
  w.replayBuffer.filter fun e =>
    !e.inst.isStore && e.key ≠ ri.key && e.inst.targetVAddr == ri.inst.targetVAddr

/-- The body of the second loop of `abortYoungerLoads_`. -/
def abortLoad (p : LsuParams) (w : LsuWork) (e : RenamedInst) : Except Assertion LsuWork := do
  let w ← appendToReadyQueue (w.modifyInfo e.key fun i => { i with state := .ready }) e
  return (dropInstFromPipeline p w e).removeFromReplay e

/-- `abortYoungerLoads_`. -/
def abortYoungerLoads (p : LsuParams) (w : LsuWork) (ri : RenamedInst) :
    Except Assertion LsuWork :=
  match ((sameAddressLoads w ri).map RenamedInst.uniqueId).min? with
  | none => .ok w
  | some minInstAge =>
    (w.replayBuffer.filter fun e => !e.inst.isStore && minInstAge ≤ e.uniqueId).foldlM
      (abortLoad p) w

/-- The MMU answers the `n`-th request (`MMU::getInstsFromLSU_`), and `getAckFromMMU_`. -/
def getAckFromMMU (p : LsuParams) (w : LsuWork) (n : ℕ) (hit : Bool) :
    Option (Except Assertion LsuWork) :=
  w.mmuRequests[n]?.map fun ri =>
    let w := { w with
      mmuRequests := w.mmuRequests.eraseIdx n
      mmuPending := if hit then w.mmuPending else w.mmuPending.or (some ri) }
    let w := w.modifyInfo ri.key fun i => { i with
      mmuState := if hit then .hit else .miss
      phyAddrReady := hit }
    -- a flush may have emptied the stage
    if (w.stages p.mmuLookupStage).isSome && ri.inst.isStore && hit && p.allowSpeculativeLoadExec
    then abortYoungerLoads p w ri
    else .ok w

/-- The loop of `updateIssuePriorityAfterTLBReload_` on one entry of the queue. -/
def reloadEntry (p : LsuParams) (ri : RenamedInst) (w : LsuWork) (e : RenamedInst) : LsuWork :=
  let w := if (w.info e.key).mmuState = .miss then
      w.modifyInfo e.key fun i => { i with
        state := if p.allowSpeculativeLoadExec then i.state else .ready
        priority := .mmuPending }
    else w
  if e.key = ri.key then
    let w := w.modifyInfo e.key fun i => { i with
      state := if i.state ≠ .issued then .ready else i.state
      priority := .mmuReload }
    { w with appendReady := w.appendReady ++ [e] }
  else w

/-- The reload of the TLB is done (`MMU::lookupInst_`), and `handleMMUReadyReq_`. -/
def handleMMUReadyReq (p : LsuParams) (q : List RenamedInst) (w : LsuWork) (T : InstTable) :
    Option (Except Assertion LsuWork) :=
  w.mmuPending.map fun ri => do
    let w := q.foldl (reloadEntry p ri) { w with mmuPending := none }
    spartaAssert (T.status ri.key = .flushed || inQueue q ri) .tlbNotInQueue
    if T.status ri.key = .flushed then return w
    else return if inQueue q ri then w.removeFromReplay ri else w

/-! ## The cache stages -/

/-- The bytes of a load that a store covers, counted from the address of the load. -/
def coveredBy (load store : Inst) : Finset ℕ :=
  let overlapStart := max load.targetVAddr store.targetVAddr
  let overlapEnd := min ((load.targetVAddr + load.memAccessSize) % 2 ^ 64)
    ((store.targetVAddr + store.memAccessSize) % 2 ^ 64)
  if store.memAccessSize = 0 then ∅
  else (Finset.Ico overlapStart overlapEnd).image fun a => a - load.targetVAddr

/-- `tryStoreToLoadForwarding`.  The loop of the source stops when the load is covered, which
does not change the result. -/
def tryStoreToLoadForwarding (storeBuffer : List RenamedInst) (load : Inst) : Bool :=
  load.memAccessSize != 0 &&
    (storeBuffer.foldr (fun e covered => covered ∪ coveredBy load e.inst) ∅).card
      == load.memAccessSize

/-- `handleCacheLookupReq_`. -/
def handleCacheLookupReq (p : LsuParams) (q storeBuffer : List RenamedInst) (w : LsuWork)
    (T : InstTable) : Except Assertion (LsuWork × InstTable) :=
  match w.stages p.cacheLookupStage with
  | none => .ok (w, T)
  | some ri =>
    let i := w.info ri.key
    if !i.phyAddrReady then do
      let w ← bounce (scheduleReplay p w ri) p.cacheLookupStage ri
      return (w, T)
    else if ri.inst.isStore && T.status ri.key == .scheduled then
      let w := w.modifyInfo ri.key fun i => { i with state := .ready }
      .ok (scheduleReplay p (w.invalidateStage p.cacheLookupStage) ri,
        T.setStatus ri.key .completed)
    else if !ri.inst.isStore && !allOlderStoresIssued q w ri && p.allowSpeculativeLoadExec then
      let w := w.modifyInfo ri.key fun i => { i with state := .ready }
      .ok (scheduleReplay p (w.invalidateStage p.cacheLookupStage) ri, T)
    else if !ri.inst.isStore && p.allowDataForwarding &&
        tryStoreToLoadForwarding storeBuffer ri.inst then
      .ok (w.modifyInfo ri.key fun i => { i with dataReady := true, cacheState := .hit }, T)
    else if i.cacheState = .hit ∨ (ri.inst.isStore = true ∧ T.status ri.key ≠ .retired) then
      .ok (w, T)
    else .ok ({ w with cacheRequests := w.cacheRequests ++ [ri] }, T)

/-- The cache sets the state of an access it was asked for, and `getAckFromCache_`. -/
def getAckFromCache (q : List RenamedInst) (w : LsuWork) (n : ℕ) (cacheState : CacheState) :
    Option LsuWork :=
  w.cacheRequests[n]?.map fun ri =>
    let w := w.modifyInfo ri.key fun i => { i with cacheState := cacheState }
    if !inQueue q ri then w
    else if cacheState ≠ .hit then w
    else
      let w := w.modifyInfo ri.key fun i => { i with
        state := if i.state ≠ .issued then .ready else i.state
        priority := .cacheReload }
      if !(w.info ri.key).inReadyQueue then { w with appendReady := w.appendReady ++ [ri] } else w

/-- `handleCacheReadyReq_`, with `updateIssuePriorityAfterCacheReload_`. -/
def handleCacheReadyReq (q : List RenamedInst) (w : LsuWork) (T : InstTable) (n : ℕ) :
    Option (Except Assertion LsuWork) :=
  w.cacheRequests[n]?.map fun ri =>
    if T.status ri.key = .flushed then .ok w
    else do
      spartaAssert (inQueue q ri) .cacheNotInQueue
      let w := w.modifyInfo ri.key fun i => { i with
        state := if i.state ≠ .issued then .ready else i.state
        priority := .cacheReload }
      return { w with appendReady := w.appendReady ++ [ri] }.removeFromReplay ri

/-- `handleCacheRead_`. -/
def handleCacheRead (p : LsuParams) (w : LsuWork) : Except Assertion LsuWork :=
  match w.stages p.cacheReadStage with
  | none => .ok w
  | some ri =>
    if (w.info ri.key).cacheState ≠ .hit then
      bounce (scheduleReplay p w ri) p.cacheReadStage ri
    else if (w.info ri.key).dataReady then .ok w
    else .ok (w.modifyInfo ri.key fun i => { i with dataReady := true })

/-! ## Completion -/

/-- The scoreboard update of `completeInst_`, for the only destination. -/
def writeback (sb : Scoreboards) (ri : RenamedInst) : Except Assertion Scoreboards :=
  match ri.inst.dests with
  | [] => .ok sb
  | [d] => .ok (Function.update sb d.regFile ((sb d.regFile).setReady (ri.destMask d.regFile)))
  | _ => .error .notOneDest

/-- `popIssueQueue_`.  `erase` on an iterator that is no longer valid asserts. -/
def popIssueQueue (q : List RenamedInst) (ri : RenamedInst) :
    Except Assertion (List RenamedInst) :=
  if inQueue q ri then .ok (q.eraseP fun e => e.key = ri.key) else .error .invalidIterator

/-- What `completeInst_` returns: the state, the statuses, the scoreboards and the credits. -/
structure CompleteOut where
  state : LsuState
  table : InstTable
  scoreboards : Scoreboards
  credits : ℕ

/-- The removal from the replay buffer in `completeInst_`. -/
def dropReplay (p : LsuParams) (s : LsuState) (ri : RenamedInst) : LsuState :=
  if p.allowSpeculativeLoadExec then { s with work := s.work.removeFromReplay ri } else s

/-- The last lines of both branches of `completeInst_`: the instruction leaves the queues. -/
def finish (p : LsuParams) (s : LsuState) (T : InstTable) (sb : Scoreboards) (ri : RenamedInst) :
    Except Assertion CompleteOut := do
  let q ← popIssueQueue s.ldstInstQueue ri
  return ⟨dropReplay p { s with ldstInstQueue := q } ri, T, sb, 1⟩

/-- `completeInst_`. -/
def completeInst (p : LsuParams) (s : LsuState) (T : InstTable) (sb : Scoreboards) :
    Except Assertion CompleteOut :=
  match s.work.stages p.completeStage with
  | none => .ok ⟨s, T, sb, 0⟩
  | some ri =>
    let i := s.work.info ri.key
    if !i.dataReady then .ok ⟨s, T, sb, 0⟩
    else do
      let sb ← writeback sb ri
      if !ri.inst.isStore then
        spartaAssert (i.cacheState = .hit) .loadMiss
        if T.status ri.key = .retired ∨ T.status ri.key = .completed then
          return ⟨dropReplay p s ri, T, sb, 0⟩
        else finish p s (T.setStatus ri.key .completed) sb ri
      else if T.status ri.key ≠ .retired then
        spartaAssert (i.mmuState = .hit) .storeTlbMiss
        return ⟨s, T, sb, 0⟩
      else
        spartaAssert (i.cacheState = .hit && i.mmuState = .hit) .storeCacheMiss
        -- the iterator of an instruction that has left the queue is not valid
        if !inQueue s.ldstInstQueue ri then return ⟨dropReplay p s ri, T, sb, 0⟩
        else finish p s T sb ri

/-! ## Flush -/

/-- `handleFlush_` and the credits it returns.  The callbacks of the vector file are not
cleared. -/
def handleFlush (s : LsuState) (c : FlushingCriteria) : LsuState × ℕ :=
  let keep := fun ri : RenamedInst => !c.includedInFlush ri.inst
  let flushed := s.ldstInstQueue.filter fun ri => c.includedInFlush ri.inst
  let w := s.work
  ({ ldstInstQueue := s.ldstInstQueue.filter keep
     storeBuffer := s.storeBuffer.filter keep
     work := { w with
       stages := fun n => (w.stages n).filter keep
       callbacks := w.callbacks.filter fun cb =>
         cb.regFile = .vector ∨ !(flushed.any fun ri => ri.uniqueId = cb.inst.uniqueId)
       replayBuffer := w.replayBuffer.filter keep
       readyQueue := w.readyQueue.filter keep
       appendReady := w.appendReady.filter keep
       replayReady := w.replayReady.filter keep } }, flushed.length)

/-! ## The handlers by name -/

end Lsu

/-- The handlers of the LSU that leave the instruction queue and the store buffer alone.  A
number `i` picks one of the outstanding callbacks, events or requests. -/
inductive LsuOp where
  | callback (i : ℕ)
  | advance
  | mmuLookup
  | mmuAck (i : ℕ) (hit : Bool)
  | mmuReady
  | cacheLookup
  | cacheAck (i : ℕ) (cacheState : CacheState)
  | cacheReady (i : ℕ)
  | cacheRead
  | replayReady (i : ℕ)
  | appendReady (i : ℕ)

/-- An event or callback that may not be outstanding. -/
def outstanding {α : Type} (x : Option (Except Assertion α)) : Except Stop α :=
  match x with
  | some x => checked x
  | none => .error .disabled

@[simp] theorem outstanding_eq_ok {α : Type} {x : Option (Except Assertion α)} {a : α} :
    outstanding x = .ok a ↔ x = some (.ok a) := by
  rcases x with _ | x
  · simp [outstanding]
  · simp [outstanding]

theorem outstanding_failsIn {α : Type} {E : Assertion → Prop}
    {x : Option (Except Assertion α)} (hx : ∀ y, x = some y → Run.FailsIn E y) :
    Run.FailsIn (Stop.In E) (outstanding x) := by
  rcases x with _ | y
  · exact .error trivial
  · exact checked_failsIn (hx y rfl)

namespace Lsu

/-- One of these handlers: the new `LsuWork` and the new statuses. -/
def workStep (p : LsuParams) (s : LsuState) (T : InstTable) (sb : Scoreboards) :
    LsuOp → Except Stop (LsuWork × InstTable)
  | .callback i => outstanding (readyCallback p sb s.ldstInstQueue s.work T i)
  | .advance => .ok (s.work.advance, T)
  | .mmuLookup => checked (handleMMULookupReq p sb s.ldstInstQueue s.work T)
  | .mmuAck i hit => do
    let w ← outstanding (getAckFromMMU p s.work i hit)
    return (w, T)
  | .mmuReady => do
    let w ← outstanding (handleMMUReadyReq p s.ldstInstQueue s.work T)
    return (w, T)
  | .cacheLookup => checked (handleCacheLookupReq p s.ldstInstQueue s.storeBuffer s.work T)
  | .cacheAck i cacheState => do
    let w ← outstanding ((getAckFromCache s.ldstInstQueue s.work i cacheState).map .ok)
    return (w, T)
  | .cacheReady i => do
    let w ← outstanding (handleCacheReadyReq s.ldstInstQueue s.work T i)
    return (w, T)
  | .cacheRead => do
    let w ← checked (handleCacheRead p s.work)
    return (w, T)
  | .replayReady i => do
    let w ← outstanding ((replayReady s.work i).map .ok)
    return (w, T)
  | .appendReady i => do
    let w ← outstanding (appendReady s.work i)
    return (w, T)

/-! ## The length of the queue -/

theorem finish_length {p : LsuParams} {s : LsuState} {T : InstTable} {sb : Scoreboards}
    {ri : RenamedInst} {out : CompleteOut} (h : finish p s T sb ri = .ok out) :
    out.state.ldstInstQueue.length + out.credits = s.ldstInstQueue.length := by
  obtain ⟨q, hq, h⟩ := Run.bind_eq_ok.mp h
  obtain rfl := Except.ok.inj h
  unfold popIssueQueue at hq
  split at hq
  · rename_i hin
    obtain rfl := Except.ok.inj hq
    obtain ⟨e, he, hkey⟩ := List.any_eq_true.mp hin
    have hlen := List.length_eraseP_of_mem (p := fun e => e.key = ri.key) he hkey
    have hpos := List.length_pos_of_mem he
    unfold dropReplay
    split <;> dsimp only <;> omega
  · cases hq

/-- A credit is returned exactly when an instruction leaves the queue. -/
theorem completeInst_length {p : LsuParams} {s : LsuState} {T : InstTable} {sb : Scoreboards}
    {out : CompleteOut} (h : completeInst p s T sb = .ok out) :
    out.state.ldstInstQueue.length + out.credits = s.ldstInstQueue.length := by
  have hdrop : ∀ ri : RenamedInst,
      (dropReplay p s ri).ldstInstQueue.length = s.ldstInstQueue.length := by
    intro ri
    unfold dropReplay
    split <;> rfl
  unfold completeInst at h
  split at h
  · obtain rfl := Except.ok.inj h
    rfl
  · dsimp only at h
    split at h
    · obtain rfl := Except.ok.inj h
      rfl
    · obtain ⟨sb', -, h⟩ := Run.bind_eq_ok.mp h
      split at h
      · obtain ⟨-, -, h⟩ := Run.bind_eq_ok.mp h
        split at h
        · obtain rfl := Except.ok.inj h
          exact hdrop _
        · exact finish_length h
      · split at h
        · obtain ⟨-, -, h⟩ := Run.bind_eq_ok.mp h
          obtain rfl := Except.ok.inj h
          rfl
        · obtain ⟨-, -, h⟩ := Run.bind_eq_ok.mp h
          split at h
          · obtain rfl := Except.ok.inj h
            exact hdrop _
          · exact finish_length h

theorem handleFlush_length (s : LsuState) (c : FlushingCriteria) :
    (handleFlush s c).1.ldstInstQueue.length + (handleFlush s c).2 = s.ldstInstQueue.length := by
  have hsplit := List.length_eq_length_filter_add
    (fun ri : RenamedInst => c.includedInFlush ri.inst) (l := s.ldstInstQueue)
  simp only [handleFlush]
  omega

end Lsu

end Olympia
