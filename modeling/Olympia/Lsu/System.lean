import Olympia.Lsu.Held

/-!
# The LSU cycle by cycle

The handlers of `Lsu.Model` as a system.  A cycle has a phase in which ports deliver and flushes
arrive, and a phase in which all other handlers run.  Rename and the execution units are there
only through the bits of the scoreboards, Dispatch and the ROB through the instructions they send
and the statuses they set, the MMU and the data cache through their answers.

The event `uev_issue_inst_` is here: handlers schedule it for this cycle or the next
(`asksToIssue`), and it runs once in a cycle, as a `sparta::UniqueEvent` does.  So do the handlers
of the stages of the pipeline.  A port without delay delivers in the cycle of the request, and a
callback whose bits are set runs before the cycle ends.
-/

namespace Olympia

/-- The events of the LSU that run once in a cycle. -/
inductive LsuEvent where
  | issueInst
  | addressCalculation
  | mmuLookup
  | cacheLookup
  | cacheRead
  | complete
  deriving DecidableEq, Repr

/-- The stage an event is registered at. -/
def LsuEvent.stage (p : LsuParams) : LsuEvent → Option ℕ
  | .issueInst => none
  | .addressCalculation => some 0
  | .mmuLookup => some p.mmuLookupStage
  | .cacheLookup => some p.cacheLookupStage
  | .cacheRead => some p.cacheReadStage
  | .complete => some p.completeStage

structure LsuSystem where
  lsu : LsuState := {}
  table : InstTable := ⟨fun _ => .beforeFetch, fun _ => false⟩
  sb : Scoreboards := fun _ _ => true
  phase : Phase := .portUpdate
  /-- the events that have run in this cycle -/
  done : List LsuEvent := []
  /-- `uev_issue_inst_` is scheduled for this cycle -/
  issueNow : Bool := false
  /-- and for the next -/
  issueNext : Bool := false
  /-- every instruction that Dispatch has sent -/
  dispatched : List RenamedInst := []
  /-- the retired stores on the port from the ROB -/
  acks : List RenamedInst := []
  /-- the reloaded accesses on the port from the MMU -/
  reloads : List RenamedInst := []

inductive LsuSystemOp where
  -- the other units
  | dispatch (ri : RenamedInst) (stale : Bool)
  | retire (i : ℕ)
  | robAck
  | flush (c : FlushingCriteria)
  | setBits (f : RegFile) (mask : RegisterBitMask)
  | clearBits (f : RegFile) (mask : RegisterBitMask)
  | lookupInst
  -- the LSU
  | mmuReady
  | issueInst
  | addressCalculation
  | complete
  | work (op : LsuOp)
  -- time
  | tick
  | nextCycle

namespace Lsu

/-- `isReadyToIssueInsts_`. -/
def isReadyToIssueInsts (p : LsuParams) (w : LsuWork) : Bool :=
  !(p.allowSpeculativeLoadExec && decide (p.replayBufferSize ≤ w.replayBuffer.length)) &&
    !w.readyQueue.isEmpty

/-- `handleOperandIssueCheck_` finds all ready. -/
def allReady (p : LsuParams) (sb : Scoreboards) (q : List RenamedInst) (w : LsuWork)
    (T : InstTable) (ri : RenamedInst) : Bool :=
  decide (T.status ri.key ≠ .scheduled) && instOperandReady sb ri &&
    if ri.inst.isStore then decide (dataNotReady sb ri = [])
    else p.allowSpeculativeLoadExec || allOlderStoresIssued q w ri

/-- The handler comes to a line that schedules `uev_issue_inst_`, if `isReadyToIssueInsts_`. -/
def asksToIssue (p : LsuParams) (sb : Scoreboards) (q : List RenamedInst) (w : LsuWork)
    (T : InstTable) : LsuOp → Bool
  | .callback i => (w.callbacks[i]?).any fun cb => allReady p sb q w T cb.inst
  | .advance => false
  | .mmuLookup => (w.stages p.mmuLookupStage).any fun ri =>
    decide ((w.info ri.key).mmuState ≠ .hit) && !p.allowSpeculativeLoadExec && ri.inst.isStore &&
      q.any fun e => !e.inst.isStore && T.status e.key == .dispatched && instOperandReady sb e
  | .mmuAck _ _ => false
  | .mmuReady => true
  | .cacheLookup => (w.stages p.cacheLookupStage).any fun ri =>
    !(w.info ri.key).phyAddrReady && !(w.info ri.key).inReadyQueue
  | .cacheAck _ _ => false
  | .cacheReady _ => true
  | .cacheRead => (w.stages p.cacheReadStage).any fun ri =>
    if (w.info ri.key).cacheState = .hit then !(w.info ri.key).dataReady
    else !(w.info ri.key).inReadyQueue
  | .replayReady _ => true
  | .appendReady _ => true

/-- `completeInst_` has an instruction with its data. -/
def hasData (p : LsuParams) (w : LsuWork) : Bool :=
  (w.stages p.completeStage).any fun ri => (w.info ri.key).dataReady

/-- `getInstsFromDispatch_`, when `in_ready_queue_` of the new object holds `stale`. -/
def getInstsFromDispatchInto (p : LsuParams) (sb : Scoreboards) (s : LsuState) (T : InstTable)
    (ri : RenamedInst) (stale : Bool) : Except Assertion (LsuState × InstTable) := do
  spartaAssert (s.ldstInstQueue.length < p.ldstInstQueueSize) .ldstQueueOverflow
  let q := s.ldstInstQueue ++ [ri]
  spartaAssert (!ri.inst.isStore || s.storeBuffer.length < p.ldstInstQueueSize)
    .storeBufferOverflow
  let (w, T) ← handleOperandIssueCheck p sb q
    (s.work.modifyInfo ri.key fun _ => { inReadyQueue := stale }) T ri
  return ({ ldstInstQueue := q
            storeBuffer := if ri.inst.isStore then s.storeBuffer ++ [ri] else s.storeBuffer
            work := w }, T)

theorem getInstsFromDispatchInto_false (p : LsuParams) (sb : Scoreboards) (s : LsuState)
    (T : InstTable) (ri : RenamedInst) :
    getInstsFromDispatchInto p sb s T ri false = getInstsFromDispatch p sb s T ri := rfl

end Lsu

open Lsu

namespace LsuSystem

def queue (s : LsuSystem) : List RenamedInst := s.lsu.ldstInstQueue

def work (s : LsuSystem) : LsuWork := s.lsu.work

/-- A callback whose bits are set. -/
def due (s : LsuSystem) (cb : LsuCallback) : Bool := (s.sb cb.regFile).isSet cb.mask

/-- An event that runs once in a cycle has not run. -/
def canRun (s : LsuSystem) (e : LsuEvent) : Bool := decide (s.phase = .tick ∧ e ∉ s.done)

/-- `uev_issue_inst_.schedule(sparta::Clock::Cycle(0))`, under a condition. -/
def scheduleIssue (s : LsuSystem) (b : Bool) : LsuSystem :=
  { s with issueNow := s.issueNow || (b && decide (.issueInst ∉ s.done)) }

def setWork (s : LsuSystem) (w : LsuWork) : LsuSystem := { s with lsu := { s.lsu with work := w } }

def markDone (s : LsuSystem) (e : LsuEvent) : LsuSystem := { s with done := s.done ++ [e] }

/-- The event of a handler that runs once in a cycle. -/
def event : LsuOp → Option LsuEvent
  | .mmuLookup => some .mmuLookup
  | .cacheLookup => some .cacheLookup
  | .cacheRead => some .cacheRead
  | _ => none

/-- When a handler runs. -/
def workEnabled (s : LsuSystem) : LsuOp → Bool
  | .callback _ => true
  | .advance => false
  | .mmuReady => false
  | .cacheReady _ => decide (s.phase = .portUpdate)
  | op => decide (s.phase = .tick) && (event op).all fun e => decide (e ∉ s.done)

/-- Everything that has to run in a cycle has run. -/
def cycleOver (p : LsuParams) (s : LsuSystem) : Bool :=
  decide (s.phase = .tick) && !s.issueNow && s.work.mmuRequests.isEmpty &&
    s.work.appendReady.isEmpty && s.work.callbacks.all (fun cb => !s.due cb) &&
    [LsuEvent.addressCalculation, .mmuLookup, .cacheLookup, .cacheRead, .complete].all fun e =>
      decide (e ∈ s.done) || (e.stage p).all fun n => (s.work.stages n).isNone

/-- Dispatch sends instructions in program order. -/
def isNext (s : LsuSystem) (ri : RenamedInst) : Bool :=
  s.dispatched.all fun e => decide (e.uniqueId ≤ ri.uniqueId ∧ e.key ≠ ri.key)

def step (p : LsuParams) (s : LsuSystem) : LsuSystemOp → Except Stop LsuSystem
  | .dispatch ri stale => do
    enabled (decide (s.phase = .portUpdate) && s.isNext ri)
    let T := s.table.setStatus ri.key .dispatched
    let (lsu, T) ← checked (getInstsFromDispatchInto p s.sb s.lsu T ri stale)
    return { s with lsu := lsu, table := T, dispatched := s.dispatched ++ [ri] }.scheduleIssue
      (Lsu.allReady p s.sb (s.queue ++ [ri])
        (s.work.modifyInfo ri.key fun _ => { inReadyQueue := stale })
        (s.table.setStatus ri.key .dispatched) ri && isReadyToIssueInsts p lsu.work)
  | .retire i =>
    match s.dispatched[i]? with
    | none => .error .disabled
    | some ri => do
      enabled (decide (s.phase = .tick) && s.table.status ri.key == .completed)
      return { s with
        table := s.table.setStatus ri.key .retired
        acks := if ri.inst.isStore then s.acks ++ [ri] else s.acks }
  | .robAck => do
    enabled (s.phase = .portUpdate)
    match s.acks with
    | [] => .error .disabled
    | ri :: rest => do
      let lsu ← checked (getAckFromROB s.lsu s.table ri)
      return { s with lsu := lsu, acks := rest }.scheduleIssue (isReadyToIssueInsts p lsu.work)
  | .flush c => do
    -- nothing that has retired is flushed
    enabled (decide (s.phase = .portUpdate) && s.dispatched.all fun e =>
      !c.includedInFlush e.inst || s.table.status e.key != .retired)
    let lsu := (handleFlush s.lsu c).1
    return { s with
      lsu := lsu
      table := s.table.setStatuses
        ((s.dispatched.filter fun e => c.includedInFlush e.inst).map RenamedInst.key) .flushed
      issueNow := s.issueNow && isReadyToIssueInsts p lsu.work
      issueNext := s.issueNext && isReadyToIssueInsts p lsu.work }
  | .setBits f mask => .ok { s with sb := Function.update s.sb f ((s.sb f).setReady mask) }
  | .clearBits f mask => do
    -- Rename clears the bit of a register that nothing in flight reads
    enabled (s.queue.all fun e => decide (Disjoint mask (e.srcMask f ∪ e.dataMask f)))
    return { s with sb := Function.update s.sb f ((s.sb f).clearBits mask) }
  | .lookupInst => do
    enabled (s.phase = .tick)
    match s.work.mmuPending with
    | none => .error .disabled
    | some ri =>
      return { s.setWork { s.work with mmuPending := none } with reloads := s.reloads ++ [ri] }
  | .mmuReady => do
    enabled (s.phase = .portUpdate)
    match s.reloads with
    | [] => .error .disabled
    | ri :: rest => do
      let w ← outstanding (handleMMUReadyReq p s.queue { s.work with mmuPending := some ri }
        s.table)
      return { s.setWork { w with mmuPending := s.work.mmuPending } with
        reloads := rest }.scheduleIssue (isReadyToIssueInsts p w)
  | .issueInst => do
    enabled (s.canRun .issueInst && s.issueNow && s.work.appendReady.isEmpty)
    let (w, _) ← checked (Lsu.issueInst p s.work)
    return { s.setWork w with
      done := s.done ++ [.issueInst]
      issueNow := false
      issueNext := s.issueNext || isReadyToIssueInsts p w }
  | .addressCalculation => do
    enabled (s.canRun .addressCalculation)
    return (s.markDone .addressCalculation).scheduleIssue
      ((s.work.stages 0).isSome && isReadyToIssueInsts p s.work)
  | .complete => do
    enabled (s.canRun .complete)
    let out ← checked (completeInst p s.lsu s.table s.sb)
    return { s.markDone .complete with
      lsu := out.state
      table := out.table
      sb := out.scoreboards }.scheduleIssue
        (isReadyToIssueInsts p s.work && hasData p s.work)
  | .work op => do
    enabled (s.workEnabled op)
    let (w, T) ← workStep p s.lsu s.table s.sb op
    return { s.setWork w with
      table := T
      done := s.done ++ (event op).toList }.scheduleIssue
        (asksToIssue p s.sb s.queue s.work s.table op && isReadyToIssueInsts p w)
  | .tick => do
    enabled (s.phase = .portUpdate)
    return { s with phase := .tick }
  | .nextCycle => do
    enabled (s.cycleOver p)
    return { s.setWork s.work.advance with
      phase := .portUpdate
      done := []
      issueNow := s.issueNext
      issueNext := false }

end LsuSystem

/-! ## Two instructions for runs on fixed inputs -/

/-- A load of four bytes, with its address in an integer register. -/
def sampleLoad (uniqueId base addr : ℕ) : RenamedInst where
  inst :=
    { uniqueId, pipe := .lsu, isLoad := true, targetVAddr := addr, memAccessSize := 4
      srcs := [⟨2, .rs1, .integer⟩], dests := [⟨5, .rd, .integer⟩] }
  srcMask := fun f => if f = .integer then {base} else ∅
  destMask := fun f => if f = .integer then {uniqueId + 32} else ∅

/-- A store of four bytes, with its data in a register of the file `f`. -/
def sampleStore (uniqueId base addr : ℕ) (f : RegFile) (data : ℕ) : RenamedInst where
  inst :=
    { uniqueId, pipe := .lsu, isStore := true, targetVAddr := addr, memAccessSize := 4
      srcs := [⟨2, .rs1, .integer⟩, ⟨6, .rs2, f⟩]
      srcs_lt := by cases f <;> decide }
  srcMask := fun g => if g = .integer then {base} else ∅
  dataReg := some { physReg := data, opInfo := ⟨6, .rs2, f⟩ }
  dataMask := fun g => if g = f then {data} else ∅

end Olympia
