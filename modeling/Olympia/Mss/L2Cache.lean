import Mathlib.Logic.Function.Basic
import Olympia.FlushManager
import Olympia.Lib.Event
import Olympia.Lib.Pipeline
import Olympia.MemoryAccessInfo

/-!
# The L2 cache

`mss/L2Cache.cpp`.  Requests from the two first-level caches and answers of the BIU wait in their
queues; in each cycle one of them is moved to `pipeline_req_queue_` (`createReq`), and one request
of that queue enters the pipeline (`issueReq`).  The last but one stage looks the address up
(`handleCacheAccessRequest`); the last one answers a hit and sets a miss aside
(`handleCacheAccessResult`).  The first miss of a line starts a transaction with the BIU, and the
answer sends the pending requests of the line through the pipeline again, one in each cycle.

The members of the class that exist for each first-level cache are functions of `L1Cache`.  A
request is stored by value, in the one place of the unit where it is.  The transaction that a miss
starts shares its object; the BIU, the MSS and `createReq` read only the address of it, so a
transaction is the object's identity and address.  `channel_select_` holds one of the two
first-level caches, so it is of that type and the last branch of `arbitrateL2CacheAccessReqs_` is
not there.  The third argument of `sparta_assert` in `create_Req_` is a text, which is true, so a
request that does not fit in the queue would be dropped without a word.

The pipeline takes an entry out when its last stage has been handled.  Not modelled: statistics,
and `setNextReq`, which nothing reads.
-/

namespace Olympia

/-- The first-level caches, the requesters of the L2 cache. -/
inductive L1Cache where
  | icache
  | dcache
  deriving DecidableEq, Repr

namespace L1Cache

def toUnit : L1Cache → ArchUnit
  | icache => .icache
  | dcache => .dcache

/-- The requester that `sendOutResp_` finds for a unit. -/
def ofUnit : ArchUnit → Option L1Cache
  | .icache => some .icache
  | .dcache => some .dcache
  | _ => none

@[simp] theorem ofUnit_toUnit (c : L1Cache) : ofUnit c.toUnit = some c := by
  cases c <;> rfl

theorem toUnit_ne_biu (c : L1Cache) : c.toUnit ≠ .biu := by
  cases c <;> simp [toUnit]

/-- The other one. -/
def other : L1Cache → L1Cache
  | icache => dcache
  | dcache => icache

end L1Cache

/-- A transaction of the L2 cache with the BIU. -/
structure Transaction where
  id : ℕ
  phyAddr : ℕ
  deriving DecidableEq, Repr

/-- The transaction that a request starts. -/
def MemoryRequest.transaction (r : MemoryRequest) : Transaction := ⟨r.id, r.phyAddr⟩

/-- `L2CacheParameterSet`. -/
structure L2Params where
  reqQueueSize : L1Cache → ℕ := fun _ => 8
  respQueueSize : L1Cache → ℕ := fun _ => 4
  biuReqQueueSize : ℕ := 4
  biuRespQueueSize : ℕ := 4
  pipelineReqQueueSize : ℕ := 64
  missPendingBufferSize : ℕ := 64
  l2LineSize : ℕ := 64
  l2AlwaysHit : Bool := false
  l2cacheLatency : ℕ := 10
  cacheModel : CacheFuncModel
  biuReqQueueSize_lt : biuReqQueueSize < 2 ^ 32 := by decide
  missPendingBufferSize_lt : missPendingBufferSize < 2 ^ 32 := by decide
  biuReqQueueSize_pos : 0 < biuReqQueueSize := by decide
  missPendingBufferSize_pos : 0 < missPendingBufferSize := by decide
  pipelineReqQueueSize_pos : 0 < pipelineReqQueueSize := by decide
  l2cacheLatency_ge : 2 ≤ l2cacheLatency := by decide

namespace L2Params

/-- `getCacheLine`: the address shifted by `shiftBy_`. -/
def cacheLine (p : L2Params) (phyAddr : ℕ) : ℕ := phyAddr >>> Nat.log2 p.l2LineSize

end L2Params

structure L2State (p : L2Params) where
  reqQueue : L1Cache → List MemoryRequest := fun _ => []
  respQueue : L1Cache → List MemoryRequest := fun _ => []
  biuReqQueue : List Transaction := []
  biuRespQueue : List Transaction := []
  pipelineReqQueue : List MemoryRequest := []
  pipeline : List (Staged MemoryRequest) := []
  inFlightReqs : ℕ := 0
  missPendingBuffer : List MemoryRequest := []
  l2Cache : p.cacheModel.State := p.cacheModel.init
  biuCredits : ℕ := 0
  channelSelect : L1Cache := .icache
  /-- `ev_handle_icache_l2cache_req_` and `ev_handle_dcache_l2cache_req_` -/
  evHandleReq : L1Cache → UniqueEvent := fun _ => {}
  /-- `ev_handle_l2cache_icache_resp_` and `ev_handle_l2cache_dcache_resp_` -/
  evHandleResp : L1Cache → UniqueEvent := fun _ => {}
  evHandleBiuReq : UniqueEvent := {}
  evHandleBiuResp : UniqueEvent := {}
  evCreateReq : UniqueEvent := {}
  evIssueReq : UniqueEvent := {}
  /-- the handler of the stage CACHE_LOOKUP is due -/
  lookupDue : Bool := false
  /-- the handler of the stage HIT_MISS_HANDLING is due -/
  resultDue : Bool := false

namespace L2Cache

variable {p : L2Params}

/-- The age at which an entry is in the stage HIT_MISS_HANDLING. -/
def hitMissHandling (p : L2Params) : ℕ := p.l2cacheLatency

/-- The age at which an entry is in the stage CACHE_LOOKUP. -/
def cacheLookupStage (p : L2Params) : ℕ := p.l2cacheLatency - 1

/-! ## Arrivals -/

/-- The append functions of the queues of the unit.  They allow one entry more than the size. -/
def appendQueue {α : Type} (size : ℕ) (a : Assertion) (q : List α) (x : α) :
    Except Assertion (List α) := do
  spartaAssert (q.length ≤ size) a
  return q ++ [x]

/-- `appendICacheReqQueue_` and `appendDCacheReqQueue_`. -/
def appendReqQueue (p : L2Params) (s : L2State p) (c : L1Cache) (r : MemoryRequest) :
    Except Assertion (L2State p) := do
  let q ← appendQueue (p.reqQueueSize c)
    (match c with | .icache => .icacheReqQueueOverflow | .dcache => .dcacheReqQueueOverflow)
    (s.reqQueue c) r
  return { s with reqQueue := Function.update s.reqQueue c q }

/-- `getReqFromICache_` and `getReqFromDCache_`. -/
def getReq (p : L2Params) (s : L2State p) (c : L1Cache) (r : MemoryRequest) :
    Except Assertion (L2State p) := do
  let s ← appendReqQueue p s c r
  return { s with evHandleReq := Function.update s.evHandleReq c (s.evHandleReq c).scheduleNow }

/-- `getRespFromBIU_`. -/
def getRespFromBIU (p : L2Params) (s : L2State p) (t : Transaction) :
    Except Assertion (L2State p) := do
  let q ← appendQueue p.biuRespQueueSize .biuRespQueueOverflow s.biuRespQueue t
  spartaAssert (q.length ≤ p.biuRespQueueSize) .biuRespNotServiced
  return { s with biuRespQueue := q, evHandleBiuResp := s.evHandleBiuResp.scheduleNow }

/-- `getCreditsFromBIU_`. -/
def getCreditsFromBIU (s : L2State p) (credits : ℕ) : L2State p :=
  { s with
    biuCredits := u32Add s.biuCredits credits
    evIssueReq := s.evIssueReq.scheduleNext }

/-! ## Handlers of the tick phase -/

/-- `handle_ICache_L2Cache_Req_` and `handle_DCache_L2Cache_Req_`. -/
def handleReq (s : L2State p) (c : L1Cache) : L2State p :=
  let s := { s with evHandleReq := Function.update s.evHandleReq c (s.evHandleReq c).fire }
  if s.reqQueue c = [] then s else { s with evCreateReq := s.evCreateReq.scheduleNow }

/-- `handle_BIU_L2Cache_Resp_`. -/
def handleBiuResp (s : L2State p) : L2State p :=
  let s := { s with evHandleBiuResp := s.evHandleBiuResp.fire }
  if s.biuRespQueue = [] then s else { s with evCreateReq := s.evCreateReq.scheduleNow }

/-- `handle_L2Cache_BIU_Req_` and what it sends. -/
def handleBiuReq (s : L2State p) : L2State p × Option Transaction :=
  let s := { s with evHandleBiuReq := s.evHandleBiuReq.fire }
  match s.biuReqQueue with
  | t :: rest =>
    if 0 < s.biuCredits then
      ({ s with biuReqQueue := rest, biuCredits := u32Sub s.biuCredits 1 }, some t)
    else ({ s with evHandleBiuReq := s.evHandleBiuReq.scheduleNext }, none)
  | [] => ({ s with evHandleBiuReq := s.evHandleBiuReq.scheduleNext }, none)

/-- `handle_L2Cache_ICache_Resp_` and `handle_L2Cache_DCache_Resp_`, and what they send. -/
def handleResp (s : L2State p) (c : L1Cache) : Except Assertion (L2State p × MemoryRequest) :=
  match s.respQueue c with
  | [] => .error .bufferEmpty
  | r :: rest => .ok
    ({ s with
        evHandleResp := Function.update s.evHandleResp c (s.evHandleResp c).fire
        respQueue := Function.update s.respQueue c rest }, r)

/-- The state of a request after the stage CACHE_LOOKUP, when the lookup has found `hit`. -/
def lookedUp (r : MemoryRequest) (hit : Bool) : MemoryRequest :=
  { r with cacheState :=
      if r.cacheState = .reload then .hit else if hit then .hit else .miss }

/-- `handleCacheAccessRequest_`. -/
def handleCacheAccessRequest (p : L2Params) (s : L2State p) : Except Assertion (L2State p) :=
  match Pipeline.at? s.pipeline (cacheLookupStage p) with
  | none => .error .bufferEmpty
  | some req =>
    let (hit, cache) := p.cacheModel.lookup p.l2AlwaysHit s.l2Cache req.phyAddr
    .ok { s with
      lookupDue := false
      l2Cache := if req.cacheState = .reload ∧ hit = false
        then p.cacheModel.allocate cache req.phyAddr else cache
      pipeline := Pipeline.write s.pipeline (cacheLookupStage p) (lookedUp req hit) }

/-- `sendOutResp_`, with `appendICacheRespQueue_` and `appendDCacheRespQueue_`. -/
def sendOutResp (p : L2Params) (s : L2State p) (unit : ArchUnit) (r : MemoryRequest) :
    Except Assertion (L2State p) :=
  match L1Cache.ofUnit unit with
  | none => .error .respUnitInvalid
  | some c => do
    let q ← appendQueue (p.respQueueSize c)
      (match c with | .icache => .icacheRespQueueOverflow | .dcache => .dcacheRespQueueOverflow)
      (s.respQueue c) r
    return { s with
      respQueue := Function.update s.respQueue c q
      evHandleResp := Function.update s.evHandleResp c (s.evHandleResp c).scheduleNow }

/-- `sendOutReq_`, with `appendBIUReqQueue_`. -/
def sendOutReq (p : L2Params) (s : L2State p) (unit : ArchUnit) (r : MemoryRequest) :
    Except Assertion (L2State p) :=
  if unit = .biu then do
    let q ← appendQueue p.biuReqQueueSize .biuReqQueueOverflow s.biuReqQueue r.transaction
    return { s with biuReqQueue := q, evHandleBiuReq := s.evHandleBiuReq.scheduleNow }
  else .error .reqUnitInvalid

/-- The miss branch of `handleCacheAccessResult_`. -/
def handleMiss (p : L2Params) (s : L2State p) (req : MemoryRequest) :
    Except Assertion (L2State p) := do
  let req := { req with dest := .biu }
  spartaAssert (s.missPendingBuffer.length < p.missPendingBufferSize) .missPendingFull
  let s := { s with missPendingBuffer := s.missPendingBuffer ++ [req] }
  -- another request of the line has sent the transaction already
  if s.missPendingBuffer.any fun r => r.id ≠ req.id ∧
      p.cacheLine r.phyAddr = p.cacheLine req.phyAddr then return s
  else sendOutReq p s req.dest req

/-- `handleCacheAccessResult_`. -/
def handleCacheAccessResult (p : L2Params) (s : L2State p) : Except Assertion (L2State p) :=
  match Pipeline.at? s.pipeline (hitMissHandling p) with
  | none => .error .bufferEmpty
  | some req =>
    let s := { s with
      resultDue := false
      pipeline := Pipeline.remove s.pipeline (hitMissHandling p)
      inFlightReqs := u32Sub s.inFlightReqs 1 }
    if req.cacheState = .hit then sendOutResp p s req.dest req else handleMiss p s req

/-! ## Handlers of the post-tick phase -/

/-- `Channel`, the winner of the arbitration. -/
inductive Channel where
  | noAccess
  | biu
  | cache (c : L1Cache)
  deriving DecidableEq, Repr

/-- `arbitrateL2CacheAccessReqs_`. -/
def arbitrateL2CacheAccessReqs (p : L2Params) (s : L2State p) :
    Except Assertion (Channel × L2State p) := do
  spartaAssert (s.reqQueue .icache ≠ [] ∨ s.reqQueue .dcache ≠ [] ∨ s.biuRespQueue ≠ [])
    .requestQueuesEmpty
  if p.pipelineReqQueueSize ≤ s.pipelineReqQueue.length then return (.noAccess, s)
  else if s.biuRespQueue ≠ [] then return (.biu, s)
  else
    let c := s.channelSelect
    return (if s.reqQueue c = [] then .noAccess else .cache c,
      { s with channelSelect := c.other })

/-- The pending request goes back to the unit it came from, through the pipeline. -/
def reloadReq (req : MemoryRequest) : MemoryRequest :=
  { req with dest := req.src, src := .biu, cacheState := .reload }

/-- `is_cl_present`: the request has the cache line. -/
def isClPresent (p : L2Params) (line : ℕ) (r : MemoryRequest) : Bool :=
  decide (p.cacheLine r.phyAddr = line)

/-- The branch of `create_Req_` for an answer of the BIU. -/
def createFromBIU (p : L2Params) (s : L2State p) : Except Assertion (L2State p) :=
  match s.biuRespQueue with
  | [] => .error .bufferEmpty
  | t :: rest =>
    let line := p.cacheLine t.phyAddr
    match s.missPendingBuffer.find? (isClPresent p line) with
    | none => .ok s
    | some req => .ok { s with
        pipelineReqQueue :=
          if s.pipelineReqQueue.length < p.pipelineReqQueueSize
          then s.pipelineReqQueue ++ [reloadReq req] else s.pipelineReqQueue
        -- the answer goes with the last request of the line
        biuRespQueue :=
          if (s.missPendingBuffer.eraseP (isClPresent p line)).any (isClPresent p line)
          then t :: rest else rest
        missPendingBuffer := s.missPendingBuffer.eraseP (isClPresent p line) }

/-- The branch of `create_Req_` for a first-level cache: the request object is copied. -/
def createFromCache (p : L2Params) (s : L2State p) (c : L1Cache) :
    Except Assertion (L2State p) :=
  match s.reqQueue c with
  | [] => .error .bufferEmpty
  | r :: rest => do
    spartaAssert (s.pipelineReqQueue.length < p.pipelineReqQueueSize) .bufferFull
    return { s with
      pipelineReqQueue := s.pipelineReqQueue ++ [{ r with src := c.toUnit, dest := c.toUnit }]
      reqQueue := Function.update s.reqQueue c rest }

/-- The branches of `create_Req_`, and the cache that gets a credit back. -/
def createFrom (p : L2Params) (s : L2State p) : Channel →
    Except Assertion (L2State p × Option L1Cache)
  | .noAccess => .ok ({ s with evCreateReq := s.evCreateReq.scheduleNext }, none)
  | .biu => do
    let s ← createFromBIU p s
    return (s, none)
  | .cache c => do
    let s ← createFromCache p s c
    return (s, some c)

/-- `create_Req_`. -/
def createReq (p : L2Params) (s : L2State p) : Except Assertion (L2State p × Option L1Cache) := do
  let (winner, s) ← arbitrateL2CacheAccessReqs p { s with evCreateReq := s.evCreateReq.fire }
  let (s, credit) ← createFrom p s winner
  return ({ s with
      evIssueReq := s.evIssueReq.scheduleNext
      evCreateReq :=
        if s.biuRespQueue ≠ [] ∨ s.reqQueue .icache ≠ [] ∨ s.reqQueue .dcache ≠ []
        then s.evCreateReq.scheduleNext else s.evCreateReq }, credit)

/-- `hasCreditsForPipelineIssue_`. -/
def hasCreditsForPipelineIssue (p : L2Params) (s : L2State p) : Bool :=
  s.inFlightReqs <
    min (u32Sub p.biuReqQueueSize s.biuReqQueue.length)
      (p.missPendingBufferSize - s.missPendingBuffer.length)

/-- The first request of `pipeline_req_queue_` enters the pipeline, if there is room. -/
def issueFront (p : L2Params) (s : L2State p) : Except Assertion (L2State p) :=
  match s.pipelineReqQueue with
  | [] => .ok s
  | r :: rest =>
    if hasCreditsForPipelineIssue p s then do
      spartaAssert (!Pipeline.isValid s.pipeline 0) .appendedTwice
      return { s with
        pipeline := Pipeline.append s.pipeline r
        inFlightReqs := u32Add s.inFlightReqs 1
        pipelineReqQueue := rest }
    else .ok s

/-- `issue_Req_`. -/
def issueReq (p : L2Params) (s : L2State p) : Except Assertion (L2State p) := do
  let s ← issueFront p { s with evIssueReq := s.evIssueReq.fire }
  return { s with
    evIssueReq := if s.pipelineReqQueue ≠ [] then s.evIssueReq.scheduleNext else s.evIssueReq }

/-! ## The end of a phase -/

/-- Nothing of the tick phase is due. -/
def tickDone (s : L2State p) : Bool :=
  !(s.evHandleReq .icache).now && !(s.evHandleReq .dcache).now && !(s.evHandleResp .icache).now &&
    !(s.evHandleResp .dcache).now && !s.evHandleBiuReq.now && !s.evHandleBiuResp.now &&
    !s.lookupDue && !s.resultDue

/-- Nothing of the post-tick phase is due. -/
def postTickDone (s : L2State p) : Bool := !s.evCreateReq.now && !s.evIssueReq.now

/-- The next cycle: the pipeline moves, and the handlers of the stages it fills are due. -/
def nextCycle (p : L2Params) (s : L2State p) : L2State p :=
  { s with
    pipeline := Pipeline.advance s.pipeline
    lookupDue := Pipeline.isValid (Pipeline.advance s.pipeline) (cacheLookupStage p)
    resultDue := Pipeline.isValid (Pipeline.advance s.pipeline) (hitMissHandling p)
    evHandleReq := fun c => (s.evHandleReq c).nextCycle
    evHandleResp := fun c => (s.evHandleResp c).nextCycle
    evHandleBiuReq := s.evHandleBiuReq.nextCycle
    evHandleBiuResp := s.evHandleBiuResp.nextCycle
    evCreateReq := s.evCreateReq.nextCycle
    evIssueReq := s.evIssueReq.nextCycle }

end L2Cache

end Olympia
