import Olympia.Mss.L2Cache

/-!
# The L2 cache and its surroundings

The L2 cache with any two requesters that obey the credit protocol and any BIU that answers each
transaction once.  A request may arrive when its sender has fewer requests without a returned
credit than the queue has entries; a transaction may be answered at any time after it was sent, in
any order; credits of the BIU may arrive at any time.  In a cycle everything arrives first, then
the handlers of the tick phase run in any order, then those of the post-tick phase.

The state records what an observer at the ports has seen: the requests that have arrived, numbered
in their order, the credits that have been returned and the answers that have been sent.

`L2Traffic` is what the unit does to requests and transactions, without the events that make it do
so, and `L2Traffic.Move` says everything that one step can do to it (`L2System.step_move`).  The
invariants of the unit are about the traffic.
-/

namespace Olympia

/-- The phases of a cycle in which the handlers of the memory system run. -/
inductive MssPhase where
  | portUpdate
  | tick
  | postTick
  deriving DecidableEq, Repr

structure L2System (p : L2Params) where
  phase : MssPhase := .portUpdate
  l2 : L2State p := {}
  /-- the transactions that have been sent to the BIU and not been answered -/
  atBiu : List Transaction := []
  /-- the requests that have arrived, by requester and number -/
  accepted : List (L1Cache × ℕ) := []
  /-- the credits returned to each requester -/
  returned : L1Cache → ℕ := fun _ => 0
  /-- the answers sent on the port to each requester -/
  sent : List (L1Cache × MemoryRequest) := []

inductive L2Op where
  | req (c : L1Cache) (r : MemoryRequest)
  /-- the BIU answers the transaction at a position of `atBiu` -/
  | biuResp (i : ℕ)
  | biuCredits (credits : ℕ)
  | handleReq (c : L1Cache)
  | handleBiuResp
  | handleBiuReq
  | handleResp (c : L1Cache)
  | lookup
  | result
  | createReq
  | issueReq
  | tick
  | postTick
  | nextCycle
  deriving DecidableEq, Repr

/-- The phase in which a step runs. -/
def L2Op.phase : L2Op → MssPhase
  | .req .. | .biuResp _ | .biuCredits _ | .tick => .portUpdate
  | .handleReq _ | .handleBiuResp | .handleBiuReq | .handleResp _ | .lookup | .result
  | .postTick => .tick
  | .createReq | .issueReq | .nextCycle => .postTick

namespace L2System

variable {p : L2Params}

/-- The requests of a requester for which no credit has been returned. -/
def owed (accepted : List (L1Cache × ℕ)) (returned : L1Cache → ℕ) (c : L1Cache) : ℕ :=
  accepted.countP (fun x => x.1 = c) - returned c

/-- A request has a credit, a transaction has been sent, a handler is due, or a phase is over. -/
def due (p : L2Params) (s : L2System p) : L2Op → Bool
  | .req c _ => owed s.accepted s.returned c < p.reqQueueSize c
  | .biuResp i => i < s.atBiu.length
  | .biuCredits _ => true
  | .handleReq c => (s.l2.evHandleReq c).now
  | .handleBiuResp => s.l2.evHandleBiuResp.now
  | .handleBiuReq => s.l2.evHandleBiuReq.now
  | .handleResp c => (s.l2.evHandleResp c).now
  | .lookup => s.l2.lookupDue
  | .result => s.l2.resultDue
  | .createReq => s.l2.evCreateReq.now
  | .issueReq => s.l2.evIssueReq.now
  | .tick => true
  | .postTick => L2Cache.tickDone s.l2
  | .nextCycle => L2Cache.postTickDone s.l2

/-- What a step does when it runs. -/
def handle (p : L2Params) (s : L2System p) : L2Op → Except Assertion (L2System p)
  | .req c r => do
    let l2 ← L2Cache.getReq p s.l2 c { r with id := s.accepted.length }
    return { s with l2 := l2, accepted := s.accepted ++ [(c, s.accepted.length)] }
  | .biuResp i =>
    match s.atBiu[i]? with
    | none => .ok s
    | some t => do
      let l2 ← L2Cache.getRespFromBIU p s.l2 t
      return { s with l2 := l2, atBiu := s.atBiu.eraseIdx i }
  | .biuCredits n => .ok { s with l2 := L2Cache.getCreditsFromBIU s.l2 n }
  | .handleReq c => .ok { s with l2 := L2Cache.handleReq s.l2 c }
  | .handleBiuResp => .ok { s with l2 := L2Cache.handleBiuResp s.l2 }
  | .handleBiuReq =>
    let (l2, sent) := L2Cache.handleBiuReq s.l2
    .ok { s with l2 := l2, atBiu := s.atBiu ++ sent.toList }
  | .handleResp c => do
    let (l2, r) ← L2Cache.handleResp s.l2 c
    return { s with l2 := l2, sent := s.sent ++ [(c, r)] }
  | .lookup => do
    let l2 ← L2Cache.handleCacheAccessRequest p s.l2
    return { s with l2 := l2 }
  | .result => do
    let l2 ← L2Cache.handleCacheAccessResult p s.l2
    return { s with l2 := l2 }
  | .createReq => do
    let (l2, credit) ← L2Cache.createReq p s.l2
    return { s with
      l2 := l2
      returned := match credit with
        | some c => Function.update s.returned c (s.returned c + 1)
        | none => s.returned }
  | .issueReq => do
    let l2 ← L2Cache.issueReq p s.l2
    return { s with l2 := l2 }
  | .tick => .ok { s with phase := .tick }
  | .postTick => .ok { s with phase := .postTick }
  | .nextCycle => .ok { s with phase := .portUpdate, l2 := L2Cache.nextCycle p s.l2 }

def step (p : L2Params) (s : L2System p) (op : L2Op) : Except Stop (L2System p) := do
  enabled (s.phase = op.phase ∧ s.due p op)
  checked (s.handle p op)

theorem step_eq_ok {s s' : L2System p} {op : L2Op} :
    s.step p op = .ok s' ↔ s.phase = op.phase ∧ s.due p op = true ∧ s.handle p op = .ok s' := by
  unfold step
  rw [enabled_checked_eq_ok, decide_eq_true_iff, and_assoc]

/-- The cycle ends: everything that was due has run. -/
def EndOfCycle (s : L2System p) : Prop := s.phase = .postTick ∧ L2Cache.postTickDone s.l2 = true

end L2System

/-! ## The traffic -/

/-- The requests and transactions, and where they are. -/
structure L2Traffic where
  reqQueue : L1Cache → List MemoryRequest
  respQueue : L1Cache → List MemoryRequest
  biuReqQueue : List Transaction
  atBiu : List Transaction
  biuRespQueue : List Transaction
  pipelineReqQueue : List MemoryRequest
  pipeline : List (Staged MemoryRequest)
  inFlightReqs : ℕ
  missPendingBuffer : List MemoryRequest
  lookupDue : Bool
  resultDue : Bool
  accepted : List (L1Cache × ℕ)
  returned : L1Cache → ℕ
  sent : List (L1Cache × MemoryRequest)

/-- The traffic of a state of the system. -/
def L2System.traffic {p : L2Params} (s : L2System p) : L2Traffic where
  reqQueue := s.l2.reqQueue
  respQueue := s.l2.respQueue
  biuReqQueue := s.l2.biuReqQueue
  atBiu := s.atBiu
  biuRespQueue := s.l2.biuRespQueue
  pipelineReqQueue := s.l2.pipelineReqQueue
  pipeline := s.l2.pipeline
  inFlightReqs := s.l2.inFlightReqs
  missPendingBuffer := s.l2.missPendingBuffer
  lookupDue := s.l2.lookupDue
  resultDue := s.l2.resultDue
  accepted := s.accepted
  returned := s.returned
  sent := s.sent

namespace L2Traffic

open L2Cache

/-- Another request than `r` with the line of `r` is pending. -/
def mergesWith (p : L2Params) (pending : List MemoryRequest) (r : MemoryRequest) : Bool :=
  pending.any fun x => x.id ≠ r.id ∧ p.cacheLine x.phyAddr = p.cacheLine r.phyAddr

/-- The pipeline without the request whose last stage has been handled. -/
def handled (p : L2Params) (d : L2Traffic) : L2Traffic :=
  { d with
    resultDue := false
    pipeline := Pipeline.remove d.pipeline (hitMissHandling p)
    inFlightReqs := u32Sub d.inFlightReqs 1 }

/-- What one step does to the traffic. -/
inductive Move (p : L2Params) (d : L2Traffic) : L2Traffic → Prop where
  | stay : Move p d d
  | accept {c : L1Cache} {r : MemoryRequest} (hid : r.id = d.accepted.length)
      (howed : L2System.owed d.accepted d.returned c < p.reqQueueSize c) :
    Move p d { d with
      reqQueue := Function.update d.reqQueue c (d.reqQueue c ++ [r])
      accepted := d.accepted ++ [(c, r.id)] }
  | answer {i : ℕ} {t : Transaction} (ht : d.atBiu[i]? = some t) :
    Move p d { d with
      atBiu := d.atBiu.eraseIdx i
      biuRespQueue := d.biuRespQueue ++ [t] }
  | request {t : Transaction} {rest : List Transaction} (ht : d.biuReqQueue = t :: rest) :
    Move p d { d with biuReqQueue := rest, atBiu := d.atBiu ++ [t] }
  | respond {c : L1Cache} {r : MemoryRequest} {rest : List MemoryRequest}
      (hr : d.respQueue c = r :: rest) :
    Move p d { d with
      respQueue := Function.update d.respQueue c rest
      sent := d.sent ++ [(c, r)] }
  | lookup {r : MemoryRequest} {hit : Bool} (hdue : d.lookupDue = true)
      (hr : Pipeline.at? d.pipeline (cacheLookupStage p) = some r) :
    Move p d { d with
      lookupDue := false
      pipeline := Pipeline.write d.pipeline (cacheLookupStage p) (lookedUp r hit) }
  | hit {r : MemoryRequest} {c : L1Cache}
      (hr : Pipeline.at? d.pipeline (hitMissHandling p) = some r) (hstate : r.cacheState = .hit)
      (hc : L1Cache.ofUnit r.dest = some c) :
    Move p d { d.handled p with
      respQueue := Function.update d.respQueue c (d.respQueue c ++ [r]) }
  | merge {r : MemoryRequest} (hr : Pipeline.at? d.pipeline (hitMissHandling p) = some r)
      (hstate : r.cacheState ≠ .hit)
      (hother : mergesWith p (d.missPendingBuffer ++ [{ r with dest := .biu }]) r = true) :
    Move p d { d.handled p with
      missPendingBuffer := d.missPendingBuffer ++ [{ r with dest := .biu }] }
  | miss {r : MemoryRequest} (hr : Pipeline.at? d.pipeline (hitMissHandling p) = some r)
      (hstate : r.cacheState ≠ .hit)
      (hnone : mergesWith p (d.missPendingBuffer ++ [{ r with dest := .biu }]) r = false) :
    Move p d { d.handled p with
      missPendingBuffer := d.missPendingBuffer ++ [{ r with dest := .biu }]
      biuReqQueue := d.biuReqQueue ++ [r.transaction] }
  | reload {t : Transaction} {rest : List Transaction} {r : MemoryRequest}
      (ht : d.biuRespQueue = t :: rest)
      (hr : d.missPendingBuffer.find? (isClPresent p (p.cacheLine t.phyAddr)) = some r)
      (hfree : d.pipelineReqQueue.length < p.pipelineReqQueueSize) :
    Move p d { d with
      pipelineReqQueue := d.pipelineReqQueue ++ [reloadReq r]
      biuRespQueue :=
        if (d.missPendingBuffer.eraseP (isClPresent p (p.cacheLine t.phyAddr))).any
          (isClPresent p (p.cacheLine t.phyAddr)) then t :: rest else rest
      missPendingBuffer := d.missPendingBuffer.eraseP (isClPresent p (p.cacheLine t.phyAddr)) }
  | take {c : L1Cache} {r : MemoryRequest} {rest : List MemoryRequest}
      (hr : d.reqQueue c = r :: rest)
      (hfree : d.pipelineReqQueue.length < p.pipelineReqQueueSize) :
    Move p d { d with
      pipelineReqQueue := d.pipelineReqQueue ++ [{ r with src := c.toUnit, dest := c.toUnit }]
      reqQueue := Function.update d.reqQueue c rest
      returned := Function.update d.returned c (d.returned c + 1) }
  | issue {r : MemoryRequest} {rest : List MemoryRequest} (hr : d.pipelineReqQueue = r :: rest)
      (hroom : d.inFlightReqs <
        min (u32Sub p.biuReqQueueSize d.biuReqQueue.length)
          (p.missPendingBufferSize - d.missPendingBuffer.length))
      (hzero : Pipeline.isValid d.pipeline 0 = false) :
    Move p d { d with
      pipeline := Pipeline.append d.pipeline r
      inFlightReqs := u32Add d.inFlightReqs 1
      pipelineReqQueue := rest }
  | advance (hlookup : d.lookupDue = false) (hresult : d.resultDue = false) :
    Move p d { d with
      pipeline := Pipeline.advance d.pipeline
      lookupDue := Pipeline.isValid (Pipeline.advance d.pipeline) (cacheLookupStage p)
      resultDue := Pipeline.isValid (Pipeline.advance d.pipeline) (hitMissHandling p) }

end L2Traffic

namespace L2Cache

open L2Traffic

variable {p : L2Params} {s s' : L2State p}

theorem appendQueue_eq_ok {α : Type} {size : ℕ} {a : Assertion} {q q' : List α} {x : α} :
    appendQueue size a q x = .ok q' ↔ q.length ≤ size ∧ q' = q ++ [x] := by
  unfold appendQueue
  rw [Run.bind_eq_ok]
  constructor
  · rintro ⟨u, hle, h⟩
    exact ⟨by simpa using hle, (Except.ok.inj h).symm⟩
  · rintro ⟨hle, rfl⟩
    exact ⟨(), by simpa using hle, rfl⟩

/-- What the handler of the last stage does to a miss. -/
theorem handleMiss_cases {req : MemoryRequest} (h : handleMiss p s req = .ok s') :
    s.missPendingBuffer.length < p.missPendingBufferSize ∧
      ((mergesWith p (s.missPendingBuffer ++ [{ req with dest := .biu }]) req = true ∧
          s' = { s with
            missPendingBuffer := s.missPendingBuffer ++ [{ req with dest := .biu }] }) ∨
        (mergesWith p (s.missPendingBuffer ++ [{ req with dest := .biu }]) req = false ∧
          s.biuReqQueue.length ≤ p.biuReqQueueSize ∧
          s' = { s with
            missPendingBuffer := s.missPendingBuffer ++ [{ req with dest := .biu }]
            biuReqQueue := s.biuReqQueue ++ [req.transaction]
            evHandleBiuReq := s.evHandleBiuReq.scheduleNow })) := by
  obtain ⟨u, hroom, h⟩ := Run.bind_eq_ok.mp h
  refine ⟨by simpa using hroom, ?_⟩
  dsimp only at h
  split at h
  · rename_i hother
    exact .inl ⟨hother, (Except.ok.inj h).symm⟩
  · rename_i hnone
    rw [sendOutReq, if_pos rfl] at h
    obtain ⟨q, hq, h⟩ := Run.bind_eq_ok.mp h
    obtain ⟨hle, rfl⟩ := appendQueue_eq_ok.mp hq
    exact .inr ⟨Bool.eq_false_of_not_eq_true hnone, hle, (Except.ok.inj h).symm⟩

/-- The state in which the handler of the last stage deals with a request. -/
def takeResult (p : L2Params) (s : L2State p) : L2State p :=
  { s with
    resultDue := false
    pipeline := Pipeline.remove s.pipeline (hitMissHandling p)
    inFlightReqs := u32Sub s.inFlightReqs 1 }

theorem handleCacheAccessResult_cases (h : handleCacheAccessResult p s = .ok s') :
    ∃ req, Pipeline.at? s.pipeline (hitMissHandling p) = some req ∧
      ((req.cacheState = .hit ∧ ∃ c, L1Cache.ofUnit req.dest = some c ∧
          (s.respQueue c).length ≤ p.respQueueSize c ∧
          s' = { takeResult p s with
            respQueue := Function.update s.respQueue c (s.respQueue c ++ [req])
            evHandleResp := Function.update s.evHandleResp c (s.evHandleResp c).scheduleNow }) ∨
        (req.cacheState ≠ .hit ∧ handleMiss p (takeResult p s) req = .ok s')) := by
  unfold handleCacheAccessResult at h
  rcases hreq : Pipeline.at? s.pipeline (hitMissHandling p) with _ | req
  · rw [hreq] at h
    cases h
  · rw [hreq] at h
    dsimp only at h
    refine ⟨req, rfl, ?_⟩
    split at h
    · rename_i hstate
      refine .inl ⟨hstate, ?_⟩
      unfold sendOutResp at h
      rcases hc : L1Cache.ofUnit req.dest with _ | c
      · rw [hc] at h
        cases h
      · rw [hc] at h
        dsimp only at h
        obtain ⟨q, hq, h⟩ := Run.bind_eq_ok.mp h
        obtain ⟨hle, rfl⟩ := appendQueue_eq_ok.mp hq
        exact ⟨c, rfl, hle, (Except.ok.inj h).symm⟩
    · rename_i hstate
      exact .inr ⟨hstate, h⟩

theorem handleCacheAccessRequest_cases (h : handleCacheAccessRequest p s = .ok s') :
    ∃ req hit cache, Pipeline.at? s.pipeline (cacheLookupStage p) = some req ∧
      s' = { s with
        lookupDue := false
        l2Cache := cache
        pipeline := Pipeline.write s.pipeline (cacheLookupStage p) (lookedUp req hit) } := by
  unfold handleCacheAccessRequest at h
  rcases hreq : Pipeline.at? s.pipeline (cacheLookupStage p) with _ | req
  · rw [hreq] at h
    cases h
  · rw [hreq] at h
    exact ⟨req, _, _, rfl, (Except.ok.inj h).symm⟩

/-- What `issue_Req_` does: a request enters the pipeline, or none does. -/
theorem issueReq_cases (h : issueReq p s = .ok s') :
    (∃ r rest, s.pipelineReqQueue = r :: rest ∧ hasCreditsForPipelineIssue p s = true ∧
        Pipeline.isValid s.pipeline 0 = false ∧
        s' = { s with
          pipeline := Pipeline.append s.pipeline r
          inFlightReqs := u32Add s.inFlightReqs 1
          pipelineReqQueue := rest
          evIssueReq := if rest ≠ [] then s.evIssueReq.fire.scheduleNext
            else s.evIssueReq.fire }) ∨
      s' = { s with
        evIssueReq := if s.pipelineReqQueue ≠ [] then s.evIssueReq.fire.scheduleNext
          else s.evIssueReq.fire } := by
  obtain ⟨s₁, hs₁, h⟩ := Run.bind_eq_ok.mp h
  obtain rfl := Except.ok.inj h
  unfold issueFront at hs₁
  rcases hq : s.pipelineReqQueue with _ | ⟨r, rest⟩
  · simp only [hq] at hs₁
    obtain rfl := Except.ok.inj hs₁
    exact .inr (by simp)
  · simp only [hq] at hs₁
    split at hs₁
    · rename_i hcred
      obtain ⟨u, hzero, hs₁⟩ := Run.bind_eq_ok.mp hs₁
      obtain rfl := Except.ok.inj hs₁
      exact .inl ⟨r, rest, rfl, hcred, by simpa using hzero, rfl⟩
    · obtain rfl := Except.ok.inj hs₁
      exact .inr (by simp)

/-- Something waits to be moved to `pipeline_req_queue_`. -/
def inputs (s : L2State p) : Prop :=
  s.biuRespQueue ≠ [] ∨ s.reqQueue .icache ≠ [] ∨ s.reqQueue .dcache ≠ []

instance (s : L2State p) : Decidable (inputs s) := inferInstanceAs (Decidable (_ ∨ _ ∨ _))

theorem inputs_of_reqQueue {c : L1Cache} (h : s.reqQueue c ≠ []) : inputs s := by
  cases c with
  | icache => exact .inr (.inl h)
  | dcache => exact .inr (.inr h)

/-- The events at the end of `create_Req_`. -/
def rearm (s : L2State p) : L2State p :=
  { s with
    evIssueReq := s.evIssueReq.scheduleNext
    evCreateReq := if inputs s then s.evCreateReq.fire.scheduleNext else s.evCreateReq.fire }

theorem arbitrate_cases {w : Channel} (h : arbitrateL2CacheAccessReqs p s = .ok (w, s')) :
    inputs s ∧ ∃ sel, s' = { s with channelSelect := sel } ∧
      ((w = .noAccess ∧ (p.pipelineReqQueueSize ≤ s.pipelineReqQueue.length ∨
          s.biuRespQueue = [])) ∨
        (s.pipelineReqQueue.length < p.pipelineReqQueueSize ∧
          ((w = .biu ∧ s.biuRespQueue ≠ []) ∨
            ∃ c, w = .cache c ∧ s.channelSelect = c ∧ s.reqQueue c ≠ [] ∧
              s.biuRespQueue = []))) := by
  unfold arbitrateL2CacheAccessReqs at h
  obtain ⟨u, hin, h⟩ := Run.bind_eq_ok.mp h
  have hin : inputs s := by
    have hor := of_decide_eq_true (spartaAssert_eq_ok.mp hin)
    rcases hor with hq | hq | hq
    · exact .inr (.inl hq)
    · exact .inr (.inr hq)
    · exact .inl hq
  refine ⟨hin, ?_⟩
  dsimp only at h
  split at h
  · rename_i hfull
    obtain ⟨rfl, rfl⟩ := Prod.mk.inj (Except.ok.inj h)
    exact ⟨s.channelSelect, rfl, .inl ⟨rfl, .inl hfull⟩⟩
  · rename_i hfull
    have hfree : s.pipelineReqQueue.length < p.pipelineReqQueueSize := by omega
    split at h
    · rename_i hresp
      obtain ⟨rfl, rfl⟩ := Prod.mk.inj (Except.ok.inj h)
      exact ⟨s.channelSelect, rfl, .inr ⟨hfree, .inl ⟨rfl, hresp⟩⟩⟩
    · rename_i hresp
      have hresp : s.biuRespQueue = [] := by simpa using hresp
      obtain ⟨rfl, rfl⟩ := Prod.mk.inj (Except.ok.inj h)
      refine ⟨s.channelSelect.other, rfl, ?_⟩
      split
      · exact .inl ⟨rfl, .inr hresp⟩
      · rename_i hq
        exact .inr ⟨hfree, .inr ⟨_, rfl, rfl, hq, hresp⟩⟩

/-- What `create_Req_` does: nothing moves, a pending request is sent through the pipeline again,
or a new request is taken. -/
theorem createReq_cases {credit : Option L1Cache} (h : createReq p s = .ok (s', credit)) :
    inputs s ∧ ∃ sel,
      ((credit = none ∧ s' = rearm { s with channelSelect := sel } ∧
          (p.pipelineReqQueueSize ≤ s.pipelineReqQueue.length ∨ s.biuRespQueue = [] ∨
            ∃ t rest, s.biuRespQueue = t :: rest ∧
              s.missPendingBuffer.find? (isClPresent p (p.cacheLine t.phyAddr)) = none)) ∨
        (s.pipelineReqQueue.length < p.pipelineReqQueueSize ∧ credit = none ∧
          ∃ t rest r, s.biuRespQueue = t :: rest ∧
            s.missPendingBuffer.find? (isClPresent p (p.cacheLine t.phyAddr)) = some r ∧
            s' = rearm { s with
              channelSelect := sel
              pipelineReqQueue := s.pipelineReqQueue ++ [reloadReq r]
              biuRespQueue :=
                if (s.missPendingBuffer.eraseP (isClPresent p (p.cacheLine t.phyAddr))).any
                  (isClPresent p (p.cacheLine t.phyAddr)) then t :: rest else rest
              missPendingBuffer :=
                s.missPendingBuffer.eraseP (isClPresent p (p.cacheLine t.phyAddr)) }) ∨
        (s.pipelineReqQueue.length < p.pipelineReqQueueSize ∧
          ∃ c r rest, credit = some c ∧ s.channelSelect = c ∧ s.reqQueue c = r :: rest ∧
            s.biuRespQueue = [] ∧
            s' = rearm { s with
              channelSelect := sel
              pipelineReqQueue :=
                s.pipelineReqQueue ++ [{ r with src := c.toUnit, dest := c.toUnit }]
              reqQueue := Function.update s.reqQueue c rest })) := by
  unfold createReq at h
  obtain ⟨⟨w, s₁⟩, harb, h⟩ := Run.bind_eq_ok.mp h
  obtain ⟨⟨s₂, credit'⟩, hfrom, h⟩ := Run.bind_eq_ok.mp h
  obtain ⟨rfl, rfl⟩ := Prod.mk.inj (Except.ok.inj h)
  obtain ⟨hin, sel, rfl, hw⟩ := arbitrate_cases harb
  refine ⟨hin, sel, ?_⟩
  rcases hw with ⟨rfl, hwhy⟩ | ⟨hfree, ⟨rfl, hresp⟩ | ⟨c, rfl, hsel, hq, hresp⟩⟩
  · obtain ⟨rfl, rfl⟩ := Prod.mk.inj (Except.ok.inj hfrom)
    refine .inl ⟨rfl, ?_, hwhy.imp id .inl⟩
    have hin' : inputs { s with channelSelect := sel } := hin
    have hin'' : s.biuRespQueue ≠ [] ∨ s.reqQueue .icache ≠ [] ∨ s.reqQueue .dcache ≠ [] := hin
    rw [rearm, if_pos hin']
    dsimp only
    rw [if_pos hin'']
    rfl
  · obtain ⟨s₃, hbiu, hfrom⟩ := Run.bind_eq_ok.mp hfrom
    obtain ⟨rfl, rfl⟩ := Prod.mk.inj (Except.ok.inj hfrom)
    rcases hcons : s.biuRespQueue with _ | ⟨t, rest⟩
    · exact absurd hcons hresp
    · unfold createFromBIU at hbiu
      dsimp only at hbiu
      rw [hcons] at hbiu
      dsimp only at hbiu
      rcases hfind : s.missPendingBuffer.find? (isClPresent p (p.cacheLine t.phyAddr)) with _ | r
      · rw [hfind] at hbiu
        obtain rfl := Except.ok.inj hbiu
        exact .inl ⟨rfl, rfl, .inr (.inr ⟨t, rest, rfl, hfind⟩)⟩
      · rw [hfind] at hbiu
        obtain rfl := Except.ok.inj hbiu
        refine .inr (.inl ⟨hfree, rfl, t, rest, r, rfl, hfind, ?_⟩)
        dsimp only
        rw [if_pos hfree]
        rfl
  · obtain ⟨s₃, hcache, hfrom⟩ := Run.bind_eq_ok.mp hfrom
    obtain ⟨rfl, rfl⟩ := Prod.mk.inj (Except.ok.inj hfrom)
    unfold createFromCache at hcache
    dsimp only at hcache
    rcases hcons : s.reqQueue c with _ | ⟨r, rest⟩
    · exact absurd hcons hq
    · rw [hcons] at hcache
      obtain ⟨u, -, hcache⟩ := Run.bind_eq_ok.mp hcache
      obtain rfl := Except.ok.inj hcache
      exact .inr (.inr ⟨hfree, c, r, rest, rfl, hsel, hcons, hresp, rfl⟩)

end L2Cache

namespace L2System

open L2Cache

variable {p : L2Params} {s s' : L2System p} {op : L2Op}

/-! ## Phases -/

/-- In the post-tick phase nothing of the tick phase is due any more. -/
def Phased (s : L2System p) : Prop := s.phase = .postTick → tickDone s.l2 = true

theorem Phased.due (H : Phased s) (h : s.phase = .postTick) :
    s.l2.lookupDue = false ∧ s.l2.resultDue = false := by
  have hdone := H h
  simp only [tickDone, Bool.and_eq_true, Bool.not_eq_true'] at hdone
  exact ⟨hdone.1.2, hdone.2⟩

/-- The handlers of the post-tick phase leave the tick phase alone. -/
theorem tickDone_createReq {l2 l2' : L2State p} {credit : Option L1Cache}
    (h : createReq p l2 = .ok (l2', credit)) : tickDone l2' = tickDone l2 := by
  obtain ⟨-, sel, ⟨-, rfl, -⟩ | ⟨-, -, t, rest, r, -, -, rfl⟩ | ⟨-, c, r, rest, -, -, -, -, rfl⟩⟩ :=
    createReq_cases h
  · rfl
  · rfl
  · rfl

theorem tickDone_issueReq {l2 l2' : L2State p} (h : issueReq p l2 = .ok l2') :
    tickDone l2' = tickDone l2 := by
  obtain ⟨r, rest, -, -, -, rfl⟩ | rfl := issueReq_cases h
  · rfl
  · rfl

/-- Only the steps between phases change the phase. -/
theorem handle_phase (h : s.handle p op = .ok s') :
    s'.phase = (match op with
      | .tick => .tick
      | .postTick => .postTick
      | .nextCycle => .portUpdate
      | _ => s.phase) := by
  cases op with
  | biuResp i =>
    rcases ht : s.atBiu[i]? with _ | t
    · simp only [handle, ht] at h
      obtain rfl := Except.ok.inj h
      rfl
    · simp only [handle, ht] at h
      obtain ⟨l2, -, h⟩ := Run.bind_eq_ok.mp h
      obtain rfl := Except.ok.inj h
      rfl
  | req | lookup | result | issueReq | handleResp | createReq =>
    obtain ⟨l2, -, h⟩ := Run.bind_eq_ok.mp h
    obtain rfl := Except.ok.inj h
    rfl
  | _ =>
    obtain rfl := Except.ok.inj h
    rfl

theorem Phased.step (H : Phased s) (h : s.step p op = .ok s') : Phased s' := by
  obtain ⟨hphase, hdue, h⟩ := step_eq_ok.mp h
  intro hpost
  have hmatch := handle_phase h
  rw [hpost, hphase] at hmatch
  cases op with
  | createReq =>
    obtain ⟨⟨l2, credit⟩, hl2, h⟩ := Run.bind_eq_ok.mp h
    obtain rfl := Except.ok.inj h
    exact (tickDone_createReq hl2).trans (H hphase)
  | issueReq =>
    obtain ⟨l2, hl2, h⟩ := Run.bind_eq_ok.mp h
    obtain rfl := Except.ok.inj h
    exact (tickDone_issueReq hl2).trans (H hphase)
  | postTick =>
    obtain rfl := Except.ok.inj h
    exact hdue
  | _ => cases hmatch

/-! ## Steps as moves -/

theorem handleBiuReq_cases (l2 : L2State p) :
    (∃ t rest, l2.biuReqQueue = t :: rest ∧ 0 < l2.biuCredits ∧
        handleBiuReq l2 = ({ l2 with
          evHandleBiuReq := l2.evHandleBiuReq.fire
          biuReqQueue := rest
          biuCredits := u32Sub l2.biuCredits 1 }, some t)) ∨
      ((l2.biuReqQueue = [] ∨ l2.biuCredits = 0) ∧
        handleBiuReq l2 =
          ({ l2 with evHandleBiuReq := l2.evHandleBiuReq.fire.scheduleNext }, none)) := by
  unfold handleBiuReq
  dsimp only
  rcases hq : l2.biuReqQueue with _ | ⟨t, rest⟩
  · exact .inr ⟨.inl rfl, rfl⟩
  · dsimp only
    split
    · rename_i hcred
      exact .inl ⟨t, rest, rfl, hcred, rfl⟩
    · rename_i hcred
      exact .inr ⟨.inr (by omega), rfl⟩

/-- Every step is a move of the traffic. -/
theorem step_move (H : Phased s) (h : s.step p op = .ok s') :
    L2Traffic.Move p s.traffic s'.traffic := by
  obtain ⟨hphase, hdue, h⟩ := step_eq_ok.mp h
  cases op with
  | req c r =>
    obtain ⟨l2, hl2, h⟩ := Run.bind_eq_ok.mp h
    obtain rfl := Except.ok.inj h
    obtain ⟨l2', happ, hl2⟩ := Run.bind_eq_ok.mp hl2
    obtain rfl := Except.ok.inj hl2
    obtain ⟨q, hq, happ⟩ := Run.bind_eq_ok.mp happ
    obtain rfl := Except.ok.inj happ
    obtain ⟨-, rfl⟩ := appendQueue_eq_ok.mp hq
    exact .accept rfl (of_decide_eq_true hdue)
  | biuResp i =>
    rcases ht : s.atBiu[i]? with _ | t
    · simp only [handle, ht] at h
      obtain rfl := Except.ok.inj h
      exact .stay
    · simp only [handle, ht] at h
      obtain ⟨l2, hl2, h⟩ := Run.bind_eq_ok.mp h
      obtain rfl := Except.ok.inj h
      obtain ⟨q, hq, hl2⟩ := Run.bind_eq_ok.mp hl2
      obtain ⟨-, rfl⟩ := appendQueue_eq_ok.mp hq
      obtain ⟨u, -, hl2⟩ := Run.bind_eq_ok.mp hl2
      obtain rfl := Except.ok.inj hl2
      exact .answer ht
  | handleReq c =>
    obtain rfl := Except.ok.inj h
    have hstay : ({ s with l2 := handleReq s.l2 c } : L2System p).traffic = s.traffic := by
      unfold handleReq
      dsimp only
      split <;> rfl
    rw [hstay]
    exact .stay
  | handleBiuResp =>
    obtain rfl := Except.ok.inj h
    have hstay : ({ s with l2 := handleBiuResp s.l2 } : L2System p).traffic = s.traffic := by
      unfold handleBiuResp
      dsimp only
      split <;> rfl
    rw [hstay]
    exact .stay
  | handleBiuReq =>
    rcases handleBiuReq_cases s.l2 with ⟨t, rest, hq, -, heq⟩ | ⟨-, heq⟩
    · simp only [handle, heq] at h
      obtain rfl := Except.ok.inj h
      exact .request hq
    · simp only [handle, heq, Option.toList_none, List.append_nil] at h
      obtain rfl := Except.ok.inj h
      exact .stay
  | handleResp c =>
    obtain ⟨⟨l2, r⟩, hl2, h⟩ := Run.bind_eq_ok.mp h
    obtain rfl := Except.ok.inj h
    unfold handleResp at hl2
    rcases hq : s.l2.respQueue c with _ | ⟨r', rest⟩
    · rw [hq] at hl2
      cases hl2
    · rw [hq] at hl2
      obtain ⟨rfl, rfl⟩ := Prod.mk.inj (Except.ok.inj hl2)
      exact .respond hq
  | lookup =>
    obtain ⟨l2, hl2, h⟩ := Run.bind_eq_ok.mp h
    obtain rfl := Except.ok.inj h
    obtain ⟨req, hit, cache, hreq, rfl⟩ := handleCacheAccessRequest_cases hl2
    exact .lookup hdue hreq
  | result =>
    obtain ⟨l2, hl2, h⟩ := Run.bind_eq_ok.mp h
    obtain rfl := Except.ok.inj h
    obtain ⟨req, hreq, ⟨hstate, c, hc, -, rfl⟩ | ⟨hstate, hmiss⟩⟩ :=
      handleCacheAccessResult_cases hl2
    · exact .hit hreq hstate hc
    · obtain ⟨-, ⟨hother, rfl⟩ | ⟨hnone, -, rfl⟩⟩ := handleMiss_cases hmiss
      · exact .merge hreq hstate hother
      · exact .miss hreq hstate hnone
  | createReq =>
    obtain ⟨⟨l2, credit⟩, hl2, h⟩ := Run.bind_eq_ok.mp h
    obtain rfl := Except.ok.inj h
    obtain ⟨-, sel, ⟨rfl, rfl, -⟩ | ⟨hfree, rfl, t, rest, r, ht, hr, rfl⟩ |
      ⟨hfree, c, r, rest, rfl, -, hr, -, rfl⟩⟩ := createReq_cases hl2
    · exact .stay
    · exact .reload ht hr hfree
    · exact .take hr hfree
  | issueReq =>
    obtain ⟨l2, hl2, h⟩ := Run.bind_eq_ok.mp h
    obtain rfl := Except.ok.inj h
    obtain ⟨r, rest, hr, hcred, hzero, rfl⟩ | rfl := issueReq_cases hl2
    · exact .issue hr (of_decide_eq_true hcred) hzero
    · exact .stay
  | nextCycle =>
    obtain rfl := Except.ok.inj h
    obtain ⟨hlookup, hresult⟩ := H.due hphase
    exact .advance hlookup hresult
  | biuCredits n =>
    obtain rfl := Except.ok.inj h
    exact .stay
  | tick =>
    obtain rfl := Except.ok.inj h
    exact .stay
  | postTick =>
    obtain rfl := Except.ok.inj h
    exact .stay

end L2System

end Olympia
