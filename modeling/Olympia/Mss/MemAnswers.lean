import Olympia.Mss.L2Holds
import Olympia.Mss.MemBus

/-!
# What the memory system does for the first-level caches

The memory system between its ports to the first-level caches: the requests it takes, the answers
and the credits it sends, and what it holds in between (`MemSystem.heldFor_step`,
`MemSystem.reqQueue_step`).

Does every request get its answer?  When nothing is scheduled any more and nothing is on its way,
only a transaction that sleeps in the queue to the BIU can be left.  Without one every request has
been answered once, and all the credits are back (`memory_at_rest_has_answered`).
-/

namespace Olympia

open L2Cache

/-- The address that a step asks for, for a first-level cache. -/
def MemOp.asks (c : L1Cache) : MemOp → List ℕ
  | .l2 op => op.asks c
  | _ => []

namespace MemSystem

variable {p : L2Params} {q : BusParams} {s s' : MemSystem p q} {op : MemOp}

/-- The answer that a step sends to a first-level cache. -/
def answers (s : MemSystem p q) (c : L1Cache) : MemOp → List MemoryRequest
  | .l2 op => s.l2.answers c op
  | _ => []

/-- The credits that a step returns to a first-level cache. -/
def creditsTo (s : MemSystem p q) (c : L1Cache) : MemOp → List ℕ
  | .l2 op => s.l2.creditsTo p c op
  | _ => []

/-- A step of the bus, or an arrival from it, leaves the requests where they are. -/
theorem traffic_of_bus (hop : ∀ op', op ≠ .l2 op') (h : s.step p q op = .ok s') :
    s'.l2.traffic = { s.l2.traffic with
        atBiu := s'.l2.atBiu, biuRespQueue := s'.l2.l2.biuRespQueue } ∧
      s'.l2.phase = s.l2.phase := by
  cases op with
  | l2 op => exact absurd rfl (hop op)
  | bus op =>
    obtain ⟨u, -, h⟩ := Run.bind_eq_ok.mp h
    obtain ⟨bus, -, h⟩ := Run.bind_eq_ok.mp h
    obtain rfl := Except.ok.inj h
    exact ⟨rfl, rfl⟩
  | respArrives =>
    obtain ⟨u, -, h⟩ := Run.bind_eq_ok.mp h
    rcases hfront : Port.front s.bus.resps s.bus.now with _ | ⟨t, rest⟩
    · simp only [hfront] at h
      cases h
    · simp only [hfront] at h
      obtain ⟨l2, hl2, h⟩ := Run.bind_eq_ok.mp (checked_eq_ok.mp h)
      obtain rfl := Except.ok.inj h
      obtain ⟨l, -, hl2⟩ := Run.bind_eq_ok.mp hl2
      obtain ⟨u, -, hl2⟩ := Run.bind_eq_ok.mp hl2
      obtain rfl := Except.ok.inj hl2
      exact ⟨rfl, rfl⟩
  | creditsArrive =>
    obtain ⟨u, -, h⟩ := Run.bind_eq_ok.mp h
    rcases hfront : Port.front s.bus.credits s.bus.now with _ | ⟨n, rest⟩
    · simp only [hfront] at h
      cases h
    · simp only [hfront] at h
      obtain rfl := Except.ok.inj h
      exact ⟨rfl, rfl⟩

theorem step_l2 {op : L2Op} (h : s.step p q (.l2 op) = .ok s') : s.l2.step p op = .ok s'.l2 := by
  obtain ⟨u, -, h⟩ := Run.bind_eq_ok.mp h
  obtain ⟨l2, hl2, h⟩ := Run.bind_eq_ok.mp h
  obtain rfl := Except.ok.inj h
  exact hl2

theorem sound_of_reachable (h : Run.Reachable (MemSystem.step p q) {} s) : s.l2.Sound :=
  .of_reachable (reachable_l2 h).2

/-- The addresses of what is held change by what arrives and what is sent. -/
theorem heldFor_step {f : ℕ → ℕ} (hs : Run.Reachable (MemSystem.step p q) {} s)
    (A : s.l2.traffic.Addressed f) (h : s.step p q op = .ok s') :
    ∃ f', s'.l2.traffic.Addressed f' ∧ ∀ c,
      ((s'.l2.traffic.heldFor c).map MemoryRequest.phyAddr ++
          (s.answers c op).map MemoryRequest.phyAddr).Perm
        ((s.l2.traffic.heldFor c).map MemoryRequest.phyAddr ++ op.asks c) := by
  by_cases hop : ∃ op', op = .l2 op'
  · obtain ⟨op', rfl⟩ := hop
    exact L2System.heldFor_step (sound_of_reachable hs) A (step_l2 h)
  · have hop : ∀ op', op ≠ .l2 op' := fun op' heq => hop ⟨op', heq⟩
    obtain ⟨htraffic, -⟩ := traffic_of_bus hop h
    have hnone : (∀ c, op.asks c = []) ∧ ∀ c, s.answers c op = [] := by
      cases op with
      | l2 op' => exact absurd rfl (hop op')
      | _ => exact ⟨fun c => rfl, fun c => rfl⟩
    refine ⟨f, ?_, fun c => ?_⟩
    · rw [htraffic]
      exact ⟨A.reqs, A.inside, A.resps⟩
    · rw [hnone.1 c, hnone.2 c, htraffic]
      exact .rfl

/-- An entry of an input queue is taken by a request, and freed with a credit. -/
theorem reqQueue_step (hs : Run.Reachable (MemSystem.step p q) {} s)
    (h : s.step p q op = .ok s') (c : L1Cache) :
    (s'.l2.l2.reqQueue c).length + (s.creditsTo c op).sum =
      (s.l2.l2.reqQueue c).length + (op.asks c).length := by
  by_cases hop : ∃ op', op = .l2 op'
  · obtain ⟨op', rfl⟩ := hop
    exact L2System.reqQueue_step (sound_of_reachable hs) (step_l2 h) c
  · have hop : ∀ op', op ≠ .l2 op' := fun op' heq => hop ⟨op', heq⟩
    have hsame := congrFun (congrArg L2Traffic.reqQueue (traffic_of_bus hop h).1) c
    have hsame : s'.l2.l2.reqQueue c = s.l2.l2.reqQueue c := hsame
    rw [hsame]
    cases op with
    | l2 op' => exact absurd rfl (hop op')
    | _ => rfl

/-- What is sent is a hit. -/
theorem answers_hit (hs : Run.Reachable (MemSystem.step p q) {} s) {c : L1Cache}
    {r : MemoryRequest} (hr : r ∈ s.answers c op) : r.cacheState = .hit := by
  cases op with
  | l2 op => exact (sound_of_reachable hs).answers_hit hr
  | _ => cases hr

/-! ## The memory system at rest -/

/-- Nothing is scheduled, and nothing is on its way. -/
structure AtRest (s : MemSystem p q) : Prop where
  handleReq : ∀ c, ¬(s.l2.l2.evHandleReq c).Pending
  handleResp : ∀ c, ¬(s.l2.l2.evHandleResp c).Pending
  handleBiuReq : ¬s.l2.l2.evHandleBiuReq.Pending
  handleBiuResp : ¬s.l2.l2.evHandleBiuResp.Pending
  createReq : ¬s.l2.l2.evCreateReq.Pending
  issueReq : ¬s.l2.l2.evIssueReq.Pending
  pipeline : s.l2.l2.pipeline = []
  reqs : s.bus.reqs = []
  mssReqs : s.bus.mssReqs = []
  acks : s.bus.acks = []
  resps : s.bus.resps = []
  credits : s.bus.credits = []
  biu : ¬s.bus.evHandleBiuReq.Pending ∧ ¬s.bus.evHandleMssAck.Pending
  mss : s.bus.evHandleMssReq = []

instance (s : MemSystem p q) : Decidable s.AtRest :=
  decidable_of_iff
    ((∀ c ∈ [L1Cache.icache, .dcache],
        ¬(s.l2.l2.evHandleReq c).Pending ∧ ¬(s.l2.l2.evHandleResp c).Pending) ∧
      (¬s.l2.l2.evHandleBiuReq.Pending ∧ ¬s.l2.l2.evHandleBiuResp.Pending ∧
        ¬s.l2.l2.evCreateReq.Pending ∧ ¬s.l2.l2.evIssueReq.Pending ∧ s.l2.l2.pipeline = []) ∧
      (s.bus.reqs = [] ∧ s.bus.mssReqs = [] ∧ s.bus.acks = [] ∧ s.bus.resps = [] ∧
        s.bus.credits = []) ∧
      (¬s.bus.evHandleBiuReq.Pending ∧ ¬s.bus.evHandleMssAck.Pending) ∧
      s.bus.evHandleMssReq = [])
    ⟨fun ⟨hcaches, ⟨h₁, h₂, h₃, h₄, h₅⟩, ⟨h₆, h₇, h₈, h₉, h₁₀⟩, hbiu, hmss⟩ =>
      ⟨fun c => (hcaches c (by cases c <;> simp)).1, fun c => (hcaches c (by cases c <;> simp)).2,
        h₁, h₂, h₃, h₄, h₅, h₆, h₇, h₈, h₉, h₁₀, hbiu, hmss⟩,
      fun h => ⟨fun c _ => ⟨h.handleReq c, h.handleResp c⟩,
        ⟨h.handleBiuReq, h.handleBiuResp, h.createReq, h.issueReq, h.pipeline⟩,
        ⟨h.reqs, h.mssReqs, h.acks, h.resps, h.credits⟩, h.biu, h.mss⟩⟩

namespace AtRest

/-- The bus has answered everything and returned its credits. -/
theorem bus_empty (R : s.AtRest) (hs : Run.Reachable (MemSystem.step p q) {} s) :
    s.bus.outstanding = [] ∧ s.l2.l2.biuCredits = q.biuReqQueueSize := by
  obtain ⟨b, H, hb⟩ := reachable_bus hs
  obtain ⟨B, -⟩ := BusSystem.sound_of_reachable hb
  have S := B.serving
  have hcredits := B.credits
  rw [H.bus] at S hcredits
  -- with nothing in service the BIU is idle, and an idle BIU has nothing in its queue
  have hmss : s.bus.mssBusy = false := by
    have htimer := S.timer
    rw [R.mss] at htimer
    cases hbusy : s.bus.mssBusy with
    | false => rfl
    | true =>
      rw [hbusy] at htimer
      cases htimer
  have hack : s.bus.evHandleMssAck.now = false :=
    Bool.eq_false_of_not_eq_true fun h => R.biu.2 (.inl h)
  have hidle : s.bus.biuBusy = false := by
    have hcount := S.count
    rw [BusState.inService, R.mssReqs, R.acks, hmss, hack] at hcount
    cases hbusy : s.bus.biuBusy with
    | false => rfl
    | true =>
      rw [hbusy] at hcount
      cases hcount
  have hqueue : s.bus.biuReqQueue = [] := by
    by_contra hne
    exact R.biu.1 (.inl (S.awake.mpr ⟨hidle, hne⟩))
  refine ⟨by simp [BusState.outstanding, R.resps, R.reqs, hqueue, Port.vals], ?_⟩
  simpa [R.credits, R.reqs, hqueue, Port.vals, H.credits] using hcredits

/-- The L2 cache holds nothing. -/
theorem heldFor_eq_nil (R : s.AtRest) (hs : Run.Reachable (MemSystem.step p q) {} s)
    (hbiu : s.l2.l2.biuReqQueue = []) (c : L1Cache) : s.l2.traffic.heldFor c = [] := by
  obtain ⟨hat, hl2⟩ := reachable_l2 hs
  have W := (sound_of_reachable hs).awake
  have hreq : s.l2.l2.reqQueue c = [] := by
    by_contra hne
    rcases W.creates c hne with h | h
    · exact R.createReq h
    · exact R.handleReq c (.inl h)
  have hanswers : s.l2.l2.biuRespQueue = [] := by
    by_contra hne
    rcases W.reloads hne with h | h
    · exact R.createReq h
    · exact R.handleBiuResp (.inl h)
  have hqueue : s.l2.l2.pipelineReqQueue = [] := by
    by_contra hne
    exact R.issueReq (W.issues hne)
  have hresp : s.l2.l2.respQueue c = [] := by
    rcases W.responds c with h | ⟨r, -, hnow, -⟩
    · exact h
    · exact absurd (.inl hnow) (R.handleResp c)
  -- a pending miss has a transaction somewhere
  have hmiss : s.l2.l2.missPendingBuffer = [] := by
    apply List.eq_nil_iff_forall_not_mem.mpr
    intro r hr
    have hline := L2System.merged_of_reachable hl2 (p.cacheLine r.phyAddr)
    have hnone : s.l2.traffic.transactions = [] := by
      simp [L2Traffic.transactions, L2System.traffic, hbiu, hat, (R.bus_empty hs).1, hanswers]
    have hpend : 0 < s.l2.traffic.pendingOn p (p.cacheLine r.phyAddr) :=
      List.countP_pos_iff.mpr ⟨r, hr, decide_eq_true rfl⟩
    rw [L2Traffic.outstanding, hnone, List.countP_nil] at hline
    omega
  simp [L2Traffic.heldFor, L2Traffic.inside, L2System.traffic, hreq, hqueue, R.pipeline, hmiss,
    hresp]

end AtRest

end MemSystem

/-- In every state that the L2 cache, the BIU and the MSS reach, with any two requesters that obey
the credit protocol: only the assertions on the number of answers of the BIU can fail; and when
nothing is scheduled and nothing is on its way, the credits of the BIU are back, and unless a
transaction is asleep in `biu_req_queue_` every request has been answered once, as a hit, and its
credit returned. -/
theorem memory_at_rest_has_answered (p : L2Params) (q : BusParams) {s : MemSystem p q}
    (h : Run.Reachable (MemSystem.step p q) {} s) :
    (∀ op a, s.step p q op = .error (.assertion a) →
      op = .respArrives ∧ (a = .biuRespQueueOverflow ∨ a = .biuRespNotServiced)) ∧
    (s.AtRest → s.bus.outstanding = [] ∧ s.l2.l2.biuCredits = q.biuReqQueueSize ∧
      (s.l2.l2.biuReqQueue = [] → ∀ c,
        (s.l2.traffic.sentTo c).Perm (s.l2.traffic.acceptedFrom c) ∧
          (s.l2.traffic.sentTo c).Nodup ∧ (∀ x ∈ s.l2.sent, x.2.cacheState = .hit) ∧
          s.l2.returned c = (s.l2.traffic.acceptedFrom c).length)) := by
  have S := MemSystem.sound_of_reachable h
  refine ⟨fun op a => MemSystem.assertion_of_reachable h, fun R => ?_⟩
  refine ⟨(R.bus_empty h).1, (R.bus_empty h).2, fun hbiu c => ?_⟩
  have hheld := R.heldFor_eq_nil h hbiu c
  have hperm := S.placed.held_perm c
  rw [hheld] at hperm
  have hnodup : (s.l2.traffic.acceptedFrom c).Nodup := by
    have hall : (s.l2.traffic.accepted.map Prod.snd).Nodup := by
      rw [S.placed.numbers]
      exact List.nodup_range
    exact hall.sublist (List.filter_sublist.map _)
  refine ⟨hperm, (List.Perm.nodup_iff hperm).mpr hnodup, S.routed.sent, ?_⟩
  have hcredits := S.placed.credits c
  have hreq : s.l2.traffic.reqQueue c = [] := by
    simp only [L2Traffic.heldFor, List.append_eq_nil_iff] at hheld
    exact hheld.1.1
  rw [hreq] at hcredits
  rw [L2Traffic.acceptedFrom, List.length_map, ← List.countP_eq_length_filter, hcredits]
  rfl

/-- Both first-level caches miss in one line; the answer of the BIU serves both. -/
def sharedLineOps : List MemOp :=
  [.l2 .tick, .l2 .postTick, .l2 .nextCycle,
   .creditsArrive, .l2 (.req .icache { id := 0, phyAddr := 0 }),
   .l2 (.req .dcache { id := 0, phyAddr := 8 }), .l2 .tick, .l2 (.handleReq .icache),
   .l2 (.handleReq .dcache), .l2 .postTick, .l2 .createReq, .l2 .nextCycle,
   .l2 .tick, .l2 .postTick, .l2 .createReq, .l2 .issueReq, .l2 .nextCycle,
   .l2 .tick, .l2 .lookup, .l2 .postTick, .l2 .issueReq, .l2 .nextCycle,
   .l2 .tick, .l2 .result, .l2 .handleBiuReq, .l2 .lookup, .l2 .postTick, .l2 .nextCycle,
   .bus .reqArrives, .l2 .tick, .l2 .result, .bus .handleBiuReq, .l2 .postTick, .l2 .nextCycle,
   .l2 .tick, .l2 .postTick, .l2 .nextCycle,
   .bus .mssReqArrives, .l2 .tick, .l2 .postTick, .l2 .nextCycle,
   .l2 .tick, .bus .handleMssReq, .l2 .postTick, .l2 .nextCycle,
   .bus .ackArrives, .l2 .tick, .bus .handleMssAck, .l2 .postTick, .l2 .nextCycle,
   .creditsArrive, .l2 .tick, .l2 .postTick, .l2 .nextCycle,
   .respArrives, .l2 .tick, .l2 .handleBiuResp, .l2 .postTick, .l2 .createReq, .l2 .issueReq,
   .l2 .nextCycle,
   .l2 .tick, .l2 .lookup, .l2 .postTick, .l2 .createReq, .l2 .issueReq, .l2 .nextCycle,
   .l2 .tick, .l2 .result, .l2 (.handleResp .icache), .l2 .lookup, .l2 .postTick, .l2 .issueReq,
   .l2 .nextCycle,
   .l2 .tick, .l2 .result, .l2 (.handleResp .dcache), .l2 .postTick]

theorem memory_at_rest_has_answered_sample :
    ∃ s, sharedLineOps.foldlM (MemSystem.step twoEntryL2 fastBus) {} = .ok s ∧
      s.l2.traffic.acceptedFrom .dcache = [1] ∧
      (s.l2.traffic.sentTo .dcache).Perm [1] ∧ s.l2.returned .dcache = 1 := by
  have heval : (sharedLineOps.foldlM (MemSystem.step twoEntryL2 fastBus) {}).toOption.map
      (fun s => (decide s.AtRest, s.l2.l2.biuReqQueue, s.l2.traffic.acceptedFrom .dcache)) =
        some (true, [], [1]) := by
    decide +kernel
  obtain ⟨s, hs, hval⟩ := Run.ok_of_eval heval
  simp only [Prod.mk.injEq] at hval
  obtain ⟨hrest, hbiu, haccepted⟩ := hval
  obtain ⟨-, hanswered⟩ := memory_at_rest_has_answered twoEntryL2 fastBus ⟨_, hs⟩
  obtain ⟨hperm, -, -, hreturned⟩ := (hanswered (of_decide_eq_true hrest)).2.2 hbiu .dcache
  rw [haccepted] at hperm hreturned
  exact ⟨s, hs, haccepted, hperm, hreturned⟩

end Olympia
