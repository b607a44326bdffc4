import Olympia.Mss.L2Answers

/-!
# What keeps the L2 cache going

Three questions about runs of the L2 cache.

Does a request that enters the pipeline have room?  It does: the issue check counts the requests
in the pipeline, and the events are scheduled as long as there is work
(`l2_issue_check_reserves_room`).

Is a queued miss sent when there is a credit?  `handle_L2Cache_BIU_Req_` sends one transaction and
schedules itself again only if it has sent none, so one that finds two transactions and a credit
leaves the second one asleep (`biu_req_queue_asleep`).  So is a transaction that is queued after
the handler has sent another one in the cycle, since the event does not run twice in a cycle.  In
a run without such steps (`KeepsBiuAwake`), `ev_handle_l2cache_biu_req_` is scheduled while the
queue is not empty (`biu_req_queue_awake`).

Can the unit block itself?  A reload needs a free entry in `pipeline_req_queue_` to leave the miss
buffer, and the requests in that queue need a free entry in the miss buffer to leave it, so the
unit is stuck when both are full (`l2_deadlock`).  Both are full only if together they hold as
many requests as they have entries; in a run where no request is taken that makes it so many,
the unit is never stuck (`l2_never_stuck`).
-/

namespace Olympia

open L2Cache

namespace L2System

variable {p : L2Params} {s s' : L2System p} {op : L2Op}

/-- What `create_Req_` pushes fits. -/
theorem createReq_pushes (h : s.step p .createReq = .ok s') :
    s'.l2.pipelineReqQueue = s.l2.pipelineReqQueue ∨
      (s.l2.pipelineReqQueue.length < p.pipelineReqQueueSize ∧
        ∃ r, s'.l2.pipelineReqQueue = s.l2.pipelineReqQueue ++ [r]) := by
  obtain ⟨-, -, h⟩ := step_eq_ok.mp h
  obtain ⟨⟨l2, credit⟩, hl2, h⟩ := Run.bind_eq_ok.mp h
  obtain rfl := Except.ok.inj h
  obtain ⟨-, sel, ⟨rfl, rfl, -⟩ | ⟨hfree, rfl, t, rest, r, -, -, rfl⟩ |
    ⟨hfree, c, r, rest, rfl, -, -, -, rfl⟩⟩ := createReq_cases hl2
  · exact .inl rfl
  · exact .inr ⟨hfree, _, rfl⟩
  · exact .inr ⟨hfree, _, rfl⟩

theorem EndOfCycle.now_eq_false (h : s.EndOfCycle) :
    s.l2.evCreateReq.now = false ∧ s.l2.evIssueReq.now = false := by
  simpa [postTickDone] using h.2

/-- At the end of a cycle the work that is left is scheduled. -/
theorem Sound.scheduled (H : Sound s) (hend : s.EndOfCycle) :
    (inputs s.l2 → s.l2.evCreateReq.next = true) ∧
      (s.l2.pipelineReqQueue ≠ [] → s.l2.evIssueReq.next = true) := by
  obtain ⟨hcreate, hissue⟩ := hend.now_eq_false
  have htick := H.phased hend.1
  simp only [tickDone, Bool.and_eq_true, Bool.not_eq_true'] at htick
  have hreq : ∀ c, s.l2.reqQueue c ≠ [] → s.l2.evCreateReq.next = true := by
    intro c hc
    rcases H.awake.creates c hc with hpend | hnow
    · exact hpend.next_of_now hcreate
    · cases c <;> simp [htick] at hnow
  constructor
  · rintro (hq | hq | hq)
    · rcases H.awake.reloads hq with hpend | hnow
      · exact hpend.next_of_now hcreate
      · simp [htick] at hnow
    · exact hreq .icache hq
    · exact hreq .dcache hq
  · intro hq
    exact (H.awake.issues hq).next_of_now hissue

end L2System

/-- In every state the L2 cache reaches, the requests in the pipeline are counted and have room in
the miss buffer and in the queue to the BIU, so the subtraction of the issue check does not wrap;
`pipeline_req_queue_` never gets more than it holds; of the assertions only those on the number of
answers of the BIU can fail; and at the end of a cycle the work that is left is scheduled. -/
theorem l2_issue_check_reserves_room (p : L2Params) {s : L2System p}
    (h : Run.Reachable (L2System.step p) {} s) :
    s.l2.inFlightReqs = s.l2.pipeline.length ∧
      s.l2.inFlightReqs + s.l2.missPendingBuffer.length ≤ p.missPendingBufferSize ∧
      s.l2.inFlightReqs + s.l2.biuReqQueue.length ≤ p.biuReqQueueSize ∧
      u32Sub p.biuReqQueueSize s.l2.biuReqQueue.length =
        p.biuReqQueueSize - s.l2.biuReqQueue.length ∧
      (∀ s', s.step p .createReq = .ok s' → inputs s.l2 ∧
        (s'.l2.pipelineReqQueue = s.l2.pipelineReqQueue ∨
          (s.l2.pipelineReqQueue.length < p.pipelineReqQueueSize ∧
            ∃ r, s'.l2.pipelineReqQueue = s.l2.pipelineReqQueue ++ [r]))) ∧
      (∀ op a, s.step p op = .error (.assertion a) →
        a = .biuRespQueueOverflow ∨ a = .biuRespNotServiced) ∧
      (s.EndOfCycle → (inputs s.l2 → s.l2.evCreateReq.next = true) ∧
        (s.l2.pipelineReqQueue ≠ [] → s.l2.evIssueReq.next = true)) := by
  have H := L2System.Sound.of_reachable h
  have hcount : s.l2.inFlightReqs = s.l2.pipeline.length := H.room.count
  have hmiss : s.l2.pipeline.length + s.l2.missPendingBuffer.length ≤ p.missPendingBufferSize :=
    H.room.miss_le
  have hbiu : s.l2.pipeline.length + s.l2.biuReqQueue.length ≤ p.biuReqQueueSize := H.room.biu_le
  refine ⟨hcount, hcount ▸ hmiss, hcount ▸ hbiu, u32Sub_of_le (by omega) p.biuReqQueueSize_lt,
    fun s' hstep => ⟨?_, L2System.createReq_pushes hstep⟩,
    fun op a hstep => (L2System.assertion_of_reachable h hstep).2, H.scheduled⟩
  obtain ⟨-, hdue, -⟩ := L2System.step_eq_ok.mp hstep
  exact H.awake.created (.inl hdue)

theorem l2_issue_check_reserves_room_sample :
    ∃ s, (lookupOps .icache 0).foldlM (L2System.step smallL2) {} = .ok s ∧
      s.l2.inFlightReqs = 1 ∧
      s.l2.inFlightReqs + s.l2.missPendingBuffer.length ≤ smallL2.missPendingBufferSize := by
  have heval : ((lookupOps .icache 0).foldlM (L2System.step smallL2) {}).toOption.map
      (fun s => s.l2.inFlightReqs) = some 1 := by
    decide +kernel
  obtain ⟨s, hs, hcount⟩ := Run.ok_of_eval heval
  exact ⟨s, hs, hcount, (l2_issue_check_reserves_room smallL2 ⟨_, hs⟩).2.1⟩

/-! ## The queue to the BIU -/

namespace L2System

variable {p : L2Params} {s s' : L2System p} {op : L2Op}

/-- The event that sends the transactions of the queue is scheduled while there are any. -/
def BiuAwake (s : L2System p) : Prop := s.l2.biuReqQueue ≠ [] → s.l2.evHandleBiuReq.Pending

/-- The request in the last stage is a miss, and none that is pending has its line. -/
def startsTransaction (p : L2Params) (s : L2System p) : Bool :=
  match Pipeline.at? s.l2.pipeline (hitMissHandling p) with
  | none => false
  | some r => r.cacheState ≠ .hit &&
    !L2Traffic.mergesWith p (s.l2.missPendingBuffer ++ [{ r with dest := .biu }]) r

/-- A step that leaves no transaction behind: the handler that has a credit finds one transaction
at most, and a transaction is queued only while the handler has not run in the cycle or has
scheduled itself for the next one. -/
def KeepsBiuAwake (p : L2Params) (s : L2System p) : L2Op → Prop
  | .handleBiuReq => 0 < s.l2.biuCredits → s.l2.biuReqQueue.length ≤ 1
  | .result => s.startsTransaction p = true → s.l2.evHandleBiuReq.ran = true →
    s.l2.evHandleBiuReq.next = true
  | _ => True

instance (s : L2System p) : DecidablePred (KeepsBiuAwake p s) := by
  intro op
  cases op <;> simp only [KeepsBiuAwake] <;> infer_instance

/-- A step keeps the event scheduled, unless it leaves a transaction behind. -/
theorem BiuAwake.step (P : Phased s) (H : BiuAwake s) (hkeeps : KeepsBiuAwake p s op)
    (h : s.step p op = .ok s') : BiuAwake s' := by
  obtain ⟨hphase, hdue, h⟩ := step_eq_ok.mp h
  cases op with
  | handleBiuReq =>
    rcases handleBiuReq_cases s.l2 with ⟨t, rest, hq, hcred, heq⟩ | ⟨-, heq⟩
    · have hlen : s.l2.biuReqQueue.length ≤ 1 := hkeeps hcred
      rw [hq, List.length_cons] at hlen
      obtain rfl : rest = [] := List.eq_nil_of_length_eq_zero (by omega)
      simp only [handle, heq] at h
      obtain rfl := Except.ok.inj h
      exact fun hne => absurd rfl hne
    · simp only [handle, heq] at h
      obtain rfl := Except.ok.inj h
      exact fun _ => UniqueEvent.pending_fire_scheduleNext
  | req c r =>
    obtain ⟨l2, hl2, h⟩ := Run.bind_eq_ok.mp h
    obtain rfl := Except.ok.inj h
    obtain ⟨l2', happ, hl2⟩ := Run.bind_eq_ok.mp hl2
    obtain rfl := Except.ok.inj hl2
    obtain ⟨q, -, happ⟩ := Run.bind_eq_ok.mp happ
    obtain rfl := Except.ok.inj happ
    exact H
  | biuResp i =>
    rcases ht : s.atBiu[i]? with _ | t
    · simp only [handle, ht] at h
      obtain rfl := Except.ok.inj h
      exact H
    · simp only [handle, ht] at h
      obtain ⟨l2, hl2, h⟩ := Run.bind_eq_ok.mp h
      obtain rfl := Except.ok.inj h
      obtain ⟨q, -, hl2⟩ := Run.bind_eq_ok.mp hl2
      obtain ⟨u, -, hl2⟩ := Run.bind_eq_ok.mp hl2
      obtain rfl := Except.ok.inj hl2
      exact H
  | handleReq c =>
    obtain rfl := Except.ok.inj h
    unfold handleReq
    dsimp only
    split
    · exact H
    · exact H
  | handleBiuResp =>
    obtain rfl := Except.ok.inj h
    unfold handleBiuResp
    dsimp only
    split
    · exact H
    · exact H
  | handleResp c =>
    obtain ⟨⟨l2, r⟩, hl2, h⟩ := Run.bind_eq_ok.mp h
    obtain rfl := Except.ok.inj h
    unfold handleResp at hl2
    rcases hq : s.l2.respQueue c with _ | ⟨r', rest⟩
    · rw [hq] at hl2
      cases hl2
    · rw [hq] at hl2
      obtain ⟨rfl, rfl⟩ := Prod.mk.inj (Except.ok.inj hl2)
      exact H
  | lookup =>
    obtain ⟨l2, hl2, h⟩ := Run.bind_eq_ok.mp h
    obtain rfl := Except.ok.inj h
    obtain ⟨req, hit, cache, -, rfl⟩ := handleCacheAccessRequest_cases hl2
    exact H
  | result =>
    obtain ⟨l2, hl2, h⟩ := Run.bind_eq_ok.mp h
    obtain rfl := Except.ok.inj h
    obtain ⟨req, hreq, ⟨-, c, -, -, rfl⟩ | ⟨hstate, hmiss⟩⟩ := handleCacheAccessResult_cases hl2
    · exact H
    · obtain ⟨-, ⟨-, rfl⟩ | ⟨hnone, -, rfl⟩⟩ := handleMiss_cases hmiss
      · exact H
      · intro _
        cases hran : s.l2.evHandleBiuReq.ran with
        | false => exact UniqueEvent.pending_scheduleNow hran
        | true =>
          have hnone : L2Traffic.mergesWith p
              (s.l2.missPendingBuffer ++ [{ req with dest := .biu }]) req = false := hnone
          have hstarts : s.startsTransaction p = true := by
            simp [startsTransaction, hreq, hstate, hnone]
          exact UniqueEvent.Pending.scheduleNow (.inr (hkeeps hstarts hran))
  | createReq =>
    obtain ⟨⟨l2, credit⟩, hl2, h⟩ := Run.bind_eq_ok.mp h
    obtain rfl := Except.ok.inj h
    obtain ⟨-, sel, ⟨rfl, rfl, -⟩ | ⟨-, rfl, t, rest, r, -, -, rfl⟩ |
      ⟨-, c, r, rest, rfl, -, -, -, rfl⟩⟩ := createReq_cases hl2
    · exact H
    · exact H
    · exact H
  | issueReq =>
    obtain ⟨l2, hl2, h⟩ := Run.bind_eq_ok.mp h
    obtain rfl := Except.ok.inj h
    obtain ⟨r, rest, -, -, -, rfl⟩ | rfl := issueReq_cases hl2
    · exact H
    · exact H
  | nextCycle =>
    obtain rfl := Except.ok.inj h
    have htick := P hphase
    simp only [tickDone, Bool.and_eq_true, Bool.not_eq_true'] at htick
    intro hq
    exact (H hq).nextCycle (by simp [htick])
  | _ =>
    obtain rfl := Except.ok.inj h
    exact H

end L2System

/-- In a run whose steps leave no transaction behind, the queue to the BIU is not empty at the end
of a cycle only if its handler is scheduled for the next one. -/
theorem biu_req_queue_awake (p : L2Params) {ops : List L2Op} {s : L2System p}
    (hkeeps : ∀ t op, Run.Takes (L2System.step p) {} ops t op → t.KeepsBiuAwake p op)
    (hs : Run.Visits (L2System.step p) {} ops s) (hend : s.EndOfCycle)
    (hq : s.l2.biuReqQueue ≠ []) : s.l2.evHandleBiuReq.next = true := by
  have hphased : L2System.Phased ({} : L2System p) := by
    intro h
    cases h
  have hawake : L2System.BiuAwake ({} : L2System p) := fun h => absurd rfl h
  have hboth : L2System.Phased s ∧ L2System.BiuAwake s := by
    apply hs.invariant (I := fun s => L2System.Phased s ∧ L2System.BiuAwake s) ⟨hphased, hawake⟩
    rintro op s s' ⟨P, H⟩ htakes hstep
    exact ⟨P.step hstep, H.step P (hkeeps s op htakes) hstep⟩
  obtain ⟨P, H⟩ := hboth
  have htick := P hend.1
  simp only [tickDone, Bool.and_eq_true, Bool.not_eq_true'] at htick
  exact (H hq).next_of_now (by simp [htick])

/-- Misses of address 0 and of another address in consecutive cycles, when the first one is about
to be handled. -/
def twoMissOps (phyAddr : ℕ) : List L2Op :=
  [.req .icache { id := 0, phyAddr := 0 }, .tick, .handleReq .icache, .postTick, .createReq,
   .nextCycle,
   .req .icache { id := 0, phyAddr := phyAddr }, .tick, .handleReq .icache, .postTick, .createReq,
   .issueReq, .nextCycle,
   .tick, .lookup, .postTick, .createReq, .issueReq, .nextCycle]

/-- The misses wait for a credit: the handler has run without one when the second one is handled,
and has scheduled itself for the next cycle. -/
def waitingOps (phyAddr : ℕ) : List L2Op :=
  twoMissOps phyAddr ++ [.tick, .result, .handleBiuReq, .lookup, .postTick, .issueReq, .nextCycle,
    .tick, .handleBiuReq, .result, .postTick]

/-- The L2 cache with two entries in each queue. -/
def twoEntryL2 : L2Params :=
  { smallL2 with
    pipelineReqQueueSize := 2
    missPendingBufferSize := 2
    pipelineReqQueueSize_pos := Nat.two_pos
    missPendingBufferSize_pos := Nat.two_pos
    missPendingBufferSize_lt := u32_lt (nat_lit 2) }

theorem biu_req_queue_awake_sample :
    ∃ s, (waitingOps 64).foldlM (L2System.step twoEntryL2) {} = .ok s ∧
      s.l2.biuReqQueue.length = 2 ∧ s.l2.evHandleBiuReq.next = true := by
  have heval : ((waitingOps 64).foldlM (L2System.step twoEntryL2) {}).toOption.map (fun s =>
      (s.phase, postTickDone s.l2, s.l2.biuReqQueue.length)) = some (.postTick, true, 2) := by
    decide +kernel
  have hall : Run.along (L2System.step twoEntryL2) (fun t op => t.KeepsBiuAwake twoEntryL2 op) {}
      (waitingOps 64) = true := by
    decide +kernel
  obtain ⟨s, hs, hval⟩ := Run.ok_of_eval heval
  simp only [Prod.mk.injEq] at hval
  obtain ⟨hphase, hdone, hlen⟩ := hval
  have hne : s.l2.biuReqQueue ≠ [] := by
    intro hnil
    rw [hnil] at hlen
    cases hlen
  refine ⟨s, hs, hlen, biu_req_queue_awake twoEntryL2 (fun t op htakes => ?_)
    ⟨_, [], (List.append_nil _).symm, hs⟩ ⟨hphase, hdone⟩ hne⟩
  have htest := htakes.of_along hall
  exact of_decide_eq_true htest

/-- The credit comes when both wait; the handler has nothing left to do after the first one. -/
def asleepOps : List L2Op :=
  waitingOps 64 ++ [.nextCycle, .biuCredits 1, .tick, .handleBiuReq, .postTick]

theorem biu_req_queue_asleep :
    ¬∀ (p : L2Params) (s : L2System p), Run.Reachable (L2System.step p) {} s → s.EndOfCycle →
      s.l2.biuReqQueue ≠ [] → s.l2.evHandleBiuReq.next = true := by
  intro hall
  have heval : (asleepOps.foldlM (L2System.step twoEntryL2) {}).toOption.map (fun s =>
      (s.phase, postTickDone s.l2, s.l2.biuReqQueue.length, s.l2.evHandleBiuReq.next)) =
        some (.postTick, true, 1, false) := by
    decide +kernel
  obtain ⟨s, hs, hval⟩ := Run.ok_of_eval heval
  simp only [Prod.mk.injEq] at hval
  obtain ⟨hphase, hdone, hlen, hnext⟩ := hval
  have hne : s.l2.biuReqQueue ≠ [] := by
    intro hnil
    rw [hnil] at hlen
    cases hlen
  have := hall twoEntryL2 s ⟨_, hs⟩ ⟨hphase, hdone⟩ hne
  rw [hnext] at this
  cases this

/-- The credit comes earlier: the handler sends the first transaction before the second one is
queued in the cycle, and does not run again. -/
def lateOps : List L2Op :=
  twoMissOps 64 ++ [.tick, .result, .handleBiuReq, .lookup, .postTick, .issueReq, .nextCycle,
    .biuCredits 1, .tick, .handleBiuReq, .result, .postTick]

example :
    (lateOps.foldlM (L2System.step twoEntryL2) {}).toOption.map (fun s =>
      (postTickDone s.l2, s.l2.biuReqQueue.length, s.l2.evHandleBiuReq.next)) =
        some (true, 1, false) := by
  decide +kernel

/-! ## Deadlock -/

namespace L2Traffic

variable {p : L2Params} {d d' : L2Traffic}

/-- The requests between the input queues and the answers. -/
def occupancy (d : L2Traffic) : ℕ :=
  d.pipelineReqQueue.length + d.pipeline.length + d.missPendingBuffer.length

/-- A request that leaves the last stage makes room for where it goes. -/
theorem occupancy_handled (R : Room p d) {r : MemoryRequest}
    (hr : Pipeline.at? d.pipeline (hitMissHandling p) = some r) :
    (d.handled p).occupancy + 1 = d.occupancy := by
  have hlen := Pipeline.length_remove R.sparse hr
  simp only [occupancy, handled]
  omega

/-- Only a new request adds to the occupancy, and a new request returns a credit. -/
theorem Move.occupancy_le (R : Room p d) (m : Move p d d') :
    d'.occupancy ≤ d.occupancy ∨ d'.returned ≠ d.returned := by
  cases m with
  | stay => exact .inl le_rfl
  | accept _ _ => exact .inl le_rfl
  | answer _ => exact .inl le_rfl
  | request _ => exact .inl le_rfl
  | respond _ => exact .inl le_rfl
  | lookup _ _ =>
    left
    simp only [occupancy, Pipeline.length_write, le_refl]
  | hit hr _ _ =>
    have hlen := occupancy_handled R hr
    left
    simp only [occupancy, handled] at hlen ⊢
    omega
  | merge hr _ _ =>
    have hlen := occupancy_handled R hr
    left
    simp only [occupancy, handled, List.length_append, List.length_singleton] at hlen ⊢
    omega
  | miss hr _ _ =>
    have hlen := occupancy_handled R hr
    left
    simp only [occupancy, handled, List.length_append, List.length_singleton] at hlen ⊢
    omega
  | reload ht hr _ =>
    have hlen := (perm_cons_eraseP hr).length_eq
    left
    simp only [occupancy, List.length_append, List.length_cons, List.length_nil] at hlen ⊢
    omega
  | @take c _ _ _ _ =>
    right
    intro heq
    have hc := congrFun heq c
    simp only [Function.update_self] at hc
    omega
  | issue hr _ _ =>
    left
    simp only [occupancy, hr, Pipeline.length_append, List.length_cons]
    omega
  | advance _ _ =>
    left
    simp only [occupancy, Pipeline.length_advance, le_refl]

end L2Traffic

namespace L2System

variable {p : L2Params} {s s' : L2System p} {op : L2Op}

/-- An answer waits, `pipeline_req_queue_` is full, and nothing in the unit can make room. -/
def Stuck (p : L2Params) (s : L2System p) : Prop :=
  s.l2.biuRespQueue ≠ [] ∧ s.l2.pipelineReqQueue.length = p.pipelineReqQueueSize ∧
    s.l2.inFlightReqs = 0 ∧ hasCreditsForPipelineIssue p s.l2 = false ∧ s.l2.biuReqQueue = []

instance : Decidable (Stuck p s) :=
  inferInstanceAs (Decidable (s.l2.biuRespQueue ≠ [] ∧
    s.l2.pipelineReqQueue.length = p.pipelineReqQueueSize ∧ s.l2.inFlightReqs = 0 ∧
    hasCreditsForPipelineIssue p s.l2 = false ∧ s.l2.biuReqQueue = []))

/-- `create_Req_` would take a request of a first-level cache. -/
def takesNew (p : L2Params) (s : L2System p) : Prop :=
  s.l2.pipelineReqQueue.length < p.pipelineReqQueueSize ∧ s.l2.biuRespQueue = [] ∧
    s.l2.reqQueue s.l2.channelSelect ≠ []

/-- Only `create_Req_` returns credits. -/
theorem returned_eq (hop : op ≠ .createReq) (h : s.step p op = .ok s') :
    s'.returned = s.returned := by
  obtain ⟨-, -, h⟩ := step_eq_ok.mp h
  cases op with
  | createReq => exact absurd rfl hop
  | biuResp i =>
    rcases ht : s.atBiu[i]? with _ | t
    · simp only [handle, ht] at h
      obtain rfl := Except.ok.inj h
      rfl
    · simp only [handle, ht] at h
      obtain ⟨l2, -, h⟩ := Run.bind_eq_ok.mp h
      obtain rfl := Except.ok.inj h
      rfl
  | req | handleResp | lookup | result | issueReq =>
    obtain ⟨l2, -, h⟩ := Run.bind_eq_ok.mp h
    obtain rfl := Except.ok.inj h
    rfl
  | _ =>
    obtain rfl := Except.ok.inj h
    rfl

/-- A step adds to the occupancy only if it takes a new request, and then by one. -/
theorem occupancy_step (H : Sound s) (h : s.step p op = .ok s') :
    s'.traffic.occupancy ≤ s.traffic.occupancy ∨
      (op = .createReq ∧ takesNew p s ∧ s'.traffic.occupancy = s.traffic.occupancy + 1) := by
  have hmove := (step_move H.phased h).occupancy_le H.room
  by_cases hop : op = .createReq
  · subst hop
    refine hmove.imp id fun hret => ⟨rfl, ?_⟩
    obtain ⟨-, -, h⟩ := step_eq_ok.mp h
    obtain ⟨⟨l2, credit⟩, hl2, h⟩ := Run.bind_eq_ok.mp h
    obtain rfl := Except.ok.inj h
    obtain ⟨-, sel, ⟨rfl, rfl, -⟩ | ⟨-, rfl, t, rest, r, -, -, rfl⟩ |
      ⟨hfree, c, r, rest, rfl, hsel, hr, hresp, rfl⟩⟩ := createReq_cases hl2
    · exact absurd rfl hret
    · exact absurd rfl hret
    · refine ⟨⟨hfree, hresp, by simp [hsel, hr]⟩, ?_⟩
      simp only [L2Traffic.occupancy, traffic, rearm, List.length_append, List.length_singleton]
      omega
  · exact hmove.imp id fun hret => absurd (returned_eq hop h) hret

/-- A unit that is stuck holds as many requests as it has places for. -/
theorem Stuck.occupancy_ge (h : Stuck p s) :
    p.pipelineReqQueueSize + p.missPendingBufferSize ≤ s.traffic.occupancy := by
  obtain ⟨-, hfull, hzero, hcred, hbiu⟩ := h
  have hpos := p.biuReqQueueSize_pos
  have hsub : u32Sub p.biuReqQueueSize 0 = p.biuReqQueueSize :=
    u32Sub_of_le (Nat.zero_le _) p.biuReqQueueSize_lt
  simp only [hasCreditsForPipelineIssue, hzero, hbiu, List.length_nil, hsub,
    decide_eq_false_iff_not] at hcred
  simp only [L2Traffic.occupancy, traffic]
  omega

end L2System

/-- In a run in which `create_Req_` takes a new request only if that leaves a place free in
`pipeline_req_queue_`, the pipeline and the miss buffer together, the unit is never stuck. -/
theorem l2_never_stuck (p : L2Params) {ops : List L2Op} {s : L2System p}
    (hroom : ∀ t, Run.Takes (L2System.step p) {} ops t .createReq → t.takesNew p →
      t.traffic.occupancy + 1 < p.pipelineReqQueueSize + p.missPendingBufferSize)
    (hs : Run.Visits (L2System.step p) {} ops s) : ¬s.Stuck p := by
  have hinit :
      ({} : L2System p).traffic.occupancy < p.pipelineReqQueueSize + p.missPendingBufferSize := by
    have := p.pipelineReqQueueSize_pos
    simp only [L2Traffic.occupancy, L2System.traffic, List.length_nil]
    omega
  have hboth : L2System.Sound s ∧
      s.traffic.occupancy < p.pipelineReqQueueSize + p.missPendingBufferSize := by
    apply hs.invariant (I := fun s => L2System.Sound s ∧
      s.traffic.occupancy < p.pipelineReqQueueSize + p.missPendingBufferSize) ⟨.init, hinit⟩
    rintro op s s' ⟨H, hlt⟩ htakes hstep
    refine ⟨H.step hstep, ?_⟩
    rcases L2System.occupancy_step H hstep with hle | ⟨rfl, hnew, heq⟩
    · exact hle.trans_lt hlt
    · rw [heq]
      exact hroom s htakes hnew
  intro hstuck
  have hge := hstuck.occupancy_ge
  omega

theorem l2_never_stuck_sample :
    ∃ s, answeredOps.foldlM (L2System.step twoEntryL2) {} = .ok s ∧ ¬s.Stuck twoEntryL2 := by
  have heval : (answeredOps.foldlM (L2System.step twoEntryL2) {}).toOption.map (fun _ => ()) =
      some () := by
    decide +kernel
  have hall : Run.along (L2System.step twoEntryL2) (fun t _ => t.traffic.occupancy + 1 < 4) {}
      answeredOps = true := by
    decide +kernel
  obtain ⟨s, hs, -⟩ := Run.ok_of_eval heval
  refine ⟨s, hs, l2_never_stuck twoEntryL2 ?_ ⟨_, [], (List.append_nil _).symm, hs⟩⟩
  intro t htakes _
  have htest := htakes.of_along hall
  exact of_decide_eq_true htest

/-- The miss buffer has one entry, taken by a miss; a second request waits before the pipeline
when the answer for the first one arrives. -/
def deadlockOps : List L2Op :=
  [.biuCredits 4] ++ lookupOps .icache 0 ++
    [.req .icache { id := 0, phyAddr := 64 }, .tick, .result, .handleBiuReq, .handleReq .icache,
     .postTick, .createReq, .nextCycle, .tick, .postTick, .createReq, .issueReq, .nextCycle,
     .biuResp 0, .tick, .handleBiuResp]

theorem l2_deadlock :
    ¬∀ (p : L2Params) (s : L2System p), Run.Reachable (L2System.step p) {} s → ¬s.Stuck p := by
  intro hall
  have heval : (deadlockOps.foldlM (L2System.step smallL2) {}).toOption.map
      (fun s => decide (s.Stuck smallL2)) = some true := by
    decide +kernel
  obtain ⟨s, hs, hstuck⟩ := Run.ok_of_eval heval
  exact hall smallL2 s ⟨_, hs⟩ (of_decide_eq_true hstuck)

end Olympia
