import Olympia.Mss.L2System

/-!
# Room in the L2 cache

A request enters the pipeline only if the miss buffer and the queue to the BIU have a free entry
for it and for every request that is in the pipeline already.  `L2Traffic.Room` keeps that: what
is in the pipeline and what is stored fits into each of the two.

`L2System.Awake` is about the events: an input queue that is not empty has `ev_create_req_`
scheduled, and `pipeline_req_queue_` has `ev_issue_req_`.
-/

namespace Olympia

open L2Cache

namespace L2Traffic

variable {p : L2Params} {d d' : L2Traffic}

/-- Every request in the pipeline has its room in the miss buffer and in the queue to the BIU. -/
structure Room (p : L2Params) (d : L2Traffic) : Prop where
  sparse : Pipeline.Sparse d.pipeline
  age_le : ∀ e ∈ d.pipeline, e.age ≤ hitMissHandling p
  result : ∀ e ∈ d.pipeline, e.age = hitMissHandling p → d.resultDue = true
  lookup_valid : d.lookupDue = true → Pipeline.isValid d.pipeline (cacheLookupStage p) = true
  result_valid : d.resultDue = true → Pipeline.isValid d.pipeline (hitMissHandling p) = true
  count : d.inFlightReqs = d.pipeline.length
  miss_le : d.pipeline.length + d.missPendingBuffer.length ≤ p.missPendingBufferSize
  biu_le : d.pipeline.length + d.biuReqQueue.length ≤ p.biuReqQueueSize
  queue_le : d.pipelineReqQueue.length ≤ p.pipelineReqQueueSize

theorem stages_ne (p : L2Params) : cacheLookupStage p ≠ hitMissHandling p := by
  have := p.l2cacheLatency_ge
  unfold cacheLookupStage hitMissHandling
  omega

namespace Room

/-- A request leaves the pipeline, and its room is there for what happens to it. -/
theorem handled (H : Room p d) {r : MemoryRequest}
    (hr : Pipeline.at? d.pipeline (hitMissHandling p) = some r) :
    Room p (d.handled p) ∧
      (d.handled p).pipeline.length + 1 + d.missPendingBuffer.length ≤ p.missPendingBufferSize ∧
      (d.handled p).pipeline.length + 1 + d.biuReqQueue.length ≤ p.biuReqQueueSize := by
  have hlen := Pipeline.length_remove H.sparse hr
  have hmiss := H.miss_le
  have hbiu := H.biu_le
  have hlt := p.missPendingBufferSize_lt
  refine ⟨⟨H.sparse.remove, fun e he => H.age_le e (Pipeline.mem_remove.mp he).1, ?_, ?_, ?_, ?_,
    ?_, ?_, H.queue_le⟩, ?_, ?_⟩
  · intro e he hage
    exact absurd hage (Pipeline.mem_remove.mp he).2
  · intro hdue
    have hvalid := H.lookup_valid hdue
    exact (Pipeline.isValid_remove (stages_ne p)).trans hvalid
  · intro hdue
    cases hdue
  · simp only [L2Traffic.handled, H.count]
    rw [u32Sub_of_le (by omega) (by omega)]
    omega
  all_goals
    simp only [L2Traffic.handled]
    omega

theorem step (H : Room p d) (m : Move p d d') : Room p d' := by
  cases m with
  | stay => exact H
  | accept hid howed => exact ⟨H.1, H.2, H.3, H.4, H.5, H.6, H.7, H.8, H.9⟩
  | answer ht => exact ⟨H.1, H.2, H.3, H.4, H.5, H.6, H.7, H.8, H.9⟩
  | respond hr => exact ⟨H.1, H.2, H.3, H.4, H.5, H.6, H.7, H.8, H.9⟩
  | request ht =>
    have hbiu := H.biu_le
    rw [ht, List.length_cons] at hbiu
    refine { H with biu_le := ?_ }
    dsimp only
    omega
  | lookup hdue hr =>
    refine ⟨H.sparse.write, ?_, ?_, ?_, ?_, ?_, ?_, ?_, H.queue_le⟩
    · intro e he
      rcases Pipeline.mem_write he with ⟨he, -⟩ | rfl
      · exact H.age_le e he
      · exact Nat.sub_le _ _
    · intro e he hage
      rcases Pipeline.mem_write he with ⟨he, -⟩ | rfl
      · exact H.result e he hage
      · exact absurd hage (stages_ne p)
    · intro hdue
      cases hdue
    · intro hdue
      exact Pipeline.isValid_write.trans (H.result_valid hdue)
    · exact H.count.trans Pipeline.length_write.symm
    · simpa using H.miss_le
    · simpa using H.biu_le
  | hit hr hstate hc =>
    obtain ⟨⟨h1, h2, h3, h4, h5, h6, h7, h8, h9⟩, -, -⟩ := H.handled hr
    exact ⟨h1, h2, h3, h4, h5, h6, h7, h8, h9⟩
  | merge hr hstate hother =>
    obtain ⟨H', hmiss, -⟩ := H.handled hr
    refine { H' with miss_le := ?_ }
    simp only [List.length_append, List.length_singleton]
    omega
  | miss hr hstate hnone =>
    obtain ⟨H', hmiss, hbiu⟩ := H.handled hr
    refine { H' with miss_le := ?_, biu_le := ?_ }
    · simp only [List.length_append, List.length_singleton]
      omega
    · simp only [List.length_append, List.length_singleton]
      omega
  | @reload t rest r ht hr hfree =>
    have hmem := List.mem_of_find?_eq_some hr
    have hlen := List.length_eraseP_of_mem hmem (List.find?_some hr)
    have hmiss := H.miss_le
    refine { H with miss_le := ?_, queue_le := ?_ }
    · dsimp only
      omega
    · simp only [List.length_append, List.length_singleton]
      omega
  | take hr hfree =>
    refine { H with queue_le := ?_ }
    simp only [List.length_append, List.length_singleton]
    omega
  | @issue r rest hr hroom hzero =>
    have hlen := H.queue_le
    have hlt := p.missPendingBufferSize_lt
    have hcount := H.count
    have hbiu := H.biu_le
    rw [hr, List.length_cons] at hlen
    rw [u32Sub_of_le (by omega) p.biuReqQueueSize_lt] at hroom
    have hmin := lt_min_iff.mp hroom
    refine ⟨H.sparse.append hzero, ?_, ?_, ?_, ?_, ?_, ?_, ?_, ?_⟩
    · intro e he
      rcases List.mem_append.mp he with he | he
      · exact H.age_le e he
      · obtain rfl := List.mem_singleton.mp he
        exact Nat.zero_le _
    · intro e he hage
      rcases List.mem_append.mp he with he | he
      · exact H.result e he hage
      · obtain rfl := List.mem_singleton.mp he
        have := p.l2cacheLatency_ge
        simp only [hitMissHandling] at hage
        omega
    · intro hdue
      exact Pipeline.isValid_append (H.lookup_valid hdue)
    · intro hdue
      exact Pipeline.isValid_append (H.result_valid hdue)
    · simp only [Pipeline.length_append]
      rw [u32Add_of_lt (by omega), hcount]
    · simp only [Pipeline.length_append]
      omega
    · simp only [Pipeline.length_append]
      omega
    · dsimp only
      omega
  | advance hlookup hresult =>
    refine ⟨H.sparse.advance, ?_, ?_, id, id, ?_, ?_, ?_, H.queue_le⟩
    · intro e he
      obtain ⟨x, hx, rfl⟩ := Pipeline.mem_advance.mp he
      have hle := H.age_le x hx
      have hne : x.age ≠ hitMissHandling p := by
        intro hage
        rw [H.result x hx hage] at hresult
        cases hresult
      dsimp only
      omega
    · intro e he hage
      exact Pipeline.isValid_iff.mpr ⟨e, he, hage⟩
    · exact H.count.trans Pipeline.length_advance.symm
    · simpa using H.miss_le
    · simpa using H.biu_le

end Room

end L2Traffic

namespace L2System

variable {p : L2Params} {s s' : L2System p} {op : L2Op}

/-- The events are scheduled as long as there is work for them, and `ev_create_req_` only then. -/
structure Awake (s : L2System p) : Prop where
  creates : ∀ c, s.l2.reqQueue c ≠ [] → s.l2.evCreateReq.Pending ∨ (s.l2.evHandleReq c).now = true
  reloads : s.l2.biuRespQueue ≠ [] → s.l2.evCreateReq.Pending ∨ s.l2.evHandleBiuResp.now = true
  created : s.l2.evCreateReq.Pending → inputs s.l2
  createOnce : s.l2.evCreateReq.next = true → s.phase = .postTick ∧ s.l2.evCreateReq.now = false
  issues : s.l2.pipelineReqQueue ≠ [] → s.l2.evIssueReq.Pending
  issueOnce : Pipeline.isValid s.l2.pipeline 0 = true →
    s.phase = .postTick ∧ s.l2.evIssueReq.now = false
  responds : ∀ c, s.l2.respQueue c = [] ∨
    ∃ r, s.l2.respQueue c = [r] ∧ (s.l2.evHandleResp c).now = true ∧ s.l2.resultDue = false
  responded : ∀ c, (s.l2.evHandleResp c).Pending → s.l2.respQueue c ≠ []
  respondOnce : ∀ c, (s.l2.evHandleResp c).next = false

/-- An event that can still be scheduled for this cycle has not run in it: what arrives does so
before the handlers run, those schedule `ev_create_req_` before the post-tick phase, and the one
answer of a cycle is sent after the last stage has been handled. -/
structure Fresh (s : L2System p) : Prop where
  requests : s.phase = .portUpdate → ∀ c, (s.l2.evHandleReq c).ran = false
  answers : s.phase = .portUpdate → s.l2.evHandleBiuResp.ran = false
  creates : s.phase ≠ .postTick → s.l2.evCreateReq.ran = false
  responds : s.l2.resultDue = true → ∀ c, (s.l2.evHandleResp c).ran = false

namespace Awake

theorem init : Awake ({} : L2System p) where
  creates c h := absurd rfl h
  reloads h := absurd rfl h
  created h := by
    rcases h with h | h
    · cases h
    · cases h
  createOnce h := by cases h
  issues h := absurd rfl h
  issueOnce h := by cases h
  responds c := .inl rfl
  responded c h := by
    rcases h with h | h
    · cases h
    · cases h
  respondOnce c := rfl

/-- In the tick phase and before, `ev_create_req_` is not scheduled for the next cycle. -/
theorem next_eq_false (H : Awake s) (hphase : s.phase ≠ .postTick) :
    s.l2.evCreateReq.next = false := by
  by_contra h
  exact hphase (H.createOnce (by simpa using h)).1

/-- While the last stage is due, no answer waits. -/
theorem respQueue_eq_nil (H : Awake s) (hdue : s.l2.resultDue = true) (c : L1Cache) :
    s.l2.respQueue c = [] := by
  rcases H.responds c with h | ⟨r, -, -, hnot⟩
  · exact h
  · rw [hdue] at hnot
    cases hnot

/-- At the end of `create_Req_` the event is scheduled exactly if there is work for it. -/
theorem pending_rearm {l2 : L2State p} (hnext : l2.evCreateReq.next = false) :
    (rearm l2).evCreateReq.Pending ↔ inputs l2 := by
  unfold rearm
  dsimp only
  split
  · rename_i hin
    exact iff_of_true UniqueEvent.pending_scheduleNext hin
  · rename_i hin
    refine iff_of_false ?_ hin
    rintro (h | h)
    · cases h
    · rw [UniqueEvent.fire_next, hnext] at h
      cases h

theorem rearm_now {l2 : L2State p} : (rearm l2).evCreateReq.now = false := by
  unfold rearm
  dsimp only
  split <;> rfl

/-- `create_Req_` leaves the unit awake, whatever it has moved. -/
theorem of_rearm (H : Awake s) (hphase : s.phase = .postTick) (hnow : s.l2.evCreateReq.now = true)
    {l2 : L2State p} {returned : L1Cache → ℕ} (hcreate : l2.evCreateReq = s.l2.evCreateReq)
    (hissue : l2.evIssueReq = s.l2.evIssueReq) (hpipe : l2.pipeline = s.l2.pipeline)
    (hresp : l2.respQueue = s.l2.respQueue) (hev : l2.evHandleResp = s.l2.evHandleResp)
    (hresult : l2.resultDue = s.l2.resultDue) :
    Awake { s with l2 := rearm l2, returned := returned } := by
  have hnext : l2.evCreateReq.next = false := by
    rw [hcreate]
    by_contra h
    have := (H.createOnce (by simpa using h)).2
    rw [hnow] at this
    cases this
  have hpending := pending_rearm hnext
  refine ⟨fun c hc => .inl (hpending.mpr (inputs_of_reqQueue hc)), fun h => .inl (hpending.mpr
    (.inl h)), hpending.mp, fun _ => ⟨hphase, rearm_now⟩, fun _ => .inr rfl, ?_, ?_, ?_, ?_⟩
  · intro hzero
    have hzero : Pipeline.isValid l2.pipeline 0 = true := hzero
    rw [hpipe] at hzero
    have hissued := (H.issueOnce hzero).2
    rw [← hissue] at hissued
    exact ⟨hphase, hissued⟩
  · intro c
    have hold := H.responds c
    rw [← hresp, ← hev, ← hresult] at hold
    exact hold
  · intro c
    have hold := H.responded c
    rw [← hresp, ← hev] at hold
    exact hold
  · intro c
    have hold := H.respondOnce c
    rw [← hev] at hold
    exact hold

theorem step (P : Phased s) (F : Fresh s) (H : Awake s) (h : s.step p op = .ok s') :
    Awake s' := by
  obtain ⟨hphase, hdue, h⟩ := step_eq_ok.mp h
  cases op with
  | req c r =>
    obtain ⟨l2, hl2, h⟩ := Run.bind_eq_ok.mp h
    obtain rfl := Except.ok.inj h
    obtain ⟨l2', happ, hl2⟩ := Run.bind_eq_ok.mp hl2
    obtain rfl := Except.ok.inj hl2
    obtain ⟨q, hq, happ⟩ := Run.bind_eq_ok.mp happ
    obtain rfl := Except.ok.inj happ
    refine { H with creates := ?_, created := ?_ }
    · intro c' hc'
      by_cases hcc : c' = c
      · subst hcc
        have hran := F.requests hphase c'
        exact .inr (by simp [UniqueEvent.scheduleNow_now hran])
      · have hold := H.creates c' (by simpa [Function.update_of_ne hcc] using hc')
        simpa [Function.update_of_ne hcc] using hold
    · intro hpend
      obtain ⟨-, rfl⟩ := appendQueue_eq_ok.mp hq
      exact inputs_of_reqQueue (c := c) (by simp)
  | biuResp i =>
    rcases ht : s.atBiu[i]? with _ | t
    · simp only [handle, ht] at h
      obtain rfl := Except.ok.inj h
      exact H
    · simp only [handle, ht] at h
      obtain ⟨l2, hl2, h⟩ := Run.bind_eq_ok.mp h
      obtain rfl := Except.ok.inj h
      obtain ⟨q, hq, hl2⟩ := Run.bind_eq_ok.mp hl2
      obtain ⟨-, rfl⟩ := appendQueue_eq_ok.mp hq
      obtain ⟨u, -, hl2⟩ := Run.bind_eq_ok.mp hl2
      obtain rfl := Except.ok.inj hl2
      have hran := F.answers hphase
      exact { H with
        reloads := fun _ => .inr (UniqueEvent.scheduleNow_now hran)
        created := fun _ => .inl (by simp) }
  | biuCredits n =>
    obtain rfl := Except.ok.inj h
    refine { H with issues := fun _ => .inr rfl, issueOnce := ?_ }
    intro hzero
    exact ⟨(H.issueOnce hzero).1, (H.issueOnce hzero).2⟩
  | handleReq c =>
    obtain rfl := Except.ok.inj h
    have htick : s.phase ≠ .postTick := by
      rw [hphase]
      simp [L2Op.phase]
    have hnext := H.next_eq_false htick
    have hpending := UniqueEvent.pending_scheduleNow (F.creates htick)
    by_cases hq : s.l2.reqQueue c = []
    · have heq : handleReq s.l2 c = { s.l2 with
          evHandleReq := Function.update s.l2.evHandleReq c (s.l2.evHandleReq c).fire } := by
        simp [handleReq, hq]
      rw [heq]
      refine { H with creates := ?_ }
      intro c' hc'
      by_cases hcc : c' = c
      · exact absurd (hcc ▸ hq) hc'
      · simpa [Function.update_of_ne hcc] using H.creates c' hc'
    · have heq : handleReq s.l2 c = { s.l2 with
          evHandleReq := Function.update s.l2.evHandleReq c (s.l2.evHandleReq c).fire
          evCreateReq := s.l2.evCreateReq.scheduleNow } := by
        simp [handleReq, hq]
      rw [heq]
      refine { H with
        creates := fun _ _ => .inl hpending
        reloads := fun _ => .inl hpending
        created := fun _ => inputs_of_reqQueue (c := c) hq
        createOnce := ?_ }
      intro h
      rw [UniqueEvent.scheduleNow_next, hnext] at h
      cases h
  | handleBiuResp =>
    obtain rfl := Except.ok.inj h
    have htick : s.phase ≠ .postTick := by
      rw [hphase]
      simp [L2Op.phase]
    have hnext := H.next_eq_false htick
    have hpending := UniqueEvent.pending_scheduleNow (F.creates htick)
    by_cases hq : s.l2.biuRespQueue = []
    · have heq : handleBiuResp s.l2 =
          { s.l2 with evHandleBiuResp := s.l2.evHandleBiuResp.fire } := by
        simp [handleBiuResp, hq]
      rw [heq]
      exact { H with reloads := fun h => absurd hq h }
    · have heq : handleBiuResp s.l2 = { s.l2 with
          evHandleBiuResp := s.l2.evHandleBiuResp.fire
          evCreateReq := s.l2.evCreateReq.scheduleNow } := by
        simp [handleBiuResp, hq]
      rw [heq]
      refine { H with
        creates := fun _ _ => .inl hpending
        reloads := fun _ => .inl hpending
        created := fun _ => .inl hq
        createOnce := ?_ }
      intro h
      rw [UniqueEvent.scheduleNow_next, hnext] at h
      cases h
  | handleBiuReq =>
    rcases handleBiuReq_cases s.l2 with ⟨t, rest, hq, -, heq⟩ | ⟨-, heq⟩
    · simp only [handle, heq] at h
      obtain rfl := Except.ok.inj h
      exact { H with }
    · simp only [handle, heq] at h
      obtain rfl := Except.ok.inj h
      exact { H with }
  | handleResp c =>
    obtain ⟨⟨l2, r⟩, hl2, h⟩ := Run.bind_eq_ok.mp h
    obtain rfl := Except.ok.inj h
    unfold handleResp at hl2
    rcases hq : s.l2.respQueue c with _ | ⟨r', rest⟩
    · rw [hq] at hl2
      cases hl2
    · rw [hq] at hl2
      obtain ⟨rfl, rfl⟩ := Prod.mk.inj (Except.ok.inj hl2)
      refine { H with responds := ?_, responded := ?_, respondOnce := ?_ }
      · intro c'
        by_cases hcc : c' = c
        · subst hcc
          -- the queue had one entry
          rcases H.responds c' with hnil | ⟨x, hx, -, -⟩
          · rw [hq] at hnil
            cases hnil
          · rw [hq] at hx
            obtain ⟨-, rfl⟩ := List.cons.inj hx
            exact .inl (by simp)
        · simpa [Function.update_of_ne hcc] using H.responds c'
      · intro c'
        by_cases hcc : c' = c
        · subst hcc
          simp [UniqueEvent.Pending, H.respondOnce]
        · simpa [Function.update_of_ne hcc] using H.responded c'
      · intro c'
        by_cases hcc : c' = c
        · subst hcc
          simp [H.respondOnce]
        · simpa [Function.update_of_ne hcc] using H.respondOnce c'
  | lookup =>
    obtain ⟨l2, hl2, h⟩ := Run.bind_eq_ok.mp h
    obtain rfl := Except.ok.inj h
    obtain ⟨req, hit, cache, hreq, rfl⟩ := handleCacheAccessRequest_cases hl2
    refine { H with issueOnce := ?_ }
    intro hzero
    rw [Pipeline.isValid_write] at hzero
    exact H.issueOnce hzero
  | result =>
    obtain ⟨l2, hl2, h⟩ := Run.bind_eq_ok.mp h
    obtain rfl := Except.ok.inj h
    have hnil := H.respQueue_eq_nil hdue
    have hage : 0 ≠ hitMissHandling p := by
      have := p.l2cacheLatency_ge
      unfold hitMissHandling
      omega
    have hzero : Pipeline.isValid (Pipeline.remove s.l2.pipeline (hitMissHandling p)) 0 = true →
        s.phase = .postTick ∧ s.l2.evIssueReq.now = false := by
      rw [Pipeline.isValid_remove hage]
      exact H.issueOnce
    obtain ⟨req, hreq, ⟨hstate, c, hc, -, rfl⟩ | ⟨hstate, hmiss⟩⟩ :=
      handleCacheAccessResult_cases hl2
    · refine { H with issueOnce := hzero, responds := ?_, responded := ?_, respondOnce := ?_ }
      · intro c'
        by_cases hcc : c' = c
        · subst hcc
          have hran := F.responds hdue c'
          exact .inr ⟨req, by simp [hnil], by simp [UniqueEvent.scheduleNow_now hran], rfl⟩
        · exact .inl (by simp [Function.update_of_ne hcc, hnil])
      · intro c'
        by_cases hcc : c' = c
        · subst hcc
          simp
        · simpa [Function.update_of_ne hcc] using H.responded c'
      · intro c'
        by_cases hcc : c' = c
        · subst hcc
          simp [H.respondOnce]
        · simpa [Function.update_of_ne hcc] using H.respondOnce c'
    · obtain ⟨-, ⟨hother, rfl⟩ | ⟨hnone, -, rfl⟩⟩ := handleMiss_cases hmiss
      · exact { H with issueOnce := hzero, responds := fun c => .inl (hnil c) }
      · exact { H with issueOnce := hzero, responds := fun c => .inl (hnil c) }
  | createReq =>
    obtain ⟨⟨l2, credit⟩, hl2, h⟩ := Run.bind_eq_ok.mp h
    obtain rfl := Except.ok.inj h
    obtain ⟨-, sel, ⟨rfl, rfl, -⟩ | ⟨hfree, rfl, t, rest, r, ht, hr, rfl⟩ |
      ⟨hfree, c, r, rest, rfl, -, hr, -, rfl⟩⟩ := createReq_cases hl2
    · exact H.of_rearm hphase hdue rfl rfl rfl rfl rfl rfl
    · exact H.of_rearm hphase hdue rfl rfl rfl rfl rfl rfl
    · exact H.of_rearm hphase hdue rfl rfl rfl rfl rfl rfl
  | issueReq =>
    obtain ⟨l2, hl2, h⟩ := Run.bind_eq_ok.mp h
    obtain rfl := Except.ok.inj h
    have hnow : ∀ q : List MemoryRequest,
        (if q ≠ [] then s.l2.evIssueReq.fire.scheduleNext else s.l2.evIssueReq.fire).now =
          false := by
      intro q
      split <;> rfl
    obtain ⟨r, rest, hr, hcred, hzero, rfl⟩ | rfl := issueReq_cases hl2
    · refine { H with issues := ?_, issueOnce := fun _ => ⟨hphase, hnow rest⟩ }
      intro hrest
      rw [if_pos hrest]
      exact UniqueEvent.pending_scheduleNext
    · refine { H with issues := ?_, issueOnce := fun _ => ⟨hphase, hnow s.l2.pipelineReqQueue⟩ }
      intro hrest
      rw [if_pos hrest]
      exact UniqueEvent.pending_scheduleNext
  | tick =>
    obtain rfl := Except.ok.inj h
    refine { H with createOnce := ?_, issueOnce := ?_ }
    · intro hnext
      have := (H.createOnce hnext).1
      rw [hphase] at this
      cases this
    · intro hzero
      have := (H.issueOnce hzero).1
      rw [hphase] at this
      cases this
  | postTick =>
    obtain rfl := Except.ok.inj h
    refine { H with createOnce := ?_, issueOnce := ?_ }
    · intro hnext
      exact ⟨rfl, (H.createOnce hnext).2⟩
    · intro hzero
      exact ⟨rfl, (H.issueOnce hzero).2⟩
  | nextCycle =>
    obtain rfl := Except.ok.inj h
    have htick := P hphase
    simp only [tickDone, Bool.and_eq_true, Bool.not_eq_true'] at htick
    obtain ⟨hcreate, hissue⟩ : s.l2.evCreateReq.now = false ∧ s.l2.evIssueReq.now = false := by
      simpa [due, postTickDone] using hdue
    have hreq : ∀ c, (s.l2.evHandleReq c).now = false := fun c => by cases c <;> simp [htick]
    have hresp : ∀ c, s.l2.respQueue c = [] := by
      intro c
      rcases H.responds c with hnil | ⟨r, -, hnow, -⟩
      · exact hnil
      · cases c <;> simp [htick] at hnow
    refine ⟨?_, ?_, ?_, ?_, ?_, ?_, fun c => .inl (hresp c), ?_, fun c => rfl⟩
    · intro c hc
      rcases H.creates c hc with hpend | hnow
      · exact .inl (hpend.nextCycle hcreate)
      · rw [hreq c] at hnow
        cases hnow
    · intro hq
      rcases H.reloads hq with hpend | hnow
      · exact .inl (hpend.nextCycle hcreate)
      · simp [htick] at hnow
    · rintro (hnow | hnext)
      · exact H.created (.inr hnow)
      · cases hnext
    · intro hnext
      cases hnext
    · intro hq
      exact (H.issues hq).nextCycle hissue
    · intro hzero
      have hfalse : Pipeline.isValid (Pipeline.advance s.l2.pipeline) 0 = true := hzero
      rw [Pipeline.isValid_advance_zero] at hfalse
      cases hfalse
    · intro c hpend
      rcases hpend with hnow | hnext
      · have hnow : (s.l2.evHandleResp c).next = true := hnow
        rw [H.respondOnce c] at hnow
        cases hnow
      · cases hnext

end Awake

namespace Fresh

theorem init : Fresh ({} : L2System p) where
  requests _ _ := rfl
  answers _ := rfl
  creates _ := rfl
  responds _ _ := rfl

theorem step (F : Fresh s) (H : Awake s) (h : s.step p op = .ok s') : Fresh s' := by
  obtain ⟨hphase, hdue, h⟩ := step_eq_ok.mp h
  cases op with
  | req c r =>
    obtain ⟨l2, hl2, h⟩ := Run.bind_eq_ok.mp h
    obtain rfl := Except.ok.inj h
    obtain ⟨l2', happ, hl2⟩ := Run.bind_eq_ok.mp hl2
    obtain rfl := Except.ok.inj hl2
    obtain ⟨q, -, happ⟩ := Run.bind_eq_ok.mp happ
    obtain rfl := Except.ok.inj happ
    refine { F with requests := fun hport c' => ?_ }
    by_cases hcc : c' = c
    · subst hcc
      simpa using F.requests hport c'
    · simpa [Function.update_of_ne hcc] using F.requests hport c'
  | biuResp i =>
    rcases ht : s.atBiu[i]? with _ | t
    · simp only [handle, ht] at h
      obtain rfl := Except.ok.inj h
      exact F
    · simp only [handle, ht] at h
      obtain ⟨l2, hl2, h⟩ := Run.bind_eq_ok.mp h
      obtain rfl := Except.ok.inj h
      obtain ⟨q, -, hl2⟩ := Run.bind_eq_ok.mp hl2
      obtain ⟨u, -, hl2⟩ := Run.bind_eq_ok.mp hl2
      obtain rfl := Except.ok.inj hl2
      exact { F with answers := fun hport => by simpa using F.answers hport }
  | handleReq c =>
    obtain rfl := Except.ok.inj h
    have hran := F.creates (by rw [hphase]; simp [L2Op.phase])
    have hport : s.phase ≠ .portUpdate := by
      rw [hphase]
      simp [L2Op.phase]
    unfold handleReq
    dsimp only
    split
    · exact { F with requests := fun h => absurd h hport }
    · exact { F with
        requests := fun h => absurd h hport
        creates := fun _ => by simpa using hran }
  | handleBiuResp =>
    obtain rfl := Except.ok.inj h
    have hran := F.creates (by rw [hphase]; simp [L2Op.phase])
    have hport : s.phase ≠ .portUpdate := by
      rw [hphase]
      simp [L2Op.phase]
    unfold handleBiuResp
    dsimp only
    split
    · exact { F with answers := fun h => absurd h hport }
    · exact { F with
        answers := fun h => absurd h hport
        creates := fun _ => by simpa using hran }
  | handleBiuReq =>
    rcases handleBiuReq_cases s.l2 with ⟨t, rest, -, -, heq⟩ | ⟨-, heq⟩
    · simp only [handle, heq] at h
      obtain rfl := Except.ok.inj h
      exact { F with }
    · simp only [handle, heq] at h
      obtain rfl := Except.ok.inj h
      exact { F with }
  | handleResp c =>
    obtain ⟨⟨l2, r⟩, hl2, h⟩ := Run.bind_eq_ok.mp h
    obtain rfl := Except.ok.inj h
    unfold handleResp at hl2
    rcases hq : s.l2.respQueue c with _ | ⟨r', rest⟩
    · rw [hq] at hl2
      cases hl2
    · rw [hq] at hl2
      obtain ⟨rfl, rfl⟩ := Prod.mk.inj (Except.ok.inj hl2)
      -- the answer was put in the queue by the handler of the last stage
      refine { F with responds := fun hresult => ?_ }
      have hnil := H.respQueue_eq_nil hresult c
      rw [hq] at hnil
      cases hnil
  | lookup =>
    obtain ⟨l2, hl2, h⟩ := Run.bind_eq_ok.mp h
    obtain rfl := Except.ok.inj h
    obtain ⟨req, hit, cache, -, rfl⟩ := handleCacheAccessRequest_cases hl2
    exact { F with }
  | result =>
    obtain ⟨l2, hl2, h⟩ := Run.bind_eq_ok.mp h
    obtain rfl := Except.ok.inj h
    obtain ⟨req, -, ⟨-, c, -, -, rfl⟩ | ⟨-, hmiss⟩⟩ := handleCacheAccessResult_cases hl2
    · exact { F with responds := fun h => by cases h }
    · obtain ⟨-, ⟨-, rfl⟩ | ⟨-, -, rfl⟩⟩ := handleMiss_cases hmiss
      · exact { F with responds := fun h => by cases h }
      · exact { F with responds := fun h => by cases h }
  | createReq =>
    obtain ⟨⟨l2, credit⟩, hl2, h⟩ := Run.bind_eq_ok.mp h
    obtain rfl := Except.ok.inj h
    obtain ⟨-, sel, ⟨rfl, rfl, -⟩ | ⟨-, rfl, t, rest, r, -, -, rfl⟩ |
      ⟨-, c, r, rest, rfl, -, -, -, rfl⟩⟩ := createReq_cases hl2
    · exact { F with creates := fun h => absurd hphase h }
    · exact { F with creates := fun h => absurd hphase h }
    · exact { F with creates := fun h => absurd hphase h }
  | issueReq =>
    obtain ⟨l2, hl2, h⟩ := Run.bind_eq_ok.mp h
    obtain rfl := Except.ok.inj h
    obtain ⟨r, rest, -, -, -, rfl⟩ | rfl := issueReq_cases hl2
    · exact { F with }
    · exact { F with }
  | biuCredits n =>
    obtain rfl := Except.ok.inj h
    exact { F with }
  | tick =>
    obtain rfl := Except.ok.inj h
    have hport : s.phase ≠ .postTick := by
      rw [hphase]
      simp [L2Op.phase]
    exact { F with
      requests := fun h => by cases h
      answers := fun h => by cases h
      creates := fun _ => F.creates hport }
  | postTick =>
    obtain rfl := Except.ok.inj h
    exact { F with
      requests := fun h => by cases h
      answers := fun h => by cases h
      creates := fun h => absurd rfl h }
  | nextCycle =>
    obtain rfl := Except.ok.inj h
    exact ⟨fun _ _ => rfl, fun _ => rfl, fun _ => rfl, fun _ _ => rfl⟩

end Fresh

end L2System

end Olympia
