import Olympia.Lsu.Invariant

/-!
# The ready queue and the issue event

`uev_issue_inst_` is scheduled when `isReadyToIssueInsts_` holds, and runs later in the cycle or in
the next one.  In between the ready queue only grows and the replay buffer only shrinks, except in
`issueInst_`, which runs once in a cycle, and in a flush, which cancels the event; so the event
finds an instruction (`Issue`).

An instruction is in the ready queue at most once, and not in the replay buffer at the same time
(`ReadyQueue`).  The flag `in_ready_queue_` is set for every entry of the queue.  It is cleared only
by `issueInst_`, so it tells the entries among the instructions in the LSU as long as it starts as
false (`Flagged`).
-/

namespace Olympia

namespace Lsu

variable {p : LsuParams} {sb : Scoreboards} {q q' : List RenamedInst} {w w' : LsuWork}
variable {T T' : InstTable} {ri : RenamedInst} {Ap Ab : LsuWork → RenamedInst → Prop} {Re : Prop}

/-! ## The invariant of the queue -/

structure ReadyQueue (p : LsuParams) (w : LsuWork) : Prop where
  nodup : (w.readyQueue.map RenamedInst.key).Nodup
  flag : ∀ ri ∈ w.readyQueue, (w.info ri.key).inReadyQueue = true
  apart : ∀ ri ∈ w.readyQueue, ∀ e ∈ w.replayBuffer, e.key ≠ ri.key
  speculative : p.allowSpeculativeLoadExec = false → w.replayBuffer = []

/-- The flag of an instruction in the LSU is set only in the ready queue. -/
def Flagged (q : List RenamedInst) (w : LsuWork) : Prop :=
  ∀ ri ∈ q, (w.info ri.key).inReadyQueue = true → ∃ e ∈ w.readyQueue, e.key = ri.key

theorem isReadyToIssueInsts_iff : isReadyToIssueInsts p w = true ↔
    (p.allowSpeculativeLoadExec = true → w.replayBuffer.length < p.replayBufferSize) ∧
      w.readyQueue ≠ [] := by
  simp only [isReadyToIssueInsts, Bool.and_eq_true, Bool.not_eq_true', Bool.and_eq_false_iff,
    decide_eq_false_iff_not, not_le, List.isEmpty_eq_false_iff]
  refine and_congr_left fun _ => ?_
  cases p.allowSpeculativeLoadExec <;> simp

theorem isReadyToIssueInsts_mono (hready : w.readyQueue ≠ [] → w'.readyQueue ≠ [])
    (hreplay : w'.replayBuffer.length ≤ w.replayBuffer.length)
    (h : isReadyToIssueInsts p w = true) : isReadyToIssueInsts p w' = true := by
  rw [isReadyToIssueInsts_iff] at h ⊢
  exact ⟨fun hspec => hreplay.trans_lt (h.1 hspec), hready h.2⟩

theorem Enqueued.ne_nil (E : Enqueued w ri w') : w'.readyQueue ≠ [] := by
  intro hnil
  have hperm := E.ready
  rw [hnil] at hperm
  exact absurd hperm.length_eq (by simp)

/-- An instruction outside the replay buffer joins the queue. -/
theorem ReadyQueue.enqueue (H : ReadyQueue p w) (E : Enqueued w ri w')
    (hreplay : ∀ e ∈ w.replayBuffer, e.key ≠ ri.key) : ReadyQueue p w' := by
  have hbuffer : w'.replayBuffer = w.replayBuffer := by rw [E.rest]
  refine ⟨?_, fun e he => ?_, fun e he => ?_, fun hspec => hbuffer.trans (H.speculative hspec)⟩
  · rw [(E.ready.map RenamedInst.key).nodup_iff, List.map_cons, List.nodup_cons]
    refine ⟨fun hmem => ?_, H.nodup⟩
    obtain ⟨e, he, hkey⟩ := List.mem_map.mp hmem
    exact E.fresh e he hkey
  · rw [E.flag]
    rcases List.mem_cons.mp (E.ready.mem_iff.mp he) with rfl | he
    · simp
    · simp [H.flag e he]
  · rw [hbuffer]
    rcases List.mem_cons.mp (E.ready.mem_iff.mp he) with rfl | he
    · exact hreplay
    · exact H.apart e he

theorem Flagged.enqueue (H : Flagged q w) (E : Enqueued w ri w') : Flagged q w' := by
  intro e he hflag
  rw [E.flag, Bool.or_eq_true, decide_eq_true_eq] at hflag
  rcases hflag with hkey | hflag
  · exact ⟨ri, E.ready.mem_iff.mpr List.mem_cons_self, hkey.symm⟩
  · obtain ⟨e', he', hkey⟩ := H e he hflag
    exact ⟨e', E.ready.mem_iff.mpr (List.mem_cons_of_mem _ he'), hkey⟩

/-- Nothing joins the queue, the flags stay, and the replay buffer shrinks. -/
theorem ReadyQueue.of_sublist (H : ReadyQueue p w) (hready : w'.readyQueue.Sublist w.readyQueue)
    (hreplay : w'.replayBuffer.Sublist w.replayBuffer)
    (hflag : ∀ k, (w'.info k).inReadyQueue = (w.info k).inReadyQueue) : ReadyQueue p w' where
  nodup := H.nodup.sublist (hready.map _)
  flag e he := (hflag _).trans (H.flag e (hready.subset he))
  apart e he e' he' := H.apart e (hready.subset he) e' (hreplay.subset he')
  speculative hspec := by
    have hnil := H.speculative hspec
    rw [hnil] at hreplay
    exact List.sublist_nil.mp hreplay

/-- The replay that `scheduleReplay` schedules takes the instruction out of the buffer. -/
theorem scheduleReplay_ne (H : ReadyQueue p w) :
    ∀ e ∈ (scheduleReplay p w ri).replayBuffer, e.key ≠ ri.key := by
  intro e he
  unfold scheduleReplay at he
  split at he
  · simpa using (List.mem_filter.mp he).2
  · rename_i hspec
    rw [H.speculative (by simpa using hspec)] at he
    cases he

/-! ## Moves -/

theorem LsuMove.ready_ne_nil {x y : LsuWork × InstTable} (h : LsuMove p sb q Ap Ab Re x y)
    (hready : x.1.readyQueue ≠ []) : y.1.readyQueue ≠ [] := by
  cases h with
  | wake _ _ _ _ _ _ _ hen => exact hen.ne_nil
  | abort _ _ _ hen =>
    show (dropInstFromPipeline p _ _).readyQueue ≠ []
    unfold dropInstFromPipeline
    split
    · exact hen.ne_nil
    · exact hen.ne_nil
  | bounce _ _ hen =>
    rcases hen with ⟨rfl, -⟩ | hen
    · simpa using hready
    · exact hen.ne_nil
  | leave _ _ => simpa using hready
  | append _ _ _ hen => exact hen.ne_nil
  | _ => exact hready

theorem LsuMove.isReadyToIssueInsts {x y : LsuWork × InstTable} (h : LsuMove p sb q Ap Ab Re x y)
    (hready : isReadyToIssueInsts p x.1 = true) : Lsu.isReadyToIssueInsts p y.1 = true :=
  isReadyToIssueInsts_mono h.ready_ne_nil h.replayBuffer.length_le hready

theorem ReadyQueue.move {x y : LsuWork × InstTable} (H : ReadyQueue p x.1)
    (h : LsuMove p sb q Ap Ab Re x y) : ReadyQueue p y.1 := by
  cases h with
  | note hinfo _ _ =>
    exact H.of_sublist (List.Sublist.refl _) (List.Sublist.refl _) fun k => (hinfo k).1
  | wake _ _ _ _ hspec _ _ hen =>
    refine H.enqueue hen fun e he => ?_
    rw [show _ = [] from H.speculative hspec] at he
    cases he
  | request _ _ =>
    exact H.of_sublist (List.Sublist.refl _) (List.Sublist.refl _) fun _ => rfl
  | @translate w T n ri hit _ =>
    refine H.of_sublist (List.Sublist.refl _) (List.Sublist.refl _) fun k => ?_
    by_cases hk : k = ri.key
    · subst hk
      simp [LsuWork.modifyInfo]
    · simp [LsuWork.modifyInfo, hk]
  | @abort w w' T e hmem _ _ hen =>
    -- the load leaves the replay buffer as it joins the queue
    have hsub : ReadyQueue p (w.removeFromReplay e) :=
      H.of_sublist (List.Sublist.refl _) List.filter_sublist fun _ => rfl
    have Hen := hsub.enqueue (hen.removeFromReplay e)
      fun e' he' => by simpa using (List.mem_filter.mp he').2
    rcases dropInstFromPipeline_cases p w' e with heq | ⟨m, heq⟩
    · rw [heq]
      exact Hen
    · rw [heq]
      exact Hen.of_sublist (List.Sublist.refl _) (List.Sublist.refl _) fun _ => rfl
  | @bounce w w' T n ri _ _ hen =>
    have hsub : ReadyQueue p (scheduleReplay p w ri) :=
      H.of_sublist (by rw [scheduleReplay_readyQueue]) scheduleReplay_replayBuffer
        fun k => scheduleReplay_flag k
    have Hen : ReadyQueue p w' := by
      rcases hen with ⟨rfl, -⟩ | hen
      · exact hsub
      · exact hsub.enqueue hen (scheduleReplay_ne H)
    exact Hen.of_sublist (List.Sublist.refl _) (List.Sublist.refl _) fun _ => rfl
  | leave _ _ =>
    exact H.of_sublist (by rw [scheduleReplay_readyQueue]; rfl) scheduleReplay_replayBuffer
      fun k => scheduleReplay_flag k
  | push _ _ => exact H.of_sublist (List.Sublist.refl _) (List.Sublist.refl _) fun _ => rfl
  | unreplay => exact H.of_sublist (List.Sublist.refl _) List.filter_sublist fun _ => rfl
  | replay _ => exact H.of_sublist (List.Sublist.refl _) (List.Sublist.refl _) fun _ => rfl
  | @append w w' T n ri _ hreplay _ hen =>
    have hsub : ReadyQueue p { w with appendReady := w.appendReady.eraseIdx n } :=
      H.of_sublist (List.Sublist.refl _) (List.Sublist.refl _) fun _ => rfl
    refine hsub.enqueue hen fun e he hkey => ?_
    rw [inQueue_iff.mpr ⟨e, he, hkey⟩] at hreplay
    cases hreplay
  | skip => exact H.of_sublist (List.Sublist.refl _) (List.Sublist.refl _) fun _ => rfl

theorem Flagged.of_eq (H : Flagged q w) (hready : w'.readyQueue = w.readyQueue)
    (hflag : ∀ k, (w'.info k).inReadyQueue = (w.info k).inReadyQueue) : Flagged q w' := by
  intro e he h
  rw [hready]
  exact H e he ((hflag _).symm.trans h)

theorem Flagged.move {x y : LsuWork × InstTable} (H : Flagged q' x.1)
    (h : LsuMove p sb q Ap Ab Re x y) : Flagged q' y.1 := by
  cases h with
  | note hinfo _ _ => exact H.of_eq rfl fun k => (hinfo k).1
  | wake _ _ _ _ _ _ _ hen => exact H.enqueue hen
  | request _ _ => exact H
  | @translate w T n ri hit _ =>
    refine H.of_eq rfl fun k => ?_
    by_cases hk : k = ri.key
    · subst hk
      simp [LsuWork.modifyInfo]
    · simp [LsuWork.modifyInfo, hk]
  | @abort w w' T e _ _ _ hen =>
    rcases dropInstFromPipeline_cases p w' e with heq | ⟨m, heq⟩
    · rw [heq]
      exact (Flagged.enqueue (w := w) H hen).of_eq rfl fun _ => rfl
    · rw [heq]
      exact (Flagged.enqueue (w := w) H hen).of_eq rfl fun _ => rfl
  | @bounce w w' T n ri _ _ hen =>
    have hsub : Flagged q' (scheduleReplay p w ri) :=
      H.of_eq scheduleReplay_readyQueue fun k => scheduleReplay_flag k
    rcases hen with ⟨rfl, -⟩ | hen
    · exact hsub
    · exact (hsub.enqueue hen).of_eq rfl fun _ => rfl
  | leave _ _ => exact H.of_eq scheduleReplay_readyQueue fun k => scheduleReplay_flag k
  | @append w w' T n ri _ _ _ hen =>
    have hsub : Flagged q' { w with appendReady := w.appendReady.eraseIdx n } := H
    exact hsub.enqueue hen
  | _ => exact H

/-! ## The other handlers -/

theorem ReadyQueue.check {y : LsuWork × InstTable} (H : ReadyQueue p w)
    (hreplay : T.status ri.key ≠ .scheduled → inQueue q ri = true →
      ∀ e ∈ w.replayBuffer, e.key ≠ ri.key)
    (h : OperandCheck p sb q w T ri y) : ReadyQueue p y.1 := by
  cases h with
  | scheduled _ => exact H
  | address _ _ =>
    exact H.of_sublist (List.Sublist.refl _) (List.Sublist.refl _) fun _ => rfl
  | data _ _ _ => exact H.of_sublist (List.Sublist.refl _) (List.Sublist.refl _) fun _ => rfl
  | ready hst _ _ hin hen => exact H.enqueue hen (hreplay hst hin)
  | blocked _ _ _ _ _ => exact H

theorem Flagged.check {y : LsuWork × InstTable} (H : Flagged q' w)
    (h : OperandCheck p sb q w T ri y) : Flagged q' y.1 := by
  cases h with
  | ready _ _ _ _ hen => exact H.enqueue hen
  | _ => exact H

theorem OperandCheck.isReadyToIssueInsts {y : LsuWork × InstTable}
    (h : OperandCheck p sb q w T ri y) (hready : isReadyToIssueInsts p w = true) :
    Lsu.isReadyToIssueInsts p y.1 = true := by
  cases h with
  | ready _ _ _ _ hen =>
    exact isReadyToIssueInsts_mono (fun _ => hen.ne_nil) (by rw [hen.rest]) hready
  | _ => exact hready

theorem ReadyQueue.issue (H : ReadyQueue p w) (h : Issued p w ri w') : ReadyQueue p w' := by
  have hnodup := H.nodup
  rw [h.ready, List.map_cons] at hnodup
  obtain ⟨hnot, hnodup⟩ := List.nodup_cons.mp hnodup
  have hne : ∀ e ∈ w'.readyQueue, e.key ≠ ri.key := fun e he hkey =>
    hnot (List.mem_map.mpr ⟨e, he, hkey⟩)
  have hmem : ∀ e ∈ w'.readyQueue, e ∈ w.readyQueue := fun e he => by
    rw [h.ready]
    exact List.mem_cons_of_mem _ he
  refine ⟨hnodup, fun e he => ?_, fun e he e' he' => ?_, fun hspec => ?_⟩
  · rw [h.flag, H.flag e (hmem e he)]
    simp [hne e he]
  · rcases h.replay with ⟨-, heq⟩ | ⟨-, heq, -⟩
    · rw [heq] at he'
      exact H.apart e (hmem e he) e' he'
    · rw [heq] at he'
      rcases List.mem_append.mp he' with he' | he'
      · exact H.apart e (hmem e he) e' he'
      · rw [List.mem_singleton.mp he']
        exact fun hkey => hne e he hkey.symm
  · rcases h.replay with ⟨-, heq⟩ | ⟨hspec', -, -⟩
    · rw [heq]
      exact H.speculative hspec
    · rw [hspec] at hspec'
      cases hspec'

theorem Flagged.issue (H : Flagged q w) (h : Issued p w ri w') : Flagged q w' := by
  intro e he hflag
  rw [h.flag, Bool.and_eq_true, decide_eq_true_eq] at hflag
  obtain ⟨e', he', hkey⟩ := H e he hflag.2
  rw [h.ready] at he'
  rcases List.mem_cons.mp he' with rfl | he'
  · exact absurd hkey.symm hflag.1
  · exact ⟨e', he', hkey⟩

/-! ## The assertions -/

/-- The assertions of `arbitrateInstIssue_`, `appendToReplayQueue_` and `appendToReadyQueue_`. -/
def issueAssertions : List Assertion :=
  [.arbitrationFails, .replayOverflow, .replayDuplicate, .ldstNotFound, .alreadyInReadyQueue]

/-- A computation that stops at none of them. -/
abbrev Issues {α : Type} (x : Except Assertion α) : Prop := Run.FailsIn (· ∉ issueAssertions) x

theorem issues_assert {b : Bool} {a : Assertion} (ha : a ∉ issueAssertions) :
    Issues (spartaAssert b a) := spartaAssert_failsIn ha

theorem issues_assert_true {b : Bool} {a : Assertion} (hb : b = true) :
    Issues (spartaAssert b a) := .of_eq_ok (a := ()) (spartaAssert_eq_ok.mpr hb)

theorem appendToReadyQueue_issues (h : ∀ e ∈ w.readyQueue, e.key ≠ ri.key) :
    Issues (appendToReadyQueue w ri) := by
  refine .bind (issues_assert_true ?_) fun _ => .ok _
  rw [Bool.not_eq_true', ← Bool.not_eq_true, inQueue_iff]
  rintro ⟨e, he, hkey⟩
  exact h e he hkey

theorem makeReady_issues (h : ∀ e ∈ w.readyQueue, e.key ≠ ri.key) :
    Issues (makeReady q w T ri) := by
  refine .bind_of_ok (.bind (issues_assert (by decide)) fun _ => .ok _) ?_
  rintro ⟨w₁, T₁⟩ hprio
  obtain ⟨u, hin, hprio⟩ := Run.bind_eq_ok.mp hprio
  obtain ⟨rfl, rfl⟩ := Prod.mk.inj (Except.ok.inj hprio)
  refine .bind (issues_assert_true (spartaAssert_eq_ok.mp hin)) fun _ => ?_
  exact .bind (appendToReadyQueue_issues h) fun _ => .ok _

theorem bounce_issues {n : ℕ} (h : ∀ e ∈ w.readyQueue, (w.info e.key).inReadyQueue = true) :
    Issues (bounce w n ri) := by
  unfold bounce
  dsimp only
  split
  · rename_i hflag
    refine .bind (appendToReadyQueue_issues fun e he hkey => ?_) fun _ => .ok _
    rw [← hkey, h e he] at hflag
    cases hflag
  · exact .ok _

theorem handleOperandIssueCheck_issues (h : T.status ri.key ≠ .scheduled →
    inQueue q ri = true → ∀ e ∈ w.readyQueue, e.key ≠ ri.key) :
    Issues (handleOperandIssueCheck p sb q w T ri) := by
  have hready : T.status ri.key ≠ .scheduled → Issues (makeReady q w T ri) := by
    intro hst
    by_cases hin : inQueue q ri = true
    · exact makeReady_issues (h hst hin)
    · -- the priority of an instruction outside the queue cannot be set
      have hfail : makeReady q w T ri = .error .priorityNotInQueue := by
        simp [makeReady, updateIssuePriorityAfterNewDispatch, spartaAssert, hin, bind,
          Except.bind]
      rw [hfail]
      exact .error (by decide)
  unfold handleOperandIssueCheck
  split
  · exact .ok _
  · rename_i hst
    split
    · exact .ok _
    · split
      · split
        · exact hready hst
        · exact .ok _
      · split
        · exact hready hst
        · exact .ok _

theorem handleMMULookupReq_issues (h : ∀ e ∈ q, T.status e.key = .dispatched →
    ∀ r ∈ w.readyQueue, r.key ≠ e.key) : Issues (handleMMULookupReq p sb q w T) := by
  have hloads : Issues (readyDependentLoads sb q w T) := by
    refine Run.FailsIn.foldlM_of_invariant (I := fun l x => (∀ e ∈ l, e ∈ q) ∧
      ∀ e ∈ q, x.2.status e.key = .dispatched → ∀ r ∈ x.1.readyQueue, r.key ≠ e.key) ?_ ?_
      ⟨fun _ he => he, h⟩
    · rintro e l ⟨w₁, T₁⟩ ⟨hl, hne⟩
      unfold readyDependentLoad
      split
      · rename_i hcond
        simp only [Bool.and_eq_true, beq_iff_eq] at hcond
        exact makeReady_issues (hne e (hl e List.mem_cons_self) hcond.1.2)
      · exact .ok _
    · rintro e l ⟨w₁, T₁⟩ ⟨w₂, T₂⟩ ⟨hl, hne⟩ hone
      refine ⟨fun e' he' => hl e' (List.mem_cons_of_mem _ he'), ?_⟩
      unfold readyDependentLoad at hone
      split at hone
      · obtain ⟨-, hen, rfl⟩ := makeReady_spec hone
        intro e' he' hst r hr
        have hkey : e'.key ≠ e.key := by
          intro hkey
          simp [InstTable.setStatus, hkey] at hst
        rcases List.mem_cons.mp (hen.ready.mem_iff.mp hr) with rfl | hr
        · exact hkey.symm
        · exact hne e' he' (by simpa [InstTable.setStatus, hkey] using hst) r hr
      · obtain ⟨rfl, rfl⟩ := Prod.mk.inj (Except.ok.inj hone)
        exact hne
  unfold handleMMULookupReq
  split
  · exact .ok _
  · split
    · exact .ok _
    · dsimp only
      split
      · exact hloads.bind fun _ => .ok _
      · exact .ok _

theorem abortYoungerLoads_issues (hnodup : (w.replayBuffer.map RenamedInst.key).Nodup)
    (h : ∀ r ∈ w.readyQueue, ∀ e ∈ w.replayBuffer, e.key ≠ r.key) :
    Issues (abortYoungerLoads p w ri) := by
  rw [abortYoungerLoads_eq]
  have hsub := abortedLoads_sublist w ri
  refine Run.FailsIn.foldlM_of_invariant (I := fun l w₁ => (l.map RenamedInst.key).Nodup ∧
    ∀ r ∈ w₁.readyQueue, ∀ e ∈ l, e.key ≠ r.key) ?_ ?_
    ⟨hnodup.sublist (hsub.map _), fun r hr e he => h r hr e (hsub.subset he)⟩
  · rintro e l w₁ ⟨-, hne⟩
    refine .bind (appendToReadyQueue_issues fun r hr hkey => ?_) fun _ => .ok _
    exact hne r hr e List.mem_cons_self hkey.symm
  · rintro e l w₁ w₂ ⟨hl, hne⟩ hone
    rw [List.map_cons] at hl
    obtain ⟨hnot, hl⟩ := List.nodup_cons.mp hl
    obtain ⟨w₃, hw₃, hone⟩ := Run.bind_eq_ok.mp hone
    obtain rfl := Except.ok.inj hone
    refine ⟨hl, fun r hr e' he' => ?_⟩
    have hr : r ∈ w₃.readyQueue := by
      have hr : r ∈ (dropInstFromPipeline p w₃ e).readyQueue := hr
      unfold dropInstFromPipeline at hr
      split at hr
      · exact hr
      · exact hr
    rcases List.mem_cons.mp ((appendToReadyQueue_spec hw₃).ready.mem_iff.mp hr) with rfl | hr
    · exact fun hkey => hnot (List.mem_map.mpr ⟨e', he', hkey⟩)
    · exact hne r hr e' (List.mem_cons_of_mem _ he')

theorem handleCacheLookupReq_issues {storeBuffer : List RenamedInst} (H : ReadyQueue p w) :
    Issues (handleCacheLookupReq p q storeBuffer w T) := by
  unfold handleCacheLookupReq
  split
  · exact .ok _
  · dsimp only
    split
    · refine (bounce_issues fun e he => ?_).bind fun _ => .ok _
      rw [scheduleReplay_flag]
      exact H.flag e (by simpa using he)
    · split_ifs
      all_goals exact .ok _

theorem handleCacheRead_issues (H : ReadyQueue p w) : Issues (handleCacheRead p w) := by
  unfold handleCacheRead
  split
  · exact .ok _
  · split_ifs
    · refine bounce_issues fun e he => ?_
      rw [scheduleReplay_flag]
      exact H.flag e (by simpa using he)
    · exact .ok _
    · exact .ok _

theorem issueInst_issues (H : ReadyQueue p w) (hready : isReadyToIssueInsts p w = true) :
    Issues (Lsu.issueInst p w) := by
  obtain ⟨hroom, hne⟩ := isReadyToIssueInsts_iff.mp hready
  unfold Lsu.issueInst
  split
  · rename_i hnil
    exact absurd hnil hne
  · rename_i ri rest hcons
    refine .bind (issues_assert (by decide)) fun _ => ?_
    dsimp only
    split
    · rename_i hspec
      refine .bind ?_ fun _ => .ok _
      refine .bind (issues_assert_true (decide_eq_true (hroom hspec))) fun _ => ?_
      refine .bind (issues_assert_true ?_) fun _ => .ok _
      rw [Bool.not_eq_true', ← Bool.not_eq_true, inQueue_iff]
      rintro ⟨e, he, hkey⟩
      refine H.apart ri ?_ e he hkey
      rw [hcons]
      exact List.mem_cons_self
    · exact .ok _

theorem completeInst_issues {s : LsuState} : Issues (completeInst p s T sb) := by
  have hfinish : ∀ T sb ri, Issues (finish p s T sb ri) := by
    intro T sb ri
    refine .bind ?_ fun _ => .ok _
    unfold popIssueQueue
    split
    · exact .ok _
    · exact .error (by decide)
  unfold completeInst
  split
  · exact .ok _
  · dsimp only
    split
    · exact .ok _
    · refine .bind ?_ fun sb' => ?_
      · unfold writeback
        split
        · exact .ok _
        · exact .ok _
        · exact .error (by decide)
      · split
        · refine .bind (issues_assert (by decide)) fun _ => ?_
          split
          · exact .ok _
          · exact hfinish _ _ _
        · split
          · exact .bind (issues_assert (by decide)) fun _ => .ok _
          · refine .bind (issues_assert (by decide)) fun _ => ?_
            split
            · exact .ok _
            · exact hfinish _ _ _

end Lsu

/-! ## The issue event -/

open Lsu

namespace LsuSystem

variable {p : LsuParams} {s s' : LsuSystem} {op : LsuSystemOp}

structure Issue (p : LsuParams) (s : LsuSystem) : Prop where
  ready : ReadyQueue p s.work
  now : s.issueNow = true → isReadyToIssueInsts p s.work = true
  next : s.issueNext = true → isReadyToIssueInsts p s.work = true ∧ .issueInst ∈ s.done

namespace Issue

theorem init : Issue p ({} : LsuSystem) where
  ready := ⟨List.nodup_nil, fun _ h => (by cases h), fun _ h => (by cases h), fun _ => rfl⟩
  now h := by cases h
  next h := by cases h

/-- A step that does not issue. -/
theorem of_grows (H : Issue p s) (hready : ReadyQueue p s'.work)
    (hgrows : isReadyToIssueInsts p s.work = true → isReadyToIssueInsts p s'.work = true)
    (hnow : s'.issueNow = true → s.issueNow = true ∨ isReadyToIssueInsts p s'.work = true)
    (hnext : s'.issueNext = true → s.issueNext = true) (hdone : ∀ e ∈ s.done, e ∈ s'.done) :
    Issue p s' where
  ready := hready
  now h := (hnow h).elim (fun h => hgrows (H.now h)) id
  next h := ⟨hgrows (H.next (hnext h)).1, hdone _ (H.next (hnext h)).2⟩

/-- No load that is ready to be made ready is in the replay buffer. -/
theorem replay_ne (Hs : Inv s) {ri : RenamedInst} (hmem : ri ∈ s.dispatched)
    (hst : s.table.status ri.key = .dispatched) : ∀ e ∈ s.work.replayBuffer, e.key ≠ ri.key := by
  intro e he hkey
  obtain ⟨hD, hne, -⟩ := Hs.holding.present e (.inr (.inl he))
  obtain rfl := eq_of_key Hs.keys hD hmem hkey
  exact hne hst

theorem step (Hs : Inv s) (H : Issue p s) (h : s.step p op = .ok s') : Issue p s' := by
  cases step_stepped h with
  | @dispatch ri stale i w T hphase hnext hcheck hi =>
    have hfresh : ∀ e ∈ s.dispatched, e.key ≠ ri.key := fun e he =>
      (of_decide_eq_true (List.all_eq_true.mp hnext e he)).2
    have Harr : ReadyQueue p (s.work.modifyInfo ri.key fun _ => { inReadyQueue := stale }) := by
      refine ⟨H.ready.nodup, fun e he => ?_, H.ready.apart, H.ready.speculative⟩
      have hkey := hfresh e (Hs.holding.present e (.inl he)).1
      simp only [LsuWork.modifyInfo, Function.update_of_ne hkey]
      exact H.ready.flag e he
    refine H.of_grows (Harr.check (fun _ _ e he => ?_) hcheck)
      (fun hready => hcheck.isReadyToIssueInsts hready) hi id fun e he => he
    exact hfresh e (Hs.holding.present e (.inr (.inl he))).1
  | retire _ _ _ => exact H.of_grows H.ready id .inl id fun e he => he
  | @robAck ri rest buffer i f hphase hacks hin hf hi =>
    refine H.of_grows (H.ready.of_sublist (List.Sublist.refl _) (List.Sublist.refl _) fun k => ?_)
      id hi id fun e he => he
    exact (Noted.modifyInfo s.work ri.key hf k).1
  | flush hphase hretired hi hj =>
    refine ⟨H.ready.of_sublist List.filter_sublist List.filter_sublist fun _ => rfl,
      fun h => hi (.inl h), fun h => ⟨hi (.inr h), ?_⟩⟩
    exact (H.next (hj h)).2
  | setBits => exact H.of_grows H.ready id .inl id fun e he => he
  | clearBits _ => exact H.of_grows H.ready id .inl id fun e he => he
  | lookupInst _ _ =>
    exact H.of_grows (H.ready.of_sublist (List.Sublist.refl _) (List.Sublist.refl _) fun _ => rfl)
      id .inl id fun e he => he
  | @mmuReady ri rest w i hphase hreloads hready hi =>
    have Hp : ReadyQueue p { s.work with mmuPending := some ri } :=
      H.ready.of_sublist (List.Sublist.refl _) (List.Sublist.refl _) fun _ => rfl
    have hmoves : Relation.ReflTransGen
        (LsuMove p s.sb s.queue (fun _ _ => True) (fun _ _ => True) True)
        ({ s.work with mmuPending := some ri }, s.table) (w, s.table) :=
      Hs.mmuReady_moves hreloads hready
    have Hw : ReadyQueue p w :=
      LsuMove.invariant (I := fun x => ReadyQueue p x.1) ReadyQueue.move Hp hmoves
    refine H.of_grows
      (Hw.of_sublist (List.Sublist.refl _) (List.Sublist.refl _) fun _ => rfl)
      (fun hready => ?_) hi id fun e he => he
    exact LsuMove.invariant (I := fun x => isReadyToIssueInsts p x.1 = true)
      (fun h hmove => hmove.isReadyToIssueInsts h) hready hmoves
  | issueInst hcan hnow hissue hj =>
    -- the event has not run before in this cycle, so nothing has scheduled it for the next one
    have hidle : s.issueNext = true → False := fun h =>
      (of_decide_eq_true hcan).2 (H.next h).2
    exact ⟨H.ready.issue (issueInst_issued hissue), fun h => (by cases h), fun h =>
      ⟨(hj h).resolve_left hidle, by simp⟩⟩
  | addressCalculation hcan hi =>
    exact H.of_grows H.ready id hi id fun e he => List.mem_append_left _ he
  | @complete out i hcan hout hi =>
    obtain ⟨hwork, hreplay⟩ := completeInst_work hout
    have hgrows : isReadyToIssueInsts p s.work = true →
        isReadyToIssueInsts p out.state.work = true :=
      isReadyToIssueInsts_mono (by rw [hwork]; exact id) hreplay.length_le
    have Hout : ReadyQueue p out.state.work := by
      refine H.ready.of_sublist ?_ hreplay fun k => ?_
      · rw [hwork]
        exact List.Sublist.refl _
      · rw [hwork]
        rfl
    exact H.of_grows Hout hgrows (fun h => (hi h).imp id hgrows) id
      fun e he => List.mem_append_left _ he
  | @callback n cb w T i hcb hdue hcheck hi =>
    have hmem := List.mem_of_getElem? hcb
    obtain ⟨hknown, -, hwait⟩ := Hs.holding.waits cb hmem
    have Hcb : ReadyQueue p { s.work with callbacks := s.work.callbacks.eraseIdx n } :=
      H.ready.of_sublist (List.Sublist.refl _) (List.Sublist.refl _) fun _ => rfl
    refine H.of_grows (Hcb.check (fun hst hin => ?_) hcheck)
      (fun hready => hcheck.isReadyToIssueInsts hready) hi id fun e he => he
    refine replay_ne Hs hknown ?_
    rcases hwait with hfl | ⟨-, hdisp | ⟨hsched, -⟩⟩
    · obtain ⟨e, he, hkey⟩ := inQueue_iff.mp hin
      obtain rfl := eq_of_key Hs.keys (Hs.mem_dispatched he) hknown hkey
      exact absurd hfl (Hs.holding.not_flushed he)
    · exact hdisp
    · exact absurd hsched hst
  | @work op w T i hen hcallback hwork hi =>
    have hmoves := Hs.any_moves hen hcallback hwork
    refine H.of_grows
      (LsuMove.invariant (I := fun x => ReadyQueue p x.1) ReadyQueue.move H.ready hmoves)
      (fun hready => ?_) hi id fun e he => List.mem_append_left _ he
    exact LsuMove.invariant (I := fun x => isReadyToIssueInsts p x.1 = true)
      (fun h hmove => hmove.isReadyToIssueInsts h) hready hmoves
  | tick hphase => exact H.of_grows H.ready id .inl id fun e he => he
  | nextCycle hover =>
    exact ⟨H.ready.of_sublist (List.Sublist.refl _) (List.Sublist.refl _) fun _ => rfl,
      fun h => (H.next h).1, fun h => (by cases h)⟩

end Issue

/-- The flags of the instructions in the LSU, when a new object starts with the flag cleared. -/
theorem flagged_step (Hs : Inv s) (H : Flagged s.queue s.work)
    (hnew : ∀ ri stale, op = .dispatch ri stale → stale = false) (h : s.step p op = .ok s') :
    Flagged s'.queue s'.work := by
  cases step_stepped h with
  | @dispatch ri stale i w T hphase hnext hcheck hi =>
    obtain rfl := hnew ri stale rfl
    have hfresh : ∀ e ∈ s.dispatched, e.key ≠ ri.key := fun e he =>
      (of_decide_eq_true (List.all_eq_true.mp hnext e he)).2
    have Harr : Flagged (s.queue ++ [ri])
        (s.work.modifyInfo ri.key fun _ => { inReadyQueue := false }) := by
      intro e he hflag
      rcases List.mem_append.mp he with he | he
      · have hkey := hfresh e (Hs.mem_dispatched he)
        simp only [LsuWork.modifyInfo, Function.update_of_ne hkey] at hflag
        exact H e he hflag
      · rw [List.mem_singleton.mp he] at hflag
        simp [LsuWork.modifyInfo] at hflag
    exact Harr.check hcheck
  | retire _ _ _ => exact H
  | @robAck ri rest buffer i f hphase hacks hin hf hi =>
    exact H.of_eq rfl fun k => (Noted.modifyInfo s.work ri.key hf k).1
  | @flush c i j hphase hretired hi hj =>
    intro e he hflag
    obtain ⟨he, hkept⟩ := List.mem_filter.mp he
    obtain ⟨e', he', hkey⟩ := H e he hflag
    have hD := (Hs.holding.present e' (.inl he')).1
    obtain rfl := eq_of_key Hs.keys hD (Hs.mem_dispatched he) hkey
    exact ⟨e', List.mem_filter.mpr ⟨he', hkept⟩, rfl⟩
  | setBits => exact H
  | clearBits _ => exact H
  | lookupInst _ _ => exact H.of_eq rfl fun _ => rfl
  | @mmuReady ri rest w i hphase hreloads hready hi =>
    have Hp : Flagged s.queue { s.work with mmuPending := some ri } := H
    have hmoves : Relation.ReflTransGen
        (LsuMove p s.sb s.queue (fun _ _ => True) (fun _ _ => True) True)
        ({ s.work with mmuPending := some ri }, s.table) (w, s.table) :=
      Hs.mmuReady_moves hreloads hready
    exact LsuMove.invariant (I := fun x => Flagged s.queue x.1) Flagged.move Hp hmoves
  | issueInst _ _ hissue _ => exact H.issue (issueInst_issued hissue)
  | addressCalculation _ _ => exact H
  | @complete out i hcan hout hi =>
    obtain ⟨hwork, -⟩ := completeInst_work hout
    have hsub := (Hs.complete hout).2.1
    have Hout : Flagged s.queue out.state.work :=
      H.of_eq (by rw [hwork]; rfl) fun k => by rw [hwork]; rfl
    exact fun e he => Hout e (hsub.subset he)
  | @callback n cb w T i hcb hdue hcheck hi =>
    have Hcb : Flagged s.queue { s.work with callbacks := s.work.callbacks.eraseIdx n } := H
    exact Hcb.check hcheck
  | @work op w T i hen hcallback hwork hi =>
    have hmoves := Hs.any_moves hen hcallback hwork
    exact LsuMove.invariant (I := fun x => Flagged s.queue x.1) Flagged.move H hmoves
  | tick _ => exact H
  | nextCycle _ => exact H

/-- A handler that picks an outstanding payload. -/
theorem outstanding_issues {α β : Type} {x : Option α} {g : α → Except Assertion β}
    (hg : ∀ a, Issues (g a)) :
    Run.FailsIn (Stop.In (· ∉ issueAssertions)) (outstanding (x.map g)) := by
  refine outstanding_failsIn fun y hy => ?_
  obtain ⟨a, -, rfl⟩ := Option.map_eq_some_iff.mp hy
  exact hg a

theorem work_issues (Hs : Inv s) (H : ReadyQueue p s.work) (op : LsuOp) :
    Run.FailsIn (Stop.In (· ∉ issueAssertions)) (workStep p s.lsu s.table s.sb op) := by
  -- what is in the ready queue has been scheduled
  have hdisp : ∀ e ∈ s.dispatched, s.table.status e.key = .dispatched →
      ∀ r ∈ s.work.readyQueue, r.key ≠ e.key := by
    intro e he hst r hr hkey
    obtain ⟨hD, hne, -⟩ := Hs.holding.present r (.inl hr)
    exact hne (by rw [hkey]; exact hst)
  cases op with
  | callback n =>
    refine outstanding_failsIn fun y hy => ?_
    unfold readyCallback at hy
    split at hy
    · cases hy
    · rename_i cb hcb
      split at hy
      · obtain rfl := Option.some.inj hy
        obtain ⟨hknown, -, hwait⟩ := Hs.holding.waits cb (List.mem_of_getElem? hcb)
        refine handleOperandIssueCheck_issues fun hst hin => hdisp _ hknown ?_
        rcases hwait with hfl | ⟨-, h | ⟨hsched, -⟩⟩
        · obtain ⟨e, he, hkey⟩ := inQueue_iff.mp hin
          obtain rfl := eq_of_key Hs.keys (Hs.mem_dispatched he) hknown hkey
          exact absurd hfl (Hs.holding.not_flushed he)
        · exact h
        · exact absurd hsched hst
      · cases hy
  | advance => exact .ok _
  | mmuLookup =>
    exact checked_failsIn (handleMMULookupReq_issues fun e he => hdisp e (Hs.mem_dispatched he))
  | mmuAck n hit =>
    refine .bind (outstanding_issues fun ri => ?_) fun _ => .ok _
    exact .ite (abortYoungerLoads_issues Hs.holding.replay H.apart) (.ok _)
  | mmuReady =>
    refine .bind (outstanding_issues fun ri => ?_) fun _ => .ok _
    exact .bind (issues_assert (by decide)) fun _ => .ite (.ok _) (.ok _)
  | cacheLookup => exact checked_failsIn (handleCacheLookupReq_issues H)
  | cacheAck n cs => exact .bind (outstanding_issues fun w => .ok w) fun _ => .ok _
  | cacheReady n =>
    refine .bind (outstanding_issues fun ri => ?_) fun _ => .ok _
    exact .ite (.ok _) (.bind (issues_assert (by decide)) fun _ => .ok _)
  | cacheRead => exact .bind (checked_failsIn (handleCacheRead_issues H)) fun _ => .ok _
  | replayReady n => exact .bind (outstanding_issues fun w => .ok w) fun _ => .ok _
  | appendReady n =>
    refine .bind (outstanding_issues fun ri => ?_) fun _ => .ok _
    dsimp only
    split
    · rename_i hcond
      simp only [Bool.and_eq_true, Bool.not_eq_true'] at hcond
      refine appendToReadyQueue_issues fun e he hkey => ?_
      have hflag : (s.lsu.work.info e.key).inReadyQueue = true := H.flag e he
      rw [← hkey, hflag] at hcond
      cases hcond.1
    · exact .ok _

/-- No step stops at an assertion of the issue queues. -/
theorem step_issues (Hs : Inv s) (H : Issue p s) (op : LsuSystemOp) :
    Run.FailsIn (Stop.In (· ∉ issueAssertions)) (s.step p op) := by
  cases op with
  | dispatch ri stale =>
    unfold LsuSystem.step
    by_cases hnext : s.isNext ri = true
    · refine .bind (enabled_failsIn _) fun _ => ?_
      refine .bind (checked_failsIn ?_) fun _ => .ok _
      refine .bind (issues_assert (by decide)) fun _ => ?_
      refine .bind (issues_assert (by decide)) fun _ => ?_
      refine .bind (handleOperandIssueCheck_issues fun _ _ e he => ?_) fun _ => .ok _
      have hD := (Hs.holding.present e (.inl he)).1
      exact (of_decide_eq_true (List.all_eq_true.mp hnext e hD)).2
    · simp only [hnext, Bool.and_false]
      exact .error trivial
  | retire n =>
    unfold LsuSystem.step
    dsimp only
    split
    · exact .error trivial
    · exact .bind (enabled_failsIn _) fun _ => .ok _
  | robAck =>
    refine .bind (enabled_failsIn _) fun _ => ?_
    split
    · exact .error trivial
    · refine .bind (checked_failsIn ?_) fun _ => .ok _
      refine .bind (issues_assert (by decide)) fun _ => ?_
      refine .bind (issues_assert (by decide)) fun _ => ?_
      exact .bind (issues_assert (by decide)) fun _ => .ok _
  | flush c => exact .bind (enabled_failsIn _) fun _ => .ok _
  | setBits f mask => exact .ok _
  | clearBits f mask => exact .bind (enabled_failsIn _) fun _ => .ok _
  | lookupInst =>
    refine .bind (enabled_failsIn _) fun _ => ?_
    split
    · exact .error trivial
    · exact .ok _
  | mmuReady =>
    refine .bind (enabled_failsIn _) fun _ => ?_
    split
    · exact .error trivial
    · refine .bind (outstanding_issues fun ri => ?_) fun _ => .ok _
      exact .bind (issues_assert (by decide)) fun _ => .ite (.ok _) (.ok _)
  | issueInst =>
    unfold LsuSystem.step
    by_cases hnow : s.issueNow = true
    · refine .bind (enabled_failsIn _) fun _ => ?_
      exact .bind (checked_failsIn (issueInst_issues H.ready (H.now hnow))) fun _ => .ok _
    · simp only [hnow, Bool.and_false, Bool.false_and]
      exact .error trivial
  | addressCalculation => exact .bind (enabled_failsIn _) fun _ => .ok _
  | complete =>
    refine .bind (enabled_failsIn _) fun _ => ?_
    exact .bind (checked_failsIn completeInst_issues) fun _ => .ok _
  | work op =>
    refine .bind (enabled_failsIn _) fun _ => ?_
    exact .bind (work_issues Hs H.ready op) fun _ => .ok _
  | tick => exact .bind (enabled_failsIn _) fun _ => .ok _
  | nextCycle => exact .bind (enabled_failsIn _) fun _ => .ok _

theorem Issue.reachable (h : Run.Reachable (LsuSystem.step p) {} s) : Issue p s := by
  have H : Inv s ∧ Issue p s := by
    refine h.invariant (I := fun s => Inv s ∧ Issue p s) ⟨Inv.init, Issue.init⟩ ?_
    rintro op s s' ⟨Hs, H⟩ hstep
    exact ⟨Hs.step hstep, H.step Hs hstep⟩
  exact H.2

/-- When the issue event runs it finds an instruction that it may issue, and the flag tells which
instructions are in the ready queue, in every run in which new objects start with the flag
cleared. -/
theorem issue_event_finds_inst {l : List LsuSystemOp}
    (hnew : ∀ t ri stale, Run.Takes (step p) {} l t (.dispatch ri stale) → stale = false)
    (hs : Run.Visits (step p) {} l s) :
    (s.issueNow = true → ∃ winner rest, s.work.readyQueue = winner :: rest ∧
      (p.allowSpeculativeLoadExec = true → s.work.replayBuffer.length < p.replayBufferSize ∧
        ∀ e ∈ s.work.replayBuffer, e.key ≠ winner.key)) ∧
      (s.work.readyQueue.map RenamedInst.key).Nodup ∧
      (∀ ri ∈ s.queue, (s.work.info ri.key).inReadyQueue = true ↔ ri ∈ s.work.readyQueue) ∧
      ∀ op, Run.FailsIn (Stop.In (· ∉ issueAssertions)) (s.step p op) := by
  have Hs := Inv.reachable hs.reachable
  have H := Issue.reachable hs.reachable
  have Hflag : Flagged s.queue s.work := by
    have Hboth : Inv s ∧ Flagged s.queue s.work := by
      refine hs.invariant (I := fun s => Inv s ∧ Flagged s.queue s.work)
        ⟨Inv.init, fun _ h => by cases h⟩ ?_
      rintro op s s' ⟨Hs, H⟩ htakes hstep
      refine ⟨Hs.step hstep, flagged_step Hs H ?_ hstep⟩
      rintro ri stale rfl
      exact hnew s ri stale htakes
    exact Hboth.2
  refine ⟨fun hnow => ?_, H.ready.nodup, fun ri hri => ⟨fun hflag => ?_, H.ready.flag ri⟩,
    step_issues Hs H⟩
  · obtain ⟨hroom, hne⟩ := isReadyToIssueInsts_iff.mp (H.now hnow)
    obtain ⟨winner, rest, hcons⟩ := List.exists_cons_of_ne_nil hne
    refine ⟨winner, rest, hcons, fun hspec => ⟨hroom hspec, H.ready.apart winner ?_⟩⟩
    rw [hcons]
    exact List.mem_cons_self
  · obtain ⟨e, he, hkey⟩ := Hflag ri hri hflag
    have hD := (Hs.holding.present e (.inl he)).1
    obtain rfl := eq_of_key Hs.keys hD (Hs.mem_dispatched hri) hkey
    exact he

/-- A load that is ready when it arrives. -/
theorem issue_event_finds_inst_in_run :
    ∃ s, Run.Reachable (step {}) {} s ∧ s.issueNow = true ∧
      ∃ winner rest, s.work.readyQueue = winner :: rest := by
  obtain ⟨s, hs, hnow⟩ := Run.ok_of_eval
    (x := [LsuSystemOp.dispatch (sampleLoad 1 2 64) false].foldlM (step {}) {})
    (f := issueNow) (b := true) rfl
  have hall : Run.along (step {}) (fun _ op =>
      match op with
      | .dispatch _ stale => !stale
      | _ => true) {} [LsuSystemOp.dispatch (sampleLoad 1 2 64) false] = true := by decide +kernel
  have hfinds := issue_event_finds_inst (p := {})
    (fun t ri stale htakes => by simpa using Run.Takes.of_along hall htakes) (.last hs)
  obtain ⟨winner, rest, hcons, -⟩ := hfinds.1 hnow
  exact ⟨s, ⟨_, hs⟩, hnow, winner, rest, hcons⟩

/-- A load that waits for its address in an object whose flag is left over from another one. -/
theorem stale_flag : ∃ s, Run.Reachable (step {}) {} s ∧ ∃ ri ∈ s.queue,
    (s.work.info ri.key).inReadyQueue = true ∧ ri ∉ s.work.readyQueue := by
  obtain ⟨s, hs, heq⟩ := Run.ok_of_eval
    (x := [LsuSystemOp.clearBits .integer {2},
      .dispatch (sampleLoad 1 2 64) true].foldlM (step {}) {})
    (f := fun s => (s.queue, s.work.readyQueue, (s.work.info (1, 0)).inReadyQueue))
    (b := ([sampleLoad 1 2 64], [], true)) rfl
  obtain ⟨hqueue, heq⟩ := Prod.mk.inj heq
  obtain ⟨hready, hflag⟩ := Prod.mk.inj heq
  refine ⟨s, ⟨_, hs⟩, sampleLoad 1 2 64, ?_, hflag, ?_⟩
  · rw [hqueue]
    exact List.mem_cons_self
  · rw [hready]
    exact List.not_mem_nil

end LsuSystem

end Olympia
