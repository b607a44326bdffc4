import Mathlib.Algebra.Order.Group.Multiset
import Olympia.Execute.IssueQueue

/-!
# Issued once

One issue queue in an arbitrary environment: Dispatch sends it instructions, each once and for a
credit, the scoreboards and the pipes may change in any way between its handlers, and a flush may
have any criterion.  The state also records what has arrived, what has been passed to a pipe and
what a flush has removed.

An entry of the ready queue and a callback are both a promise to issue the instruction
(`IssueQueueState.pending`).  `handleOperandIssueCheck` registers one callback for every register
file with a source that is not ready, and each of them runs the whole check again; so an
instruction has one promise only if no check finds two such files.
-/

namespace Olympia

/-- What will be issued unless it is flushed: what waits for a callback, and what is ready. -/
def IssueQueueState.pending (s : IssueQueueState) : List RenamedInst :=
  s.callbacks.map Prod.snd ++ s.readyQueue

namespace IssueQueue

variable {p : IssueQueueParams} {pe : PipeId → ExecutePipeParams} {sb : Scoreboards}
  {s s' : IssueQueueState} {ri : RenamedInst}

theorem insertReady_perm (p : IssueQueueParams) (rq : List RenamedInst) (ri : RenamedInst) :
    (insertReady p rq ri).Perm (ri :: rq) := by
  unfold insertReady
  split
  · exact List.perm_append_singleton ri rq
  · refine List.perm_middle.trans (List.Perm.cons ri ?_)
    rw [List.takeWhile_append_dropWhile]

/-- A check that finds at most one file with a source that is not ready makes one promise. -/
theorem pending_handleOperandIssueCheck (p : IssueQueueParams) (s : IssueQueueState)
    (h : (filesNotReady sb ri).length ≤ 1) :
    (handleOperandIssueCheck p sb s ri).pending.Perm (ri :: s.pending) := by
  unfold handleOperandIssueCheck IssueQueueState.pending
  split
  · exact ((insertReady_perm p s.readyQueue ri).append_left _).trans List.perm_middle
  · rename_i hne
    obtain ⟨f, hf⟩ := List.length_eq_one_iff.mp
      (le_antisymm h (List.length_pos_iff.mpr hne))
    simp only [hf, List.map_append, List.map_cons, List.map_nil, List.append_assoc]
    exact List.perm_middle

/-- A callback that fires takes its promise back before the check makes a new one. -/
theorem pending_eraseIdx {n : ℕ} {f : RegFile} (h : s.callbacks[n]? = some (f, ri)) :
    (ri :: { s with callbacks := s.callbacks.eraseIdx n }.pending).Perm s.pending := by
  obtain ⟨hlt, hget⟩ := List.getElem?_eq_some_iff.mp h
  have hperm := (List.getElem_cons_eraseIdx_perm hlt).map Prod.snd
  rw [hget, List.map_cons] at hperm
  exact hperm.append_right s.readyQueue

theorem readyCallback_cases {n : ℕ} (h : readyCallback p sb s n = some s') :
    ∃ f ri, s.callbacks[n]? = some (f, ri) ∧
      s' = handleOperandIssueCheck p sb { s with callbacks := s.callbacks.eraseIdx n } ri := by
  unfold readyCallback at h
  split at h
  · cases h
  · rename_i f ri hn
    split at h
    · exact ⟨f, ri, hn, (Option.some.inj h).symm⟩
    · cases h

/-- An iteration of the loop of `sendReadyInsts_` passes the instruction to a free pipe, or finds
no pipe for it free. -/
theorem sendOne_cases {st st' : SendState} (h : sendOne p pe st ri = .ok st') :
    (∃ e pipe T q, e ∈ p.exePipes ri.inst.pipe ∧
      ExecutePipe.canAccept (st.pipes e) = true ∧ pipe.unitBusy = true ∧
      pipe.completeInst = (st.pipes e).completeInst ∧ popIssueQueue st.issueQueue ri = .ok q ∧
      st' = { st with
        issueQueue := q
        pipes := Function.update st.pipes e pipe
        table := T
        issued := st.issued ++ [(e, ri)] }) ∨
    ((∀ e ∈ p.exePipes ri.inst.pipe, ExecutePipe.canAccept (st.pipes e) = false) ∧
      st' = { st with kept := st.kept ++ [ri] }) := by
  unfold sendOne at h
  split at h
  · rename_i e hfind
    obtain ⟨⟨pipe, T⟩, hins, h⟩ := Run.bind_eq_ok.mp h
    obtain ⟨q, hq, h⟩ := Run.bind_eq_ok.mp h
    obtain ⟨hbusy, -, -, hcomplete, -⟩ := ExecutePipe.insertInst_spec hins
    have hfree : ExecutePipe.canAccept (st.pipes e) = true :=
      List.find?_some (p := fun e => ExecutePipe.canAccept (st.pipes e)) hfind
    exact .inl ⟨e, pipe, T, q, List.mem_of_find?_eq_some hfind, hfree, hbusy, hcomplete, hq,
      (Except.ok.inj h).symm⟩
  · rename_i hfind
    refine .inr ⟨fun e he => ?_, (Except.ok.inj h).symm⟩
    simpa using List.find?_eq_none.mp hfind e he

/-- The assertions of `insertInst` are its own. -/
theorem insertInst_failsIn (q : ExecutePipeParams) (e : ExecutePipeState) (T : InstTable)
    (ri : RenamedInst) :
    Run.FailsIn (fun a => a ≠ .notInIssueQueue ∧ a ≠ .readyQueueTooLarge)
      (ExecutePipe.insertInst q e T ri) := by
  unfold ExecutePipe.insertInst
  refine .bind (spartaAssert_failsIn ⟨by decide, by decide⟩) fun _ => ?_
  refine .bind ?_ fun _ => .bind (spartaAssert_failsIn ⟨by decide, by decide⟩) fun _ => .ok _
  unfold ExecutePipe.countPasses
  split
  · split
    · exact .ite (.ok _) (.ok _)
    · exact .bind (spartaAssert_failsIn ⟨by decide, by decide⟩) fun _ => .ok _
  · exact .ok _

/-- Of a ready queue without duplicates whose entries are all in the issue queue, some are passed
to pipes and leave both queues. -/
structure Issues (s : IssueQueueState) (rest : List RenamedInst) (st : SendState) : Prop where
  queue : (st.issued.map Prod.snd ++ st.issueQueue).Perm s.issueQueue
  ready : (st.issued.map Prod.snd ++ st.kept ++ rest).Perm s.readyQueue

namespace Issues

variable {rest : List RenamedInst} {st st' : SendState}

/-- What is not yet issued is still in the issue queue. -/
theorem mem_queue (D : Issues s rest st) (hnodup : (s.readyQueue.map RenamedInst.key).Nodup)
    (hqueued : ∀ r ∈ s.readyQueue, r ∈ s.issueQueue) {r : RenamedInst}
    (hr : r ∈ st.kept ++ rest) : r ∈ st.issueQueue := by
  have hmem : r ∈ st.issued.map Prod.snd ++ st.issueQueue := by
    apply D.queue.mem_iff.mpr
    apply hqueued
    apply D.ready.mem_iff.mp
    rw [List.append_assoc]
    exact List.mem_append_right _ hr
  rcases List.mem_append.mp hmem with hissued | hmem
  · have hkeys := (D.ready.map RenamedInst.key).nodup_iff.mpr hnodup
    rw [List.append_assoc, List.map_append, List.nodup_append] at hkeys
    exact absurd rfl (hkeys.2.2 _ (List.mem_map_of_mem hissued) _ (List.mem_map_of_mem hr))
  · exact hmem

theorem sendOne (D : Issues s (ri :: rest) st)
    (hsame : ∀ e ∈ s.issueQueue, e.key = ri.key → e = ri)
    (h : IssueQueue.sendOne p pe st ri = .ok st') : Issues s rest st' := by
  rcases sendOne_cases h with ⟨e, pipe, T, q, -, -, -, -, hq, rfl⟩ | ⟨-, rfl⟩
  · obtain ⟨e', he', hkey, hperm⟩ := popIssueQueue_spec hq
    -- the entry that leaves the queue is the one that was ready
    obtain rfl := hsame e' (D.queue.mem_iff.mp (List.mem_append_right _ he')) hkey
    constructor
    · simp only [List.map_append, List.map_cons, List.map_nil, List.append_assoc,
        List.singleton_append]
      exact (hperm.append_left _).trans D.queue
    · refine List.Perm.trans ?_ D.ready
      simp only [List.map_append, List.map_cons, List.map_nil, List.append_assoc,
        List.singleton_append]
      exact List.Perm.append_left _ List.perm_middle.symm
  · exact ⟨D.queue, by simpa [List.append_assoc] using D.ready⟩

end Issues

/-- The keys of the issue queue tell its entries apart, and the ready queue holds some of them,
each once. -/
structure Distinct (s : IssueQueueState) : Prop where
  queue : (s.issueQueue.map RenamedInst.key).Nodup
  ready : (s.readyQueue.map RenamedInst.key).Nodup
  queued : ∀ ri ∈ s.readyQueue, ri ∈ s.issueQueue

namespace Distinct

theorem same (D : Distinct s) (hri : ri ∈ s.readyQueue) {e : RenamedInst} (he : e ∈ s.issueQueue)
    (hkey : e.key = ri.key) : e = ri :=
  List.inj_on_of_nodup_map D.queue he (D.queued ri hri) hkey

theorem length_le (D : Distinct s) : s.readyQueue.length ≤ s.issueQueue.length := by
  have hsub := List.subperm_of_subset D.ready.of_map fun ri hri => D.queued ri hri
  exact hsub.length_le

theorem issues_start (pipes : PipeId → ExecutePipeState) (T : InstTable) :
    Issues s s.readyQueue { issueQueue := s.issueQueue, pipes := pipes, table := T } :=
  ⟨.refl _, .refl _⟩

theorem mem_of_issues {rest : List RenamedInst} {st : SendState} (D : Issues s rest st)
    {r : RenamedInst} (hr : r ∈ rest) : r ∈ s.readyQueue :=
  D.ready.mem_iff.mp (List.mem_append_right _ hr)

theorem sendReadyInsts (D : Distinct s) {pipes : PipeId → ExecutePipeState} {T : InstTable}
    {st : SendState} (h : IssueQueue.sendReadyInsts p pe s pipes T = .ok (s', st)) :
    Issues s [] st ∧ s' = { s with issueQueue := st.issueQueue, readyQueue := st.kept } := by
  obtain ⟨-, -, h⟩ := Run.bind_eq_ok.mp h
  obtain ⟨st', hloop, h⟩ := Run.bind_eq_ok.mp h
  obtain ⟨rfl, rfl⟩ := Prod.mk.inj (Except.ok.inj h)
  refine ⟨?_, rfl⟩
  refine Run.foldlM_ok_induct (I := Issues s) ?_ (issues_start pipes T) hloop
  intro ri rest st₁ st₂ I hone
  exact I.sendOne (fun e he => D.same (mem_of_issues I List.mem_cons_self) he) hone

/-- No instruction is missing from the issue queue when it is passed to a pipe. -/
theorem sendReadyInsts_failsIn (D : Distinct s) (pe : PipeId → ExecutePipeParams)
    (hroom : s.issueQueue.length ≤ p.schedulerSize) (pipes : PipeId → ExecutePipeState)
    (T : InstTable) :
    Run.FailsIn (fun a => a ≠ .notInIssueQueue ∧ a ≠ .readyQueueTooLarge)
      (IssueQueue.sendReadyInsts p pe s pipes T) := by
  unfold IssueQueue.sendReadyInsts
  apply Run.FailsIn.bind
  · intro a ha
    obtain ⟨hfull, -⟩ := spartaAssert_eq_error.mp ha
    exact absurd (D.length_le.trans hroom) (by simpa using hfull)
  intro _
  apply Run.FailsIn.bind
  · refine Run.FailsIn.foldlM_of_invariant (I := Issues s) ?_ ?_ (issues_start pipes T)
    · intro ri rest st I
      have hmem := I.mem_queue D.ready D.queued
        (List.mem_append_right st.kept (List.mem_cons_self (a := ri) (l := rest)))
      unfold IssueQueue.sendOne
      split
      · apply Run.FailsIn.bind
        · exact insertInst_failsIn _ _ _ _
        intro r
        apply Run.FailsIn.bind
        · unfold popIssueQueue
          rw [if_pos (List.any_eq_true.mpr ⟨ri, hmem, by simp⟩)]
          exact .ok _
        exact fun q => .ok _
      · exact .ok _
    · intro ri rest st₁ st₂ I hone
      exact I.sendOne (fun e he => D.same (mem_of_issues I List.mem_cons_self) he) hone
  · exact fun st => .ok _

end Distinct

end IssueQueue

/-! ## The system -/

/-- An issue queue, what it sees of the other units, and what has happened to the instructions
that it was sent. -/
structure IssueSystem where
  queue : IssueQueueState := {}
  pipes : PipeId → ExecutePipeState := fun _ => {}
  table : InstTable
  sb : Scoreboards
  arrived : List RenamedInst := []
  issued : List (PipeId × RenamedInst) := []
  flushed : List RenamedInst := []

inductive IssueOp where
  /-- an instruction that was not sent before arrives, for a credit -/
  | arrive (ri : RenamedInst)
  /-- the other units move on -/
  | environment (pipes : PipeId → ExecutePipeState) (T : InstTable) (sb : Scoreboards)
  | callback (n : ℕ)
  | sendReadyInsts
  | flush (c : FlushingCriteria)

namespace IssueSystem

def step (p : IssueQueueParams) (pe : PipeId → ExecutePipeParams) (s : IssueSystem) :
    IssueOp → Except Stop IssueSystem
  | .arrive ri => do
    enabled (ri.key ∉ s.arrived.map RenamedInst.key ∧
      s.queue.issueQueue.length < p.schedulerSize)
    let queue ← checked (IssueQueue.receiveInstsFromDispatch p s.sb s.table s.queue ri)
    return { s with queue := queue, arrived := s.arrived ++ [ri] }
  | .environment pipes T sb => .ok { s with pipes := pipes, table := T, sb := sb }
  | .callback n =>
    match IssueQueue.readyCallback p s.sb s.queue n with
    | none => .error .disabled
    | some queue => .ok { s with queue := queue }
  | .sendReadyInsts => do
    let (queue, st) ← checked (IssueQueue.sendReadyInsts p pe s.queue s.pipes s.table)
    return { s with
      queue := queue
      pipes := st.pipes
      table := st.table
      issued := s.issued ++ st.issued }
  | .flush c => .ok { s with
      queue := (IssueQueue.flushInst s.queue c).1
      flushed := s.flushed ++ s.queue.issueQueue.filter fun ri => c.includedInFlush ri.inst }

/-- The instruction whose operands a step checks. -/
def checks (s : IssueSystem) : IssueOp → Option RenamedInst
  | .arrive ri => some ri
  | .callback n => s.queue.callbacks[n]?.map Prod.snd
  | _ => none

/-- Every instruction that arrived waits in the issue queue, was passed to a pipe or was flushed;
what waits has one promise at most. -/
structure Promised (p : IssueQueueParams) (s : IssueSystem) : Prop where
  arrived : (s.arrived.map RenamedInst.key).Nodup
  accounted : (s.arrived : Multiset RenamedInst) =
    s.queue.issueQueue + s.issued.map Prod.snd + s.flushed
  pending : (s.queue.pending.map RenamedInst.key).Nodup
  queued : ∀ ri ∈ s.queue.pending, ri ∈ s.queue.issueQueue
  room : s.queue.issueQueue.length ≤ p.schedulerSize

namespace Promised

variable {p : IssueQueueParams} {pe : PipeId → ExecutePipeParams} {s s' : IssueSystem}

theorem mem_arrived (H : Promised p s) {ri : RenamedInst} (hri : ri ∈ s.queue.issueQueue) :
    ri ∈ s.arrived := by
  have hmem : ri ∈ (s.arrived : Multiset RenamedInst) := by
    rw [H.accounted, Multiset.mem_add, Multiset.mem_add]
    exact .inl (.inl (Multiset.mem_coe.mpr hri))
  exact Multiset.mem_coe.mp hmem

/-- The instructions that have arrived, by where they are now. -/
theorem perm_arrived (H : Promised p s) :
    (s.queue.issueQueue ++ (s.issued.map Prod.snd ++ s.flushed)).Perm s.arrived := by
  rw [← Multiset.coe_eq_coe, H.accounted, ← Multiset.coe_add, ← Multiset.coe_add, add_assoc]

theorem keys_nodup (H : Promised p s) :
    ((s.queue.issueQueue ++ (s.issued.map Prod.snd ++ s.flushed)).map RenamedInst.key).Nodup :=
  (H.perm_arrived.map RenamedInst.key).nodup_iff.mpr H.arrived

theorem distinct (H : Promised p s) : IssueQueue.Distinct s.queue := by
  have hall := H.keys_nodup
  have hpending := H.pending
  rw [List.map_append, List.nodup_append] at hall
  rw [IssueQueueState.pending, List.map_append, List.nodup_append] at hpending
  exact ⟨hall.1, hpending.2.1, fun ri hri => H.queued ri (List.mem_append_right _ hri)⟩

theorem init (p : IssueQueueParams) (T : InstTable) (sb : Scoreboards) :
    Promised p { table := T, sb := sb } where
  arrived := by simp
  accounted := rfl
  pending := by simp [IssueQueueState.pending]
  queued := by simp [IssueQueueState.pending]
  room := Nat.zero_le _

/-- What has not arrived is not in the issue queue. -/
theorem not_mem_of_fresh (H : Promised p s) {ri : RenamedInst}
    (hri : ri.key ∉ s.arrived.map RenamedInst.key) :
    ri.key ∉ s.queue.pending.map RenamedInst.key := by
  intro hmem
  obtain ⟨rj, hrj, hkey⟩ := List.mem_map.mp hmem
  apply hri
  rw [← hkey]
  exact List.mem_map_of_mem (H.mem_arrived (H.queued rj hrj))

theorem arrive {ri : RenamedInst} (H : Promised p s)
    (hone : (IssueQueue.filesNotReady s.sb ri).length ≤ 1)
    (hstep : s.step p pe (.arrive ri) = .ok s') : Promised p s' := by
  obtain ⟨u, hen, hstep⟩ := Run.bind_eq_ok.mp hstep
  obtain ⟨hfresh, hroom⟩ := of_decide_eq_true (enabled_eq_ok.mp hen)
  obtain ⟨queue, hqueue, hstep⟩ := Run.bind_eq_ok.mp hstep
  obtain rfl := Except.ok.inj hstep
  obtain ⟨-, -, hqueue⟩ := Run.bind_eq_ok.mp (checked_eq_ok.mp hqueue)
  obtain ⟨-, -, hqueue⟩ := Run.bind_eq_ok.mp hqueue
  obtain rfl := Except.ok.inj hqueue
  have hperm := IssueQueue.pending_handleOperandIssueCheck p
    { s.queue with issueQueue := s.queue.issueQueue ++ [ri] } hone
  constructor
  · dsimp only
    rw [List.map_append, List.map_singleton, ← List.concat_eq_append, List.nodup_concat]
    exact ⟨hfresh, H.arrived⟩
  · rw [IssueQueue.handleOperandIssueCheck_issueQueue, ← Multiset.coe_add, H.accounted,
      ← Multiset.coe_add]
    ac_rfl
  · rw [(hperm.map RenamedInst.key).nodup_iff, List.map_cons, List.nodup_cons]
    exact ⟨H.not_mem_of_fresh hfresh, H.pending⟩
  · intro rj hrj
    rw [IssueQueue.handleOperandIssueCheck_issueQueue]
    rcases List.mem_cons.mp (hperm.mem_iff.mp hrj) with rfl | hrj
    · exact List.mem_append_right _ List.mem_cons_self
    · exact List.mem_append_left _ (H.queued rj hrj)
  · rw [IssueQueue.handleOperandIssueCheck_issueQueue, List.length_append, List.length_singleton]
    exact hroom

theorem callback {n : ℕ} (H : Promised p s)
    (hone : ∀ ri ∈ s.checks (.callback n), (IssueQueue.filesNotReady s.sb ri).length ≤ 1)
    (hstep : s.step p pe (.callback n) = .ok s') : Promised p s' := by
  simp only [step] at hstep
  split at hstep
  · cases hstep
  · rename_i queue hcb
    obtain rfl := Except.ok.inj hstep
    obtain ⟨f, ri, hn, rfl⟩ := IssueQueue.readyCallback_cases hcb
    have hri := hone ri (by simp [checks, hn])
    have hperm := (IssueQueue.pending_handleOperandIssueCheck p _ hri).trans
      (IssueQueue.pending_eraseIdx hn)
    refine ⟨H.arrived, ?_, ?_, ?_, ?_⟩
    · rw [IssueQueue.handleOperandIssueCheck_issueQueue]
      exact H.accounted
    · rw [(hperm.map RenamedInst.key).nodup_iff]
      exact H.pending
    · intro rj hrj
      rw [IssueQueue.handleOperandIssueCheck_issueQueue]
      exact H.queued rj (hperm.mem_iff.mp hrj)
    · rw [IssueQueue.handleOperandIssueCheck_issueQueue]
      exact H.room

theorem sendReadyInsts (H : Promised p s) (hstep : s.step p pe .sendReadyInsts = .ok s') :
    Promised p s' := by
  obtain ⟨⟨queue, st⟩, hsend, hstep⟩ := Run.bind_eq_ok.mp hstep
  obtain rfl := Except.ok.inj hstep
  obtain ⟨I, rfl⟩ := H.distinct.sendReadyInsts (checked_eq_ok.mp hsend)
  have hready := I.ready
  rw [List.append_nil] at hready
  -- what is passed to a pipe takes its promise with it
  have hpending : (st.issued.map Prod.snd ++
      (s.queue.callbacks.map Prod.snd ++ st.kept)).Perm s.queue.pending := by
    refine List.Perm.trans ?_ (hready.append_left _)
    rw [← List.append_assoc, ← List.append_assoc]
    exact List.perm_append_comm.append_right _
  have hnodup := H.pending
  rw [← (hpending.map RenamedInst.key).nodup_iff, List.map_append, List.nodup_append] at hnodup
  refine ⟨H.arrived, ?_, hnodup.2.1, ?_, ?_⟩
  · have hqueue := Multiset.coe_eq_coe.mpr I.queue
    rw [← Multiset.coe_add] at hqueue
    rw [H.accounted, ← hqueue, List.map_append, ← Multiset.coe_add]
    ac_rfl
  · intro ri hri
    have hmem : ri ∈ st.issued.map Prod.snd ++ st.issueQueue := by
      apply I.queue.mem_iff.mpr
      apply H.queued
      exact hpending.mem_iff.mp (List.mem_append_right _ hri)
    rcases List.mem_append.mp hmem with hissued | hmem
    · exact absurd rfl (hnodup.2.2 _ (List.mem_map_of_mem hissued) _ (List.mem_map_of_mem hri))
    · exact hmem
  · have hlen := I.queue.length_eq
    rw [List.length_append] at hlen
    have hroom := H.room
    dsimp only
    omega

theorem flush {c : FlushingCriteria} (H : Promised p s)
    (hstep : s.step p pe (.flush c) = .ok s') : Promised p s' := by
  obtain rfl := Except.ok.inj hstep
  have hsub : (IssueQueue.flushInst s.queue c).1.pending.Sublist s.queue.pending :=
    (List.filter_sublist.map _).append List.filter_sublist
  refine ⟨H.arrived, ?_, H.pending.sublist (hsub.map _), ?_, ?_⟩
  · have hsplit := Multiset.coe_eq_coe.mpr (List.filter_append_perm
      (fun ri : RenamedInst => c.includedInFlush ri.inst) s.queue.issueQueue)
    rw [← Multiset.coe_add] at hsplit
    rw [H.accounted, ← hsplit, ← Multiset.coe_add]
    dsimp only [IssueQueue.flushInst]
    ac_rfl
  · intro ri hri
    have hqueue := H.queued ri (hsub.subset hri)
    refine List.mem_filter.mpr ⟨hqueue, ?_⟩
    rcases List.mem_append.mp hri with hri | hri
    · -- the callbacks of what is flushed have been cleared
      obtain ⟨cb, hcb, rfl⟩ := List.mem_map.mp hri
      obtain ⟨-, hclear⟩ := List.mem_filter.mp hcb
      by_contra hinc
      have hflushed : cb.2 ∈ s.queue.issueQueue.filter fun ri => c.includedInFlush ri.inst :=
        List.mem_filter.mpr ⟨hqueue, by simpa using hinc⟩
      rw [Bool.not_eq_true', List.any_eq_false] at hclear
      exact hclear cb.2 hflushed (by simp)
    · exact (List.mem_filter.mp hri).2
  · exact (List.length_filter_le _ _).trans H.room

/-- Every step keeps the promises, if its check makes one at most. -/
theorem step {op : IssueOp} (H : Promised p s)
    (hone : ∀ ri ∈ s.checks op, (IssueQueue.filesNotReady s.sb ri).length ≤ 1)
    (hstep : s.step p pe op = .ok s') : Promised p s' := by
  cases op with
  | arrive ri => exact H.arrive (hone ri rfl) hstep
  | environment pipes T sb =>
    obtain rfl := Except.ok.inj hstep
    exact ⟨H.arrived, H.accounted, H.pending, H.queued, H.room⟩
  | callback n => exact H.callback hone hstep
  | sendReadyInsts => exact H.sendReadyInsts hstep
  | flush c => exact H.flush hstep

end Promised

/-- An instruction is in the ready queue once, and then also in the issue queue; it is passed to
a pipe once, and the assertions about this hold. -/
structure IssuesOnce (p : IssueQueueParams) (pe : PipeId → ExecutePipeParams) (s : IssueSystem) :
    Prop where
  ready : (s.queue.readyQueue.map RenamedInst.key).Nodup
  queued : ∀ ri ∈ s.queue.readyQueue, ri ∈ s.queue.issueQueue
  issued : (s.issued.map fun x => x.2.key).Nodup
  /-- what has arrived waits in the issue queue, or has been issued, or has been flushed -/
  arrived : (s.queue.issueQueue ++ (s.issued.map Prod.snd ++ s.flushed)).Perm s.arrived
  distinct : (s.arrived.map RenamedInst.key).Nodup
  asserts : ∀ a, s.step p pe .sendReadyInsts = .error (.assertion a) →
    a ≠ .notInIssueQueue ∧ a ≠ .readyQueueTooLarge

theorem Promised.issuesOnce {p : IssueQueueParams} {s : IssueSystem} (H : Promised p s)
    (pe : PipeId → ExecutePipeParams) : IssuesOnce p pe s where
  ready := H.distinct.ready
  queued := H.distinct.queued
  issued := by
    have hkeys := H.keys_nodup
    rw [List.map_append, List.nodup_append, List.map_append, List.nodup_append,
      List.map_map] at hkeys
    exact hkeys.2.1.1
  arrived := H.perm_arrived
  distinct := H.arrived
  asserts a ha := by
    have hfails := checked_failsIn (H.distinct.sendReadyInsts_failsIn pe H.room s.pipes s.table)
    exact (hfails.bind fun _ => .ok _) _ ha

end IssueSystem

/-- If no check finds sources that are not ready in two register files, no instruction is issued
twice. -/
theorem no_instruction_issued_twice (p : IssueQueueParams) (pe : PipeId → ExecutePipeParams)
    (T : InstTable) (sb : Scoreboards) {ops : List IssueOp} {s : IssueSystem}
    (hrun : ops.foldlM (IssueSystem.step p pe) { table := T, sb := sb } = .ok s)
    (hone : ∀ t op, Run.Takes (IssueSystem.step p pe) { table := T, sb := sb } ops t op →
      ∀ ri ∈ t.checks op, (IssueQueue.filesNotReady t.sb ri).length ≤ 1) :
    s.IssuesOnce p pe := by
  have H : s.Promised p := by
    refine (Run.Visits.last hrun).invariant (I := IssueSystem.Promised p) (.init p T sb) ?_
    intro op t t' H htakes hstep
    exact H.step (hone t op htakes) hstep
  exact H.issuesOnce pe

/-! ## Two runs -/

/-- `vadd.vx v2, v1, x5`, renamed: it reads a vector and an integer register. -/
def vectorScalarAdd : RenamedInst where
  inst := { uniqueId := 1, pipe := .vint, isVector := true }
  src := [⟨40, ⟨1, .rs2, .vector⟩, 0⟩, ⟨45, ⟨5, .rs1, .integer⟩, 0⟩]
  srcMask
    | .vector => {40}
    | .integer => {45}
    | .float => ∅

/-- An issue queue with one pipe for vector instructions. -/
def vectorQueue : IssueQueueParams where
  exePipes pipe := if pipe = .vint then [0] else []

def justDispatched : InstTable := ⟨fun _ => .dispatched, fun _ => false⟩

def allReady : Scoreboards := fun _ _ => true

def integerReady : Scoreboards := fun f _ => decide (f = .integer)

/-- The instruction arrives, its sources become ready, and it is issued. -/
def oneCallbackOps : List IssueOp :=
  [.arrive vectorScalarAdd, .environment (fun _ => {}) justDispatched allReady, .callback 0,
   .sendReadyInsts]

theorem no_instruction_issued_twice_sample :
    ∃ s, oneCallbackOps.foldlM (IssueSystem.step vectorQueue fun _ => {})
        { table := justDispatched, sb := integerReady } = .ok s ∧ s.issued.length = 1 ∧
      s.IssuesOnce vectorQueue fun _ => {} := by
  have hall : Run.along (IssueSystem.step vectorQueue fun _ => {})
      (fun s op => (s.checks op).all fun ri =>
        decide ((IssueQueue.filesNotReady s.sb ri).length ≤ 1))
      { table := justDispatched, sb := integerReady } oneCallbackOps = true := by
    decide +kernel
  have heval : (oneCallbackOps.foldlM (IssueSystem.step vectorQueue fun _ => {})
      { table := justDispatched, sb := integerReady }).toOption.map
      (fun s => s.issued.length) = some 1 := by
    decide +kernel
  obtain ⟨s, hs, hval⟩ := Run.ok_of_eval heval
  refine ⟨s, hs, hval, no_instruction_issued_twice _ _ _ _ hs ?_⟩
  intro t op htakes ri hri
  have htest := Run.Takes.of_along hall htakes
  rw [hri, Option.all_some] at htest
  exact of_decide_eq_true htest

/-- Neither source is ready when the instruction arrives. -/
def twoCallbacksOps : List IssueOp :=
  [.arrive vectorScalarAdd, .environment (fun _ => {}) justDispatched allReady, .callback 0,
   .callback 0]

/-- The assertion that `sendReadyInsts_` stops at. -/
def sendStops (s : IssueSystem) : Option Assertion :=
  match s.step vectorQueue (fun _ => {}) .sendReadyInsts with
  | .error (.assertion a) => some a
  | _ => none

/-- Both callbacks put the instruction into the ready queue; when it has been issued and the pipe
is free again, the assertion of `popIssueQueue_` fails. -/
theorem ready_twice_after_two_callbacks :
    ∃ s t, twoCallbacksOps.foldlM (IssueSystem.step vectorQueue fun _ => {})
        { table := justDispatched, sb := fun _ _ => false } = .ok s ∧
      ¬(s.queue.readyQueue.map RenamedInst.key).Nodup ∧
      [IssueOp.sendReadyInsts, .environment (fun _ => {}) justDispatched allReady].foldlM
        (IssueSystem.step vectorQueue fun _ => {}) s = .ok t ∧
      ¬(∀ ri ∈ t.queue.readyQueue, ri ∈ t.queue.issueQueue) ∧
      t.step vectorQueue (fun _ => {}) .sendReadyInsts = .error (.assertion .notInIssueQueue) := by
  have heval : (twoCallbacksOps.foldlM (IssueSystem.step vectorQueue fun _ => {})
      { table := justDispatched, sb := fun _ _ => false }).toOption.map (fun s =>
        (s.queue.readyQueue.map RenamedInst.key,
          ([IssueOp.sendReadyInsts, .environment (fun _ => {}) justDispatched allReady].foldlM
            (IssueSystem.step vectorQueue fun _ => {}) s).toOption.map fun t =>
              (t.queue.readyQueue.length, t.queue.issueQueue.length, sendStops t)))
      = some ([(1, 0), (1, 0)], some (1, 0, some .notInIssueQueue)) := by
    decide +kernel
  obtain ⟨s, hs, hval⟩ := Run.ok_of_eval heval
  obtain ⟨hready, hval⟩ := Prod.mk.inj hval
  obtain ⟨t, ht, hval⟩ := Run.ok_of_eval hval
  obtain ⟨hkept, hval⟩ := Prod.mk.inj hval
  obtain ⟨hgone, hstops⟩ := Prod.mk.inj hval
  refine ⟨s, t, hs, ?_, ht, fun h => ?_, ?_⟩
  · rw [hready]
    decide
  · obtain ⟨ri, hri⟩ := List.exists_mem_of_length_pos (hkept ▸ Nat.one_pos)
    have hmem := h ri hri
    rw [List.eq_nil_of_length_eq_zero hgone] at hmem
    cases hmem
  · unfold sendStops at hstops
    split at hstops
    · rename_i a ha
      rw [ha, Option.some.inj hstops]
    · cases hstops

end Olympia
