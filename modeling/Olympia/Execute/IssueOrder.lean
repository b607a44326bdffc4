import Olympia.Lib.StableQueue
import Olympia.IssueEvent

/-!
# The order of issue

The two orders of the ready queue, for an issue queue in an arbitrary environment (`IssueSystem`).
A run carries the instructions that became ready as its history (`IssueSystem.readied`): those for
which an operand check found all sources ready.

Without `in_order_issue` the ready queue is sorted by unique identifier, and a session gives a pipe
to the oldest instruction that can use it.  With `in_order_issue` it is first-in first-out, so the
instructions for one target pipe are issued in the order in which they became ready.
-/

namespace Olympia

namespace IssueQueue

variable {p : IssueQueueParams} {pe : PipeId → ExecutePipeParams} {s s' : IssueQueueState}
  {pipes : PipeId → ExecutePipeState} {T : InstTable}

theorem insertReady_of_inOrder (hp : p.inOrderIssue = true) (rq : List RenamedInst)
    (ri : RenamedInst) : insertReady p rq ri = rq ++ [ri] := by
  unfold insertReady
  rw [if_pos hp]

theorem insertReady_of_byAge (hp : p.inOrderIssue = false) (rq : List RenamedInst)
    (ri : RenamedInst) :
    insertReady p rq ri = StableQueue.insertStable RenamedInst.uniqueId rq ri := by
  unfold insertReady
  rw [if_neg (by simp [hp])]
  rfl

/-! ## A session -/

section Session

variable {R : RenamedInst → RenamedInst → Prop}

/-- The loop of `sendReadyInsts_` over a ready queue in an order, with the rest still to come: no
pipe that a kept instruction could have used was given to a later one. -/
structure GivenInOrder (p : IssueQueueParams) (R : RenamedInst → RenamedInst → Prop)
    (rest : List RenamedInst) (st : SendState) : Prop where
  before : ∀ x ∈ st.issued, ∀ ri ∈ rest, R x.2 ri
  given : ∀ ri ∈ st.kept, ∀ x ∈ st.issued, x.1 ∈ p.exePipes ri.inst.pipe → R x.2 ri

theorem GivenInOrder.sendOne {rest : List RenamedInst} {ri : RenamedInst} {st st' : SendState}
    (O : GivenInOrder p R (ri :: rest) st) (F : Filled p pipes st)
    (hfirst : ∀ rj ∈ rest, R ri rj) (h : IssueQueue.sendOne p pe st ri = .ok st') :
    GivenInOrder p R rest st' := by
  rcases sendOne_cases h with ⟨e, pipe, T, q, -, hfree, -, -, -, rfl⟩ | ⟨-, rfl⟩
  · constructor
    · intro x hx rj hrj
      rcases List.mem_append.mp hx with hx | hx
      · exact O.before x hx rj (List.mem_cons_of_mem _ hrj)
      · rw [List.mem_singleton.mp hx]
        exact hfirst rj hrj
    · intro rj hrj x hx huse
      rcases List.mem_append.mp hx with hx | hx
      · exact O.given rj hrj x hx huse
      · -- the pipe was free, so none of the kept instructions could have used it
        rw [List.mem_singleton.mp hx] at huse
        exact absurd ((F.kept rj hrj e huse).symm.trans hfree) Bool.false_ne_true
  · constructor
    · exact fun x hx rj hrj => O.before x hx rj (List.mem_cons_of_mem _ hrj)
    · intro rj hrj x hx huse
      rcases List.mem_append.mp hrj with hrj | hrj
      · exact O.given rj hrj x hx huse
      · rw [List.mem_singleton.mp hrj]
        exact O.before x hx ri List.mem_cons_self

/-- The instructions for one target pipe. -/
def forPipe (t : TargetPipe) (l : List RenamedInst) : List RenamedInst :=
  l.filter fun ri => decide (ri.inst.pipe = t)

@[simp] theorem forPipe_nil (t : TargetPipe) : forPipe t [] = [] := rfl

@[simp] theorem forPipe_append (t : TargetPipe) (l₁ l₂ : List RenamedInst) :
    forPipe t (l₁ ++ l₂) = forPipe t l₁ ++ forPipe t l₂ := List.filter_append _ _

theorem forPipe_eq_nil {t : TargetPipe} {l : List RenamedInst} :
    forPipe t l = [] ↔ ∀ ri ∈ l, ri.inst.pipe ≠ t := by
  simp [forPipe]

/-- The loop takes the instructions for each target pipe in turn: those it has issued, those it
has kept and those still to come are together the ready queue. -/
structure InTurn (q rest : List RenamedInst) (st : SendState) : Prop where
  perm : (st.issued.map Prod.snd ++ st.kept ++ rest).Perm q
  parts : ∀ t, forPipe t (st.issued.map Prod.snd) ++ forPipe t st.kept ++ forPipe t rest =
    forPipe t q
  kept : (st.kept ++ rest).Sublist q

theorem InTurn.sendOne {q rest : List RenamedInst} {ri : RenamedInst} {st st' : SendState}
    (I : InTurn q (ri :: rest) st) (F : Filled p pipes st)
    (h : IssueQueue.sendOne p pe st ri = .ok st') : InTurn q rest st' := by
  have hrest : ∀ t, forPipe t (ri :: rest) = forPipe t [ri] ++ forPipe t rest := fun t => by
    rw [← forPipe_append, List.singleton_append]
  rcases sendOne_cases h with ⟨e, pipe, T, q', he, hfree, -, -, -, rfl⟩ | ⟨-, rfl⟩
  · constructor
    · refine List.Perm.trans ?_ I.perm
      simp only [List.map_append, List.map_cons, List.map_nil, List.append_assoc,
        List.singleton_append]
      exact List.Perm.append_left _ List.perm_middle.symm
    · intro t
      have hparts := I.parts t
      rw [hrest] at hparts
      rw [List.map_append, forPipe_append, ← hparts]
      by_cases ht : ri.inst.pipe = t
      · -- a pipe for it was free, so none for the same target pipe was kept
        have hnone : forPipe t st.kept = [] := by
          rw [forPipe_eq_nil]
          intro rj hrj htj
          have hfull := F.kept rj hrj e (by rw [htj, ← ht]; exact he)
          rw [hfree] at hfull
          cases hfull
        simp [hnone]
      · have hnot : forPipe t [ri] = [] := by
          rw [forPipe_eq_nil]
          intro rj hrj
          rw [List.mem_singleton.mp hrj]
          exact ht
        simp [hnot]
    · exact ((List.sublist_cons_self ri rest).append_left st.kept).trans I.kept
  · constructor
    · simpa [List.append_assoc] using I.perm
    · intro t
      have hparts := I.parts t
      rw [hrest] at hparts
      rw [← hparts]
      simp
    · simpa [List.append_assoc] using I.kept

theorem filled_start : Filled p pipes { issueQueue := s.issueQueue, pipes := pipes, table := T } :=
  ⟨fun _ hri => absurd hri List.not_mem_nil, fun _ => .inl rfl, fun _ => rfl⟩

theorem sendReadyInsts_loop {st : SendState} (h : sendReadyInsts p pe s pipes T = .ok (s', st)) :
    s.readyQueue.foldlM (sendOne p pe)
      { issueQueue := s.issueQueue, pipes := pipes, table := T } = .ok st ∧
    s'.readyQueue = st.kept := by
  obtain ⟨-, -, h⟩ := Run.bind_eq_ok.mp h
  obtain ⟨st', hloop, h⟩ := Run.bind_eq_ok.mp h
  obtain ⟨rfl, rfl⟩ := Prod.mk.inj (Except.ok.inj h)
  exact ⟨hloop, rfl⟩

theorem sendReadyInsts_inTurn {st : SendState}
    (h : sendReadyInsts p pe s pipes T = .ok (s', st)) : InTurn s.readyQueue [] st := by
  refine (Run.foldlM_ok_induct (I := fun rest st => Filled p pipes st ∧ InTurn s.readyQueue rest st)
    ?_ ⟨filled_start, ?_⟩ (sendReadyInsts_loop h).1).2
  · rintro ri rest st₁ st₂ ⟨F, I⟩ hone
    exact ⟨F.sendOne hone, I.sendOne F hone⟩
  · exact ⟨.refl _, fun _ => rfl, .refl _⟩

/-- What a session has done with a ready queue in the order `R`: it has issued some instructions
and has kept the others, for which every pipe is busy; a pipe that one of these could have used
was given to an instruction before it. -/
structure IssuedInOrder (p : IssueQueueParams) (R : RenamedInst → RenamedInst → Prop)
    (s s' : IssueQueueState) (st : SendState) : Prop where
  sent : (st.issued.map Prod.snd ++ s'.readyQueue).Perm s.readyQueue
  busy : ∀ ri ∈ s'.readyQueue, ∀ e ∈ p.exePipes ri.inst.pipe,
    ExecutePipe.canAccept (st.pipes e) = false
  given : ∀ ri ∈ s'.readyQueue, ∀ x ∈ st.issued, x.1 ∈ p.exePipes ri.inst.pipe → R x.2 ri

theorem sendReadyInsts_inOrder {st : SendState} (hR : s.readyQueue.Pairwise R)
    (h : sendReadyInsts p pe s pipes T = .ok (s', st)) : IssuedInOrder p R s s' st := by
  obtain ⟨hloop, hkept⟩ := sendReadyInsts_loop h
  have hperm := (sendReadyInsts_inTurn h).perm
  have hend := Run.foldlM_ok_induct
    (I := fun rest st => rest.Pairwise R ∧ Filled p pipes st ∧ GivenInOrder p R rest st) ?_
    ⟨hR, filled_start, ?_⟩ hloop
  · obtain ⟨-, F, O⟩ := hend
    rw [List.append_nil, ← hkept] at hperm
    exact ⟨hperm, hkept ▸ F.kept, hkept ▸ O.given⟩
  · rintro ri rest st₁ st₂ ⟨hR, F, O⟩ hone
    obtain ⟨hfirst, hrest⟩ := List.pairwise_cons.mp hR
    exact ⟨hrest, F.sendOne hone, O.sendOne F hfirst hone⟩
  · exact ⟨fun _ hx => absurd hx List.not_mem_nil, fun _ hri => absurd hri List.not_mem_nil⟩

end Session

end IssueQueue

/-! ## Runs -/

namespace IssueSystem

variable {p : IssueQueueParams} {pe : PipeId → ExecutePipeParams} {s s' : IssueSystem}
  {log : List RenamedInst}

/-- The instruction for which a step finds all sources ready. -/
def readied (s : IssueSystem) (op : IssueOp) : List RenamedInst :=
  (s.checks op).toList.filter fun ri => decide (IssueQueue.filesNotReady s.sb ri = [])

/-- What a step does to the ready queue: an instruction that became ready is inserted, a flush
removes some, and a session issues some. -/
inductive Moves (p : IssueQueueParams) (pe : PipeId → ExecutePipeParams) (s : IssueSystem)
    (op : IssueOp) (s' : IssueSystem) : Prop where
  | insert (hissued : s'.issued = s.issued)
      (hready : s'.queue.readyQueue =
        (s.readied op).foldl (IssueQueue.insertReady p) s.queue.readyQueue)
  | flush (hnone : s.readied op = []) (hissued : s'.issued = s.issued)
      (hready : s'.queue.readyQueue.Sublist s.queue.readyQueue)
  | session (hnone : s.readied op = []) {st : IssueQueue.SendState}
      (hsend : IssueQueue.sendReadyInsts p pe s.queue s.pipes s.table = .ok (s'.queue, st))
      (hissued : s'.issued = s.issued ++ st.issued)

theorem handleOperandIssueCheck_readyQueue (p : IssueQueueParams) (sb : Scoreboards)
    (q : IssueQueueState) (ri : RenamedInst) :
    (IssueQueue.handleOperandIssueCheck p sb q ri).readyQueue =
      ([ri].filter fun ri => decide (IssueQueue.filesNotReady sb ri = [])).foldl
        (IssueQueue.insertReady p) q.readyQueue := by
  unfold IssueQueue.handleOperandIssueCheck
  by_cases hready : IssueQueue.filesNotReady sb ri = []
  · simp [hready]
  · simp [hready]

theorem Moves.of_step {op : IssueOp} (hstep : s.step p pe op = .ok s') : Moves p pe s op s' := by
  cases op with
  | arrive ri =>
    obtain ⟨-, -, hstep⟩ := Run.bind_eq_ok.mp hstep
    obtain ⟨queue, hqueue, hstep⟩ := Run.bind_eq_ok.mp hstep
    obtain rfl := Except.ok.inj hstep
    obtain ⟨-, -, hqueue⟩ := Run.bind_eq_ok.mp (checked_eq_ok.mp hqueue)
    obtain ⟨-, -, hqueue⟩ := Run.bind_eq_ok.mp hqueue
    obtain rfl := Except.ok.inj hqueue
    exact .insert rfl (handleOperandIssueCheck_readyQueue p s.sb _ ri)
  | environment pipes T sb =>
    obtain rfl := Except.ok.inj hstep
    exact .insert rfl rfl
  | callback n =>
    simp only [step] at hstep
    split at hstep
    · cases hstep
    · rename_i queue hcb
      obtain rfl := Except.ok.inj hstep
      obtain ⟨f, ri, hn, rfl⟩ := IssueQueue.readyCallback_cases hcb
      refine .insert rfl ?_
      dsimp only
      rw [handleOperandIssueCheck_readyQueue]
      simp [readied, checks, hn]
  | sendReadyInsts =>
    obtain ⟨⟨queue, st⟩, hsend, hstep⟩ := Run.bind_eq_ok.mp hstep
    obtain rfl := Except.ok.inj hstep
    exact .session rfl (checked_eq_ok.mp hsend) rfl
  | flush c =>
    obtain rfl := Except.ok.inj hstep
    exact .flush rfl rfl List.filter_sublist

end IssueSystem

/-- The ready queue by age: sorted, and entries with equal identifiers in the order in which they
became ready. -/
structure ByAge (log rq : List RenamedInst) : Prop where
  sorted : StableQueue.Sorted RenamedInst.uniqueId rq
  stable : ∀ u, (rq.filter fun ri => decide (ri.uniqueId = u)).Sublist
    (log.filter fun ri => decide (ri.uniqueId = u))

namespace ByAge

variable {p : IssueQueueParams} {pe : PipeId → ExecutePipeParams} {log rq rq' : List RenamedInst}

theorem sublist (A : ByAge log rq) (hsub : rq'.Sublist rq) : ByAge log rq' :=
  ⟨A.sorted.sublist hsub, fun u => (hsub.filter _).trans (A.stable u)⟩

theorem insertReady (hp : p.inOrderIssue = false) (A : ByAge log rq) (ri : RenamedInst) :
    ByAge (log ++ [ri]) (IssueQueue.insertReady p rq ri) := by
  rw [IssueQueue.insertReady_of_byAge hp]
  constructor
  · exact StableQueue.insertStable_sorted A.sorted ri
  · intro u
    rw [StableQueue.filter_insertStable A.sorted ri u, List.filter_append]
    exact (A.stable u).append_right _

theorem insertAll (hp : p.inOrderIssue = false) (A : ByAge log rq) (new : List RenamedInst) :
    ByAge (log ++ new) (new.foldl (IssueQueue.insertReady p) rq) := by
  induction new generalizing log rq with
  | nil => simpa using A
  | cons ri new ih => simpa using ih (A.insertReady hp ri)

theorem step {hs hs' : List RenamedInst × IssueSystem} {op : IssueOp}
    (hp : p.inOrderIssue = false) (A : ByAge hs.1 hs.2.queue.readyQueue)
    (hstep : Run.traced (IssueSystem.step p pe) IssueSystem.readied hs op = .ok hs') :
    ByAge hs'.1 hs'.2.queue.readyQueue := by
  obtain ⟨hstep, hlog⟩ := Run.traced_eq_ok.mp hstep
  rw [hlog]
  cases IssueSystem.Moves.of_step hstep with
  | insert _ hready =>
    rw [hready]
    exact A.insertAll hp _
  | flush hnone _ hready =>
    rw [hnone, List.append_nil]
    exact A.sublist hready
  | session hnone hsend _ =>
    have hkept := (IssueQueue.sendReadyInsts_inTurn hsend).kept
    rw [List.append_nil, ← (IssueQueue.sendReadyInsts_loop hsend).2] at hkept
    rw [hnone, List.append_nil]
    exact A.sublist hkept

end ByAge

/-- Without `in_order_issue`: in every run the ready queue is sorted by unique identifier, with
equal identifiers in the order in which they became ready, and a session issues from it oldest
first, until all pipes of what is left are busy. -/
theorem age_order_issue (p : IssueQueueParams) (pe : PipeId → ExecutePipeParams) (T : InstTable)
    (sb : Scoreboards) (hp : p.inOrderIssue = false) {log : List RenamedInst} {s : IssueSystem}
    (hreach : Run.Reachable (Run.traced (IssueSystem.step p pe) IssueSystem.readied)
      ([], { table := T, sb := sb }) (log, s)) :
    ByAge log s.queue.readyQueue ∧
      ∀ q st, IssueQueue.sendReadyInsts p pe s.queue s.pipes s.table = .ok (q, st) →
        IssueQueue.IssuedInOrder p (fun ri rj => ri.uniqueId ≤ rj.uniqueId) s.queue q st := by
  have A : ByAge log s.queue.readyQueue := by
    refine hreach.invariant (I := fun hs => ByAge hs.1 hs.2.queue.readyQueue) ?_ ?_
    · exact ⟨List.Pairwise.nil, fun _ => .refl _⟩
    · exact fun op hs hs' A hstep => A.step hp hstep
  exact ⟨A, fun q st hsend => IssueQueue.sendReadyInsts_inOrder A.sorted hsend⟩

/-- The queue for vector instructions, by age. -/
def ageQueue : IssueQueueParams := { vectorQueue with inOrderIssue := false }

/-- A younger instruction without sources. -/
def youngerVectorAdd : RenamedInst where
  inst := { uniqueId := 2, pipe := .vint, isVector := true }

/-- The older instruction becomes ready after the younger one. -/
def lateReadyOps : List IssueOp :=
  [.arrive vectorScalarAdd, .arrive youngerVectorAdd,
   .environment (fun _ => {}) justDispatched allReady, .callback 0]

theorem age_order_issue_sample :
    ∃ log s, Run.Reachable (Run.traced (IssueSystem.step ageQueue fun _ => {}) IssueSystem.readied)
        ([], { table := justDispatched, sb := integerReady }) (log, s) ∧
      log.map RenamedInst.uniqueId = [2, 1] ∧
      s.queue.readyQueue.map RenamedInst.uniqueId = [1, 2] ∧
      ByAge log s.queue.readyQueue ∧
      ∀ q st, IssueQueue.sendReadyInsts ageQueue (fun _ => {}) s.queue s.pipes s.table
          = .ok (q, st) →
        IssueQueue.IssuedInOrder ageQueue
          (fun ri rj => ri.uniqueId ≤ rj.uniqueId) s.queue q st := by
  have heval : (lateReadyOps.foldlM
      (Run.traced (IssueSystem.step ageQueue fun _ => {}) IssueSystem.readied)
      ([], { table := justDispatched, sb := integerReady })).toOption.map
      (fun hs => (hs.1.map RenamedInst.uniqueId,
        hs.2.queue.readyQueue.map RenamedInst.uniqueId)) = some ([2, 1], [1, 2]) := by
    decide +kernel
  obtain ⟨⟨log, s⟩, hs, hval⟩ := Run.ok_of_eval heval
  obtain ⟨hlog, hready⟩ := Prod.mk.inj hval
  exact ⟨log, s, ⟨lateReadyOps, hs⟩, hlog, hready, age_order_issue _ _ _ _ rfl ⟨lateReadyOps, hs⟩⟩

/-- The first-in first-out ready queue: the instructions for one target pipe that have been
issued, then those that wait, are among those that became ready, in their order. -/
structure ByReadiness (log : List RenamedInst) (s : IssueSystem) : Prop where
  sublist : ∀ t, (IssueQueue.forPipe t (s.issued.map Prod.snd) ++
    IssueQueue.forPipe t s.queue.readyQueue).Sublist (IssueQueue.forPipe t log)

namespace ByReadiness

variable {p : IssueQueueParams} {pe : PipeId → ExecutePipeParams} {log : List RenamedInst}
  {s s' : IssueSystem}

theorem foldl_insertReady (hp : p.inOrderIssue = true) (new rq : List RenamedInst) :
    new.foldl (IssueQueue.insertReady p) rq = rq ++ new := by
  induction new generalizing rq with
  | nil => simp
  | cons ri new ih => rw [List.foldl_cons, ih, IssueQueue.insertReady_of_inOrder hp]; simp

theorem step {hs hs' : List RenamedInst × IssueSystem} {op : IssueOp}
    (hp : p.inOrderIssue = true) (B : ByReadiness hs.1 hs.2)
    (hstep : Run.traced (IssueSystem.step p pe) IssueSystem.readied hs op = .ok hs') :
    ByReadiness hs'.1 hs'.2 := by
  obtain ⟨hstep, hlog⟩ := Run.traced_eq_ok.mp hstep
  rw [hlog]
  constructor
  intro t
  rw [IssueQueue.forPipe_append]
  have hold := B.sublist t
  cases IssueSystem.Moves.of_step hstep with
  | insert hissued hready =>
    rw [hissued, hready, foldl_insertReady hp, IssueQueue.forPipe_append, ← List.append_assoc]
    exact hold.append_right _
  | flush hnone hissued hready =>
    rw [hissued, hnone, IssueQueue.forPipe_nil, List.append_nil]
    exact ((hready.filter _).append_left _).trans hold
  | session hnone hsend hissued =>
    have hparts := (IssueQueue.sendReadyInsts_inTurn hsend).parts t
    rw [← (IssueQueue.sendReadyInsts_loop hsend).2] at hparts
    rw [hissued, hnone, List.map_append, IssueQueue.forPipe_append, List.append_assoc]
    rw [← hparts] at hold
    simpa using hold

end ByReadiness

/-- With `in_order_issue`: in every run the instructions for one target pipe are issued in the
order in which they became ready, and a session passes an instruction over only while all of its
pipes are busy. -/
theorem readiness_order_issue (p : IssueQueueParams) (pe : PipeId → ExecutePipeParams)
    (T : InstTable) (sb : Scoreboards) (hp : p.inOrderIssue = true) {log : List RenamedInst}
    {s : IssueSystem}
    (hreach : Run.Reachable (Run.traced (IssueSystem.step p pe) IssueSystem.readied)
      ([], { table := T, sb := sb }) (log, s)) :
    ByReadiness log s ∧
      ∀ q st, IssueQueue.sendReadyInsts p pe s.queue s.pipes s.table = .ok (q, st) →
        IssueQueue.IssuedInOrder p (fun ri rj => [ri, rj].Sublist s.queue.readyQueue)
          s.queue q st := by
  constructor
  · refine hreach.invariant (I := fun hs => ByReadiness hs.1 hs.2) ?_ ?_
    · exact ⟨fun _ => .refl _⟩
    · exact fun op hs hs' B hstep => B.step hp hstep
  · intro q st hsend
    refine IssueQueue.sendReadyInsts_inOrder ?_ hsend
    exact List.pairwise_iff_forall_sublist.mpr fun hsub => hsub

/-- Both instructions are issued, one after the other. -/
def lateIssueOps : List IssueOp :=
  lateReadyOps ++ [.sendReadyInsts, .environment (fun _ => {}) justDispatched allReady,
    .sendReadyInsts]

theorem readiness_order_issue_sample :
    ∃ log s, Run.Reachable
        (Run.traced (IssueSystem.step vectorQueue fun _ => {}) IssueSystem.readied)
        ([], { table := justDispatched, sb := integerReady }) (log, s) ∧
      log.map RenamedInst.uniqueId = [2, 1] ∧
      ByReadiness log s ∧
      ∀ q st, IssueQueue.sendReadyInsts vectorQueue (fun _ => {}) s.queue s.pipes s.table
          = .ok (q, st) →
        IssueQueue.IssuedInOrder vectorQueue
          (fun ri rj => [ri, rj].Sublist s.queue.readyQueue) s.queue q st := by
  have heval : (lateIssueOps.foldlM
      (Run.traced (IssueSystem.step vectorQueue fun _ => {}) IssueSystem.readied)
      ([], { table := justDispatched, sb := integerReady })).toOption.map
      (fun hs => hs.1.map RenamedInst.uniqueId) = some [2, 1] := by
    decide +kernel
  obtain ⟨⟨log, s⟩, hs, hlog⟩ := Run.ok_of_eval heval
  exact ⟨log, s, ⟨lateIssueOps, hs⟩, hlog, readiness_order_issue _ _ _ _ rfl ⟨lateIssueOps, hs⟩⟩

/-- The younger instruction is ready first and is issued first. -/
theorem younger_issued_first :
    ∃ s, lateIssueOps.foldlM (IssueSystem.step vectorQueue fun _ => {})
        { table := justDispatched, sb := integerReady } = .ok s ∧
      s.arrived.map RenamedInst.uniqueId = [1, 2] ∧
      s.issued.map (fun x => x.2.uniqueId) = [2, 1] ∧
      ¬(s.issued.map Prod.snd).Sublist s.arrived := by
  have heval : (lateIssueOps.foldlM (IssueSystem.step vectorQueue fun _ => {})
      { table := justDispatched, sb := integerReady }).toOption.map
      (fun s => (s.arrived.map RenamedInst.uniqueId, s.issued.map fun x => x.2.uniqueId)) =
        some ([1, 2], [2, 1]) := by
    decide +kernel
  obtain ⟨s, hs, hval⟩ := Run.ok_of_eval heval
  obtain ⟨harrived, hissued⟩ := Prod.mk.inj hval
  refine ⟨s, hs, harrived, hissued, fun hsub => ?_⟩
  have hids := hsub.map RenamedInst.uniqueId
  rw [List.map_map, harrived] at hids
  have hout : s.issued.map (RenamedInst.uniqueId ∘ Prod.snd) = [2, 1] := hissued
  rw [hout] at hids
  exact absurd hids (by decide)

end Olympia
