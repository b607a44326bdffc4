import Olympia.Execute.ExecutePipe

/-!
# Issue queues

`core/execute/IssueQueue.cpp`: an instruction from Dispatch waits in the issue queue until its
sources are ready, then also in the ready queue until one of the execution pipes for its target
can accept it, and leaves both when it is passed to the pipe.

A ready callback registered on a scoreboard is an element of `callbacks`: the register file and
the instruction that waits.  It may fire when all the source bits of the instruction in that
file are set.
-/

namespace Olympia

/-- `IssueQueueParameterSet`, and the execution pipes of each target pipe. -/
structure IssueQueueParams where
  schedulerSize : ℕ := 8
  inOrderIssue : Bool := true
  exePipes : TargetPipe → List PipeId := fun _ => []
  schedulerSize_lt : schedulerSize < 2 ^ 32 := by first | exact u32_lt (nat_lit 8) | decide

structure IssueQueueState where
  issueQueue : List RenamedInst := []
  readyQueue : List RenamedInst := []
  callbacks : List (RegFile × RenamedInst) := []

namespace IssueQueue

/-- `ready_queue_.insert`: at the back, or before the first younger instruction. -/
def insertReady (p : IssueQueueParams) (rq : List RenamedInst) (ri : RenamedInst) :
    List RenamedInst :=
  if p.inOrderIssue then rq ++ [ri]
  else rq.takeWhile (fun e => e.uniqueId ≤ ri.uniqueId) ++ ri ::
    rq.dropWhile (fun e => e.uniqueId ≤ ri.uniqueId)

/-- The register files in which the instruction has sources that are not all ready. -/
def filesNotReady (sb : Scoreboards) (ri : RenamedInst) : List RegFile :=
  RegFile.all.filter fun f => ri.getSourceList f ≠ [] && !(sb f).isSet (ri.srcMask f)

/-- `handleOperandIssueCheck_`. -/
def handleOperandIssueCheck (p : IssueQueueParams) (sb : Scoreboards) (s : IssueQueueState)
    (ri : RenamedInst) : IssueQueueState :=
  if filesNotReady sb ri = [] then { s with readyQueue := insertReady p s.readyQueue ri }
  else { s with callbacks := s.callbacks ++ (filesNotReady sb ri).map fun f => (f, ri) }

/-- `receiveInstsFromDispatch_`, with `appendIssueQueue_`. -/
def receiveInstsFromDispatch (p : IssueQueueParams) (sb : Scoreboards) (T : InstTable)
    (s : IssueQueueState) (ri : RenamedInst) : Except Assertion IssueQueueState := do
  spartaAssert (T.status ri.key = .dispatched) .badInstStatus
  spartaAssert (s.issueQueue.length ≤ p.schedulerSize) .issueQueueOverflow
  return handleOperandIssueCheck p sb { s with issueQueue := s.issueQueue ++ [ri] } ri

/-- The `n`-th callback fires, if its bits are set. -/
def readyCallback (p : IssueQueueParams) (sb : Scoreboards) (s : IssueQueueState) (n : ℕ) :
    Option IssueQueueState :=
  match s.callbacks[n]? with
  | none => none
  | some (f, ri) =>
    if (sb f).isSet (ri.srcMask f) then
      some (handleOperandIssueCheck p sb { s with callbacks := s.callbacks.eraseIdx n } ri)
    else none

/-- `popIssueQueue_`: the entry is removed, for one credit. -/
def popIssueQueue (q : List RenamedInst) (ri : RenamedInst) :
    Except Assertion (List RenamedInst) :=
  if q.any fun e => e.key = ri.key then .ok (q.eraseP fun e => e.key = ri.key)
  else .error .notInIssueQueue

/-- What `sendReadyInsts_` works on. -/
structure SendState where
  issueQueue : List RenamedInst
  /-- the ready instructions no pipe can accept -/
  kept : List RenamedInst := []
  pipes : PipeId → ExecutePipeState
  table : InstTable
  /-- the instructions passed to a pipe, each for one credit -/
  issued : List (PipeId × RenamedInst) := []

/-- The body of the loop of `sendReadyInsts_`. -/
def sendOne (p : IssueQueueParams) (pe : PipeId → ExecutePipeParams) (st : SendState)
    (ri : RenamedInst) : Except Assertion SendState :=
  match (p.exePipes ri.inst.pipe).find? fun e => ExecutePipe.canAccept (st.pipes e) with
  | some e => do
    let (pipe, table) ← ExecutePipe.insertInst (pe e) (st.pipes e) st.table ri
    let issueQueue ← popIssueQueue st.issueQueue ri
    return { st with
      issueQueue := issueQueue
      pipes := Function.update st.pipes e pipe
      table := table
      issued := st.issued ++ [(e, ri)] }
  | none => .ok { st with kept := st.kept ++ [ri] }

/-- `sendReadyInsts_`. -/
def sendReadyInsts (p : IssueQueueParams) (pe : PipeId → ExecutePipeParams)
    (s : IssueQueueState) (pipes : PipeId → ExecutePipeState) (T : InstTable) :
    Except Assertion (IssueQueueState × SendState) := do
  spartaAssert (s.readyQueue.length ≤ p.schedulerSize) .readyQueueTooLarge
  let st ← s.readyQueue.foldlM (sendOne p pe)
    { issueQueue := s.issueQueue, pipes := pipes, table := T }
  return ({ s with issueQueue := st.issueQueue, readyQueue := st.kept }, st)

/-- `flushInst_` and the credits it returns. -/
def flushInst (s : IssueQueueState) (c : FlushingCriteria) : IssueQueueState × ℕ :=
  let flushed := s.issueQueue.filter fun ri => c.includedInFlush ri.inst
  ({ issueQueue := s.issueQueue.filter fun ri => !c.includedInFlush ri.inst
     readyQueue := s.readyQueue.filter fun ri => !c.includedInFlush ri.inst
     callbacks := s.callbacks.filter fun cb =>
      !(flushed.any fun ri => ri.uniqueId = cb.2.uniqueId) }, flushed.length)

/-! ## What the handlers do to the issue queue -/

@[simp] theorem handleOperandIssueCheck_issueQueue (p : IssueQueueParams) (sb : Scoreboards)
    (s : IssueQueueState) (ri : RenamedInst) :
    (handleOperandIssueCheck p sb s ri).issueQueue = s.issueQueue := by
  unfold handleOperandIssueCheck
  split <;> rfl

/-- The first entry for the instruction is removed. -/
theorem popIssueQueue_spec {q q' : List RenamedInst} {ri : RenamedInst}
    (h : popIssueQueue q ri = .ok q') : ∃ e ∈ q, e.key = ri.key ∧ (e :: q').Perm q := by
  unfold popIssueQueue at h
  split at h
  · rename_i hany
    obtain rfl := Except.ok.inj h
    obtain ⟨e, he, hkey⟩ := List.any_eq_true.mp hany
    obtain ⟨a, l₁, l₂, -, ha, hq, herase⟩ :=
      List.exists_of_eraseP (p := fun e => decide (e.key = ri.key)) he hkey
    refine ⟨a, by simp [hq], by simpa using ha, ?_⟩
    rw [herase, hq]
    exact List.perm_middle.symm
  · cases h

theorem popIssueQueue_length {q q' : List RenamedInst} {ri : RenamedInst}
    (h : popIssueQueue q ri = .ok q') : q'.length + 1 = q.length := by
  obtain ⟨e, -, -, hperm⟩ := popIssueQueue_spec h
  exact hperm.length_eq

/-- Each instruction passed to a pipe leaves the issue queue. -/
theorem sendOne_length {p : IssueQueueParams} {pe : PipeId → ExecutePipeParams}
    {st st' : SendState} {ri : RenamedInst} (h : sendOne p pe st ri = .ok st') :
    st'.issueQueue.length + st'.issued.length = st.issueQueue.length + st.issued.length := by
  unfold sendOne at h
  split at h
  · obtain ⟨⟨pipe, T⟩, -, h⟩ := Run.bind_eq_ok.mp h
    obtain ⟨q, hq, h⟩ := Run.bind_eq_ok.mp h
    obtain rfl := Except.ok.inj h
    have hlen := popIssueQueue_length hq
    simp only [List.length_append, List.length_singleton]
    omega
  · obtain rfl := Except.ok.inj h
    rfl

theorem sendReadyInsts_length {p : IssueQueueParams} {pe : PipeId → ExecutePipeParams}
    {s s' : IssueQueueState} {pipes : PipeId → ExecutePipeState} {T : InstTable}
    {st : SendState} (h : sendReadyInsts p pe s pipes T = .ok (s', st)) :
    s'.issueQueue.length + st.issued.length = s.issueQueue.length := by
  obtain ⟨-, -, h⟩ := Run.bind_eq_ok.mp h
  obtain ⟨st', hloop, h⟩ := Run.bind_eq_ok.mp h
  obtain ⟨rfl, rfl⟩ := Prod.mk.inj (Except.ok.inj h)
  exact Run.foldlM_ok_preserves
    (I := fun st => st.issueQueue.length + st.issued.length = s.issueQueue.length)
    (fun ri st st' hI hone => (sendOne_length hone).trans hI) rfl hloop

/-- What the loop of `sendReadyInsts_` has done: the instructions it has passed to a pipe have
left the queue, and each pipe works on what it worked on or was given. -/
structure SendSpec (s : IssueQueueState) (pipes : PipeId → ExecutePipeState) (T : InstTable)
    (st : SendState) : Prop where
  queue : (st.issued.map Prod.snd ++ st.issueQueue).Perm s.issueQueue
  issued : ∀ x ∈ st.issued, x.2 ∈ s.readyQueue
  kept : ∀ ri ∈ st.kept, ri ∈ s.readyQueue
  single : ∀ e, ExecutePipe.Single (st.pipes e)
  working : ∀ e, ∀ ri ∈ ExecutePipe.working (st.pipes e),
    ri ∈ ExecutePipe.working (pipes e) ∨ (e, ri) ∈ st.issued
  completing : ∀ e, (st.pipes e).completeInst = (pipes e).completeInst
  table : ∀ P, T.Progress P st.table

theorem SendSpec.sendOne {p : IssueQueueParams} {pe : PipeId → ExecutePipeParams}
    {s : IssueQueueState} {pipes : PipeId → ExecutePipeState} {T : InstTable}
    {st st' : SendState} {ri : RenamedInst} (D : SendSpec s pipes T st) (hri : ri ∈ s.readyQueue)
    (hkey : ∀ e ∈ s.issueQueue, e.key = ri.key → e = ri)
    (h : IssueQueue.sendOne p pe st ri = .ok st') : SendSpec s pipes T st' := by
  unfold IssueQueue.sendOne at h
  split at h
  · rename_i e hfind
    obtain ⟨⟨pipe, T'⟩, hins, h⟩ := Run.bind_eq_ok.mp h
    obtain ⟨q, hq, h⟩ := Run.bind_eq_ok.mp h
    obtain rfl := Except.ok.inj h
    have hacc : ExecutePipe.canAccept (st.pipes e) = true :=
      List.find?_some (p := fun e => ExecutePipe.canAccept (st.pipes e)) hfind
    obtain ⟨hworking, hsingle⟩ := ExecutePipe.insertInst_idle (D.single e) hacc hins
    obtain ⟨-, -, -, hcomplete, hT⟩ := ExecutePipe.insertInst_spec hins
    -- the entry that leaves the queue is the one that was ready
    obtain ⟨e', he', hsame, hperm⟩ := popIssueQueue_spec hq
    obtain rfl : e' = ri :=
      hkey e' (D.queue.mem_iff.mp (List.mem_append_right _ he')) hsame
    refine ⟨?_, fun x hx => ?_, D.kept, fun e₁ => ?_, fun e₁ r hr => ?_, fun e₁ => ?_,
      fun P => (D.table P).trans (hT P)⟩
    · refine List.Perm.trans ?_ D.queue
      simp only [List.map_append, List.map_cons, List.map_nil, List.append_assoc]
      exact (hperm.append_left _)
    · rcases List.mem_append.mp hx with hx | hx
      · exact D.issued x hx
      · rw [List.mem_singleton.mp hx]
        exact hri
    · by_cases he₁ : e₁ = e
      · subst he₁
        simpa using hsingle
      · simpa [he₁] using D.single e₁
    · by_cases he₁ : e₁ = e
      · subst he₁
        obtain rfl : r = e' := by simpa [hworking] using hr
        exact .inr (by simp)
      · rcases D.working e₁ r (by simpa [he₁] using hr) with hr | hr
        · exact .inl hr
        · exact .inr (List.mem_append_left _ hr)
    · by_cases he₁ : e₁ = e
      · subst he₁
        simpa [hcomplete] using D.completing e₁
      · simpa [he₁] using D.completing e₁
  · obtain rfl := Except.ok.inj h
    refine { D with kept := fun r hr => ?_ }
    rcases List.mem_append.mp hr with hr | hr
    · exact D.kept r hr
    · rw [List.mem_singleton.mp hr]
      exact hri

/-- `sendReadyInsts_`, when an entry of one queue and an entry of the other for the same
instruction are the same. -/
theorem sendReadyInsts_spec {p : IssueQueueParams} {pe : PipeId → ExecutePipeParams}
    {s s' : IssueQueueState} {pipes : PipeId → ExecutePipeState} {T : InstTable}
    {st : SendState} (hsingle : ∀ e, ExecutePipe.Single (pipes e))
    (hkey : ∀ ri ∈ s.readyQueue, ∀ e ∈ s.issueQueue, e.key = ri.key → e = ri)
    (h : sendReadyInsts p pe s pipes T = .ok (s', st)) :
    SendSpec s pipes T st ∧
      s' = { s with issueQueue := st.issueQueue, readyQueue := st.kept } := by
  obtain ⟨-, -, h⟩ := Run.bind_eq_ok.mp h
  obtain ⟨st', hloop, h⟩ := Run.bind_eq_ok.mp h
  obtain ⟨rfl, rfl⟩ := Prod.mk.inj (Except.ok.inj h)
  refine ⟨?_, rfl⟩
  have hstart : SendSpec s pipes T { issueQueue := s.issueQueue, pipes := pipes, table := T } :=
    ⟨.refl _, by simp, by simp, hsingle, fun _ _ => .inl, fun _ => rfl, fun P => .refl P T⟩
  refine (Run.foldlM_ok_induct (f := IssueQueue.sendOne p pe)
    (I := fun l st => (∀ ri ∈ l, ri ∈ s.readyQueue) ∧ SendSpec s pipes T st) ?_
    ⟨fun _ h => h, hstart⟩ hloop).2
  rintro ri l st₁ st₂ ⟨hl, D⟩ hone
  have hri := hl ri List.mem_cons_self
  exact ⟨fun r hr => hl r (List.mem_cons_of_mem _ hr), D.sendOne hri (hkey ri hri) hone⟩

theorem flushInst_length (s : IssueQueueState) (c : FlushingCriteria) :
    (flushInst s c).1.issueQueue.length + (flushInst s c).2 = s.issueQueue.length := by
  have hsplit := List.length_eq_length_filter_add
    (fun ri : RenamedInst => c.includedInFlush ri.inst) (l := s.issueQueue)
  simp only [flushInst]
  omega

end IssueQueue

end Olympia
