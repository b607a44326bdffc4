import Olympia.Core
import Olympia.Execute.IssueOnce

/-!
# The issue event

The core with the events that start issue sessions.  An issue queue has one event
`ev_issue_ready_inst_`, which runs at most once in a cycle: scheduling it again in a cycle in
which it is scheduled or has run does nothing.  It is scheduled when an instruction enters the
ready queue, and by the message that a pipe sends when it completes an instruction.

A pipe is free again when it executes the last pass, one cycle before it completes.  So when a
session has run, a pipe that is free and could take an instruction that the session has left has
been freed after it, and will complete in the next cycle.  This is what `IssueEvent.Awake` keeps.
A flush frees pipes without a message; then nothing is lost only if the flush empties the ready
queues.
-/

namespace Olympia

/-! ## What an issue session leaves behind -/

namespace IssueQueue

variable {p : IssueQueueParams} {pe : PipeId → ExecutePipeParams} {s s' : IssueQueueState}
  {pipes : PipeId → ExecutePipeState} {T : InstTable}

/-- A check that does not find all sources ready leaves the ready queue as it is. -/
theorem handleOperandIssueCheck_readyQueue {sb : Scoreboards} {ri : RenamedInst}
    (h : filesNotReady sb ri ≠ []) :
    (handleOperandIssueCheck p sb s ri).readyQueue = s.readyQueue := by
  unfold handleOperandIssueCheck
  rw [if_neg h]

/-- What the loop of `sendReadyInsts_` has done to the pipes: no pipe is free for what it has
kept, and it has touched the pipes of the queue only. -/
structure Filled (p : IssueQueueParams) (before : PipeId → ExecutePipeState) (st : SendState) :
    Prop where
  kept : ∀ ri ∈ st.kept, ∀ e ∈ p.exePipes ri.inst.pipe,
    ExecutePipe.canAccept (st.pipes e) = false
  pipes : ∀ e, st.pipes e = before e ∨ ((∃ t, e ∈ p.exePipes t) ∧
    ExecutePipe.canAccept (st.pipes e) = false)
  completing : ∀ e, (st.pipes e).completeInst = (before e).completeInst

theorem Filled.sendOne {st st' : SendState} {ri : RenamedInst} (F : Filled p pipes st)
    (h : IssueQueue.sendOne p pe st ri = .ok st') : Filled p pipes st' := by
  rcases sendOne_cases h with ⟨e, pipe, T, q, he, -, hbusy, hcomplete, -, rfl⟩ | ⟨hnone, rfl⟩
  · have hfull : ExecutePipe.canAccept pipe = false := by simp [ExecutePipe.canAccept, hbusy]
    constructor
    · intro rj hrj e' he'
      by_cases heq : e' = e
      · simpa [heq] using hfull
      · simpa [heq] using F.kept rj hrj e' he'
    · intro e'
      by_cases heq : e' = e
      · subst heq
        exact .inr ⟨⟨_, he⟩, by simpa using hfull⟩
      · simpa [heq] using F.pipes e'
    · intro e'
      by_cases heq : e' = e
      · subst heq
        simpa [hcomplete] using F.completing e'
      · simpa [heq] using F.completing e'
  · refine ⟨fun rj hrj => ?_, F.pipes, F.completing⟩
    rcases List.mem_append.mp hrj with hrj | hrj
    · exact F.kept rj hrj
    · rw [List.mem_singleton.mp hrj]
      exact hnone

theorem sendReadyInsts_filled {st : SendState}
    (h : sendReadyInsts p pe s pipes T = .ok (s', st)) :
    Filled p pipes st ∧ s'.readyQueue = st.kept := by
  obtain ⟨-, -, h⟩ := Run.bind_eq_ok.mp h
  obtain ⟨st', hloop, h⟩ := Run.bind_eq_ok.mp h
  obtain ⟨rfl, rfl⟩ := Prod.mk.inj (Except.ok.inj h)
  refine ⟨Run.foldlM_ok_preserves (fun ri st st' F hone => F.sendOne hone) ?_ hloop, rfl⟩
  exact ⟨by simp, fun e => .inl rfl, fun e => rfl⟩

end IssueQueue

/-- The front end changes the phase only at the end of a cycle. -/
theorem InStep.phase_of_front {p : RenameParams} {pd : DispatchParams} {pr : RobParams}
    {s s' : InStep} {op : InStepOp} (hop : op.isFront = true) (hne : op ≠ .nextCycle)
    (hstep : s.step p pd pr op = .ok s') : s'.phase = s.phase := by
  cases step_stepped hstep with
  | flush | noFlush | complete => cases hop
  | nextCycle => exact absurd rfl hne
  | _ => rfl

/-! ## The system -/

/-- The units of a core each of whose execution pipes belongs to one issue queue, to which it
reports. -/
structure IssueParams extends UnitsParams where
  owner : PipeId → ℕ
  owned : ∀ n t, ∀ e ∈ (iq n).exePipes t, owner e = n

structure IssueEvent where
  core : Core
  /-- the queues whose event is scheduled for this cycle -/
  scheduled : List ℕ := []
  /-- the queues whose event has run in this cycle -/
  ran : List ℕ := []
  /-- the pipes that have scheduled a completion in this cycle, for the next one -/
  executed : List PipeId := []
  /-- the pipes with a message on `out_execute_pipe_` -/
  done : List PipeId := []

inductive IssueEventOp where
  | core (op : CoreOp)
  /-- `readyExeUnit_` receives the message of a pipe -/
  | pipeDone (e : PipeId)

namespace IssueEvent

/-- `ev_issue_ready_inst_.schedule(0)`. -/
def scheduleIssue (s : IssueEvent) (n : ℕ) : IssueEvent :=
  if n ∈ s.scheduled ∨ n ∈ s.ran then s else { s with scheduled := n :: s.scheduled }

/-- The queue that inserts an instruction into its ready queue in a step. -/
def readies (c : Core) : CoreOp → Option ℕ
  | .deliverUnit i =>
    match c.toUnit[i]? with
    | some (.iq n, ri) => if IssueQueue.filesNotReady c.scoreboards ri = [] then some n else none
    | _ => none
  | .units (.iqCallback n i) =>
    match (c.units.iqs n).callbacks[i]? with
    | some (_, ri) => if IssueQueue.filesNotReady c.scoreboards ri = [] then some n else none
    | none => none
  | _ => none

/-- What the handlers do with the events, in a step that leads the core to `core`. -/
def react (s : IssueEvent) (core : Core) : CoreOp → IssueEvent
  | .front .nextCycle => { s with core := core, ran := [], executed := [] }
  | .units (.sendReadyInsts n) =>
    { s with core := core, scheduled := s.scheduled.filter (· ≠ n), ran := n :: s.ran }
  | .units (.executeInst e _ _) =>
    { s with
      core := core
      executed :=
        if ExecutePipe.morePasses (s.core.units.pipes e) then s.executed else e :: s.executed }
  | .units (.completePipe e _) => { s with core := core, done := e :: s.done }
  | op =>
    match readies s.core op with
    | some n => { s with core := core }.scheduleIssue n
    | none => { s with core := core }

/-- The events of the queues and the pipes run in the tick phase, an issue session when it is
scheduled and a completion in the cycle after the execution.  The cycle ends when no session is
scheduled and every message has arrived. -/
def isDue (s : IssueEvent) : CoreOp → Bool
  | .front .nextCycle => s.scheduled.isEmpty && s.done.isEmpty
  | .units (.sendReadyInsts n) => decide (s.core.front.phase = .tick ∧ n ∈ s.scheduled)
  | .units (.executeInst _ _ _) => decide (s.core.front.phase = .tick)
  | .units (.reissueInst _ _) => decide (s.core.front.phase = .tick)
  | .units (.completePipe e i) => decide (s.core.front.phase = .tick ∧
      i + s.executed.count e < (s.core.units.pipes e).completeInst.length)
  | _ => true

def step (p : RenameParams) (pd : DispatchParams) (pr : RobParams) (pu : IssueParams)
    (s : IssueEvent) : IssueEventOp → Except Stop IssueEvent
  | .core op => do
    enabled (s.isDue op)
    let core ← s.core.step p pd pr pu.toUnitsParams op
    return s.react core op
  | .pipeDone e => do
    enabled (s.core.front.phase = .tick ∧ e ∈ s.done)
    let s := { s with done := s.done.erase e }
    return if (s.core.units.iqs (pu.owner e)).readyQueue = [] then s
      else s.scheduleIssue (pu.owner e)

def init (p : RenameParams) (x0 : ℕ) : IssueEvent := { core := .init p x0 }

/-! ## The wakeup -/

/-- An issue session of the queue `n` is scheduled, or will be when the pipe `e` has completed:
its completion is due in the next cycle, or no session has run yet in this cycle and it is due or
its message is on the way. -/
def Woken (s : IssueEvent) (n : ℕ) (e : PipeId) : Prop :=
  n ∈ s.scheduled ∨ e ∈ s.executed ∨
    (n ∉ s.ran ∧ (e ∈ s.done ∨ (s.core.units.pipes e).completeInst ≠ []))

structure Awake (pu : IssueParams) (s : IssueEvent) : Prop where
  woken : ∀ n, ∀ ri ∈ (s.core.units.iqs n).readyQueue, ∀ e ∈ (pu.iq n).exePipes ri.inst.pipe,
    ExecutePipe.canAccept (s.core.units.pipes e) = true → s.Woken n e
  executed : ∀ e, s.executed.count e ≤ (s.core.units.pipes e).completeInst.length
  ports : s.core.front.phase = .portUpdate → s.ran = [] ∧ s.executed = []

variable {p : RenameParams} {x0 : ℕ} {pd : DispatchParams} {pr : RobParams} {pu : IssueParams}
  {s s' : IssueEvent} {n : ℕ} {e : PipeId}

@[simp] theorem scheduleIssue_core : (s.scheduleIssue n).core = s.core := by
  unfold scheduleIssue
  split <;> rfl

@[simp] theorem scheduleIssue_ran : (s.scheduleIssue n).ran = s.ran := by
  unfold scheduleIssue
  split <;> rfl

@[simp] theorem scheduleIssue_executed : (s.scheduleIssue n).executed = s.executed := by
  unfold scheduleIssue
  split <;> rfl

@[simp] theorem scheduleIssue_done : (s.scheduleIssue n).done = s.done := by
  unfold scheduleIssue
  split <;> rfl

theorem mem_scheduleIssue_of_mem {m : ℕ} (h : m ∈ s.scheduled) :
    m ∈ (s.scheduleIssue n).scheduled := by
  unfold scheduleIssue
  split
  · exact h
  · exact List.mem_cons_of_mem _ h

theorem mem_scheduleIssue (h : n ∉ s.ran) : n ∈ (s.scheduleIssue n).scheduled := by
  unfold scheduleIssue
  split
  · rename_i hmem
    exact hmem.resolve_right h
  · exact List.mem_cons_self

/-- What a step of the core in its environment does. -/
theorem step_core {op : CoreOp} (h : s.step p pd pr pu (.core op) = .ok s') :
    s.isDue op = true ∧
      ∃ core, Core.Stepped p pd pr pu.toUnitsParams s.core op core ∧ s' = s.react core op := by
  obtain ⟨u, hdue, h⟩ := Run.bind_eq_ok.mp h
  obtain ⟨core, hcore, h⟩ := Run.bind_eq_ok.mp h
  exact ⟨enabled_eq_ok.mp hdue, core, Core.step_stepped hcore, (Except.ok.inj h).symm⟩

theorem step_units {op : UnitsOp} (h : s.step p pd pr pu (.core (.units op)) = .ok s') :
    s.isDue (.units op) = true ∧
      ∃ out, s' = s.react { s.core with
        units := out.units
        front := { s.core.front with
          table := out.table
          rename := { s.core.front.rename with
            toRenameTables := s.core.front.rename.setScoreboards out.scoreboards } } }
          (.units op) ∧
        Units.Stepped pu.toUnitsParams s.core.units s.core.front.table s.core.scoreboards op
          out := by
  obtain ⟨hdue, core, hcore, hreact⟩ := step_core h
  cases hcore with
  | units hout => exact ⟨hdue, _, hreact, Units.step_stepped hout⟩

theorem awake_init (p : RenameParams) (x0 : ℕ) (pu : IssueParams) : (init p x0).Awake pu where
  woken n ri hri := by cases hri
  executed e := Nat.zero_le _
  ports _ := ⟨rfl, rfl⟩

namespace Awake

/-- A step that leaves the ready queues and the pipes. -/
theorem of_same (H : s.Awake pu)
    (hready : ∀ n, (s'.core.units.iqs n).readyQueue = (s.core.units.iqs n).readyQueue)
    (hpipes : s'.core.units.pipes = s.core.units.pipes)
    (hphase : s'.core.front.phase = .portUpdate → s.core.front.phase = .portUpdate)
    (hscheduled : ∀ n ∈ s.scheduled, n ∈ s'.scheduled) (hran : s'.ran = s.ran)
    (hexecuted : s'.executed = s.executed) (hdone : s'.done = s.done) : s'.Awake pu where
  woken n ri hri e he hfree := by
    rw [hready n] at hri
    rw [hpipes] at hfree
    have h := H.woken n ri hri e he hfree
    unfold Woken at h ⊢
    rw [hran, hexecuted, hdone, hpipes]
    exact h.imp_left (hscheduled n)
  executed e := by
    rw [hexecuted, hpipes]
    exact H.executed e
  ports hp := by
    rw [hran, hexecuted]
    exact H.ports (hphase hp)

/-- A queue schedules its event when an instruction enters its ready queue. -/
theorem scheduleIssue (H : s.Awake pu) {core : Core} (hran : n ∉ s.ran)
    (hother : ∀ m, m ≠ n → core.units.iqs m = s.core.units.iqs m)
    (hpipes : core.units.pipes = s.core.units.pipes)
    (hphase : core.front.phase = s.core.front.phase) :
    Awake pu ({ s with core := core }.scheduleIssue n) where
  woken m ri hri e he hfree := by
    by_cases hm : m = n
    · subst hm
      exact .inl (mem_scheduleIssue hran)
    · simp only [scheduleIssue_core] at hri hfree
      rw [hother m hm] at hri
      rw [hpipes] at hfree
      have h := H.woken m ri hri e he hfree
      unfold Woken at h ⊢
      simp only [scheduleIssue_core, scheduleIssue_ran, scheduleIssue_executed, scheduleIssue_done]
      rw [hpipes]
      exact h.imp_left mem_scheduleIssue_of_mem
  executed e := by
    simp only [scheduleIssue_core, scheduleIssue_executed]
    rw [hpipes]
    exact H.executed e
  ports hp := by
    simp only [scheduleIssue_core, scheduleIssue_ran, scheduleIssue_executed] at hp ⊢
    exact H.ports (hphase.symm.trans hp)

/-- A queue checks the operands of an instruction. -/
theorem operandIssueCheck (H : s.Awake pu) {core : Core} {iq : IssueQueueState}
    {ri : RenamedInst} (hran : n ∉ s.ran)
    (hiqs : core.units.iqs = Function.update s.core.units.iqs n
      (IssueQueue.handleOperandIssueCheck (pu.iq n) s.core.scoreboards iq ri))
    (hqueue : iq.readyQueue = (s.core.units.iqs n).readyQueue)
    (hpipes : core.units.pipes = s.core.units.pipes)
    (hphase : core.front.phase = s.core.front.phase) :
    Awake pu (match if IssueQueue.filesNotReady s.core.scoreboards ri = [] then some n
        else none with
      | some m => { s with core := core }.scheduleIssue m
      | none => { s with core := core }) := by
  by_cases hready : IssueQueue.filesNotReady s.core.scoreboards ri = []
  · rw [if_pos hready]
    refine H.scheduleIssue hran (fun m hm => ?_) hpipes hphase
    rw [hiqs]
    exact Function.update_of_ne hm _ _
  · rw [if_neg hready]
    refine H.of_same (fun m => ?_) hpipes (fun hp => hphase.symm.trans hp) (fun _ => id)
      rfl rfl rfl
    by_cases hm : m = n
    · subst hm
      simp [hiqs, IssueQueue.handleOperandIssueCheck_readyQueue hready, hqueue]
    · simp [hiqs, hm]

/-- A handler of one pipe. -/
theorem setPipe (H : s.Awake pu) {pipe : ExecutePipeState}
    (hpipes : s'.core.units.pipes = Function.update s.core.units.pipes e pipe)
    (hiqs : s'.core.units.iqs = s.core.units.iqs)
    (hphase : s'.core.front.phase = s.core.front.phase)
    (htick : s.core.front.phase = .tick)
    (hscheduled : s'.scheduled = s.scheduled) (hran : s'.ran = s.ran)
    (hother : ∀ e', e' ≠ e → (e' ∈ s.executed → e' ∈ s'.executed) ∧ (e' ∈ s.done → e' ∈ s'.done) ∧
      s'.executed.count e' = s.executed.count e')
    (hcount : s'.executed.count e ≤ pipe.completeInst.length)
    (hwoken : ExecutePipe.canAccept pipe = true → e ∈ s'.executed ∨
      (ExecutePipe.canAccept (s.core.units.pipes e) = true ∧
        ∀ n, s.Woken n e → s'.Woken n e)) : s'.Awake pu where
  woken n ri hri e' he' hfree := by
    rw [hiqs] at hri
    by_cases he : e' = e
    · subst he
      rw [hpipes, Function.update_self] at hfree
      rcases hwoken hfree with hmem | ⟨hold, hkeep⟩
      · exact .inr (.inl hmem)
      · exact hkeep n (H.woken n ri hri e' he' hold)
    · rw [hpipes, Function.update_of_ne he] at hfree
      have h := H.woken n ri hri e' he' hfree
      obtain ⟨hexecuted, hdone, -⟩ := hother e' he
      unfold Woken at h ⊢
      rw [hscheduled, hran, hpipes, Function.update_of_ne he]
      exact h.imp_right (Or.imp hexecuted (And.imp_right (Or.imp_left hdone)))
  executed e' := by
    rw [hpipes]
    by_cases he : e' = e
    · subst he
      rw [Function.update_self]
      exact hcount
    · rw [Function.update_of_ne he, (hother e' he).2.2]
      exact H.executed e'
  ports hp := by
    rw [hphase, htick] at hp
    cases hp

/-! ### The steps -/

theorem nextCycle (H : s.Awake pu)
    (hstep : s.step p pd pr pu (.core (.front .nextCycle)) = .ok s') : s'.Awake pu := by
  obtain ⟨hdue, core, hcore, rfl⟩ := step_core hstep
  simp only [isDue, Bool.and_eq_true, List.isEmpty_iff] at hdue
  obtain ⟨hscheduled, hdone⟩ := hdue
  cases hcore with
  | front =>
    constructor
    · intro n ri hri e he hfree
      -- a completion that was due in the next cycle is due now
      refine .inr (.inr ⟨List.not_mem_nil, .inr ?_⟩)
      rcases H.woken n ri hri e he hfree with h | h | ⟨-, h | h⟩
      · rw [hscheduled] at h
        cases h
      · have hcount := H.executed e
        have hpos := List.count_pos_iff.mpr h
        exact List.ne_nil_of_length_pos (by dsimp only [react]; omega)
      · rw [hdone] at h
        cases h
      · exact h
    · intro e
      exact Nat.zero_le _
    · intro hp
      exact ⟨rfl, rfl⟩

theorem front {op : InStepOp} (H : s.Awake pu)
    (hstep : s.step p pd pr pu (.core (.front op)) = .ok s') : s'.Awake pu := by
  by_cases hop : op = .nextCycle
  · subst hop
    exact H.nextCycle hstep
  obtain ⟨-, core, hcore, rfl⟩ := step_core hstep
  have hreact : s.react core (.front op) = { s with core := core } := by
    cases op <;> first | rfl | exact absurd rfl hop
  rw [hreact]
  cases hcore with
  | front hfront hs =>
    have hphase := InStep.phase_of_front hfront hop hs
    exact H.of_same (fun _ => rfl) rfl (fun hp => hphase.symm.trans hp) (fun _ => id) rfl rfl rfl

/-- A flush empties the ready queues, if all that is in them is still in the issue queues. -/
theorem flush {hist : List Move} {C : Inst → Prop} (I : Core.Inv p x0 pd C hist s.core)
    (H : s.Awake pu)
    (hqueued : FlushManager.forwardUpper s.core.front.pendingFlush ≠ none →
      ∀ n, ∀ ri ∈ (s.core.units.iqs n).readyQueue, ri ∈ (s.core.units.iqs n).issueQueue)
    (hstep : s.step p pd pr pu (.core .flush) = .ok s') : s'.Awake pu := by
  obtain ⟨-, core, hcore, rfl⟩ := step_core hstep
  cases hcore with
  | flush _ _ hfront =>
    obtain ⟨-, -, hcase⟩ := I.ordered.flush_spec hfront
    have hphase : s.core.front.phase = .portUpdate := by
      cases InStep.step_stepped hfront with
      | noFlush hphase => exact hphase
      | flush hphase => exact hphase
    obtain ⟨hran, hexecuted⟩ := H.ports hphase
    rcases hforward : FlushManager.forwardUpper s.core.front.pendingFlush with _ | c
    · exact H.of_same (by simp [react, readies]) rfl (fun _ => hphase) (fun _ => id) rfl rfl rfl
    · simp only [hforward] at hcase
      constructor
      · intro n ri hri
        simp only [react, readies] at hri
        obtain ⟨hri, hkept⟩ := List.mem_filter.mp hri
        have hqueue := hqueued (by simp [hforward]) n ri hri
        rw [hcase.2.2.2 ri ((I.units.iqs n).queue ri hqueue).2.2] at hkept
        cases hkept
      · intro e
        simp only [react, readies, hexecuted, List.count_nil]
        exact Nat.zero_le _
      · intro hp
        exact ⟨hran, hexecuted⟩

theorem deliverUnit {i : ℕ} (H : s.Awake pu)
    (hstep : s.step p pd pr pu (.core (.deliverUnit i)) = .ok s') : s'.Awake pu := by
  obtain ⟨-, core, hcore, rfl⟩ := step_core hstep
  cases hcore with
  | @deliverUnit _ _ ri _ _ hphase hi hrec =>
    have hran : s.ran = [] := (H.ports hphase).1
    cases Units.receive_received hrec with
    | lsu =>
      simp only [react, readies, hi]
      exact H.of_same (fun _ => rfl) rfl id (fun _ => id) rfl rfl rfl
    | iq =>
      simp only [react, readies, hi]
      exact H.operandIssueCheck (by simp [hran]) rfl rfl rfl rfl

theorem deliverStoreAck (H : s.Awake pu)
    (hstep : s.step p pd pr pu (.core .deliverStoreAck) = .ok s') : s'.Awake pu := by
  obtain ⟨-, core, hcore, rfl⟩ := step_core hstep
  cases hcore
  exact H.of_same (fun _ => rfl) rfl id (fun _ => id) rfl rfl rfl

theorem iqCallback {i : ℕ} (H : s.Awake pu) (hran : n ∉ s.ran)
    (hstep : s.step p pd pr pu (.core (.units (.iqCallback n i))) = .ok s') : s'.Awake pu := by
  obtain ⟨-, out, rfl, hout⟩ := step_units hstep
  cases hout with
  | iqCallback hcb =>
    obtain ⟨f, ri, hi, rfl⟩ := IssueQueue.readyCallback_cases hcb
    simp only [react, readies, hi]
    exact H.operandIssueCheck hran rfl rfl rfl rfl

/-- A session keeps only what no pipe is free for. -/
theorem sendReadyInsts (H : s.Awake pu)
    (hstep : s.step p pd pr pu (.core (.units (.sendReadyInsts n))) = .ok s') : s'.Awake pu := by
  obtain ⟨hdue, out, rfl, hout⟩ := step_units hstep
  have htick := (of_decide_eq_true hdue).1
  cases hout with
  | @sendReadyInsts _ iq st hsend =>
    obtain ⟨F, hkept⟩ := IssueQueue.sendReadyInsts_filled hsend
    constructor
    · intro m ri hri e he hfree
      simp only [react] at hri hfree
      by_cases hm : m = n
      · subst hm
        rw [Function.update_self, hkept] at hri
        rw [F.kept ri hri e he] at hfree
        cases hfree
      · rw [Function.update_of_ne hm] at hri
        -- the pipes of another queue are as they were
        have hsame : st.pipes e = s.core.units.pipes e := by
          refine (F.pipes e).resolve_right ?_
          rintro ⟨⟨t, ht⟩, -⟩
          exact hm ((pu.owned m _ e he).symm.trans (pu.owned n t e ht))
        rw [hsame] at hfree
        have h := H.woken m ri hri e he hfree
        simpa [Woken, react, hsame, hm] using h
    · intro e
      simp only [react, F.completing e]
      exact H.executed e
    · intro hp
      exact absurd (htick.symm.trans hp) (by decide)

theorem executeInst {i : ℕ} {random : Bool} (H : s.Awake pu)
    (hstep : s.step p pd pr pu (.core (.units (.executeInst e i random))) = .ok s') :
    s'.Awake pu := by
  obtain ⟨hdue, out, rfl, hout⟩ := step_units hstep
  have htick := of_decide_eq_true hdue
  cases hout with
  | executeInst hexe =>
    unfold ExecutePipe.executeInst at hexe
    split at hexe
    · cases hexe
    dsimp only at hexe
    have hcount := H.executed e
    have hpasses : ∀ l, ExecutePipe.morePasses { s.core.units.pipes e with executeInst := l }
        = ExecutePipe.morePasses (s.core.units.pipes e) := fun l => rfl
    rw [hpasses] at hexe
    split at hexe
    · rename_i hmore
      obtain ⟨rfl, -⟩ := Prod.mk.inj (Option.some.inj hexe)
      refine H.setPipe rfl rfl rfl htick rfl rfl ?_ ?_ fun hfree => .inr ⟨hfree, ?_⟩
      · intro e' he'
        simp [react, hmore]
      · simpa [react, hmore] using hcount
      · intro n h
        simpa [Woken, react, hmore] using h
    · rename_i hmore
      obtain ⟨rfl, -⟩ := Prod.mk.inj (Option.some.inj hexe)
      refine H.setPipe rfl rfl rfl htick rfl rfl ?_ ?_ fun _ => .inl ?_
      · intro e' he'
        simp only [react, hmore]
        exact ⟨List.mem_cons_of_mem _, id, List.count_cons_of_ne (Ne.symm he')⟩
      · simp [react, hmore]
        omega
      · simp [react, hmore]

theorem reissueInst {i : ℕ} (H : s.Awake pu)
    (hstep : s.step p pd pr pu (.core (.units (.reissueInst e i))) = .ok s') : s'.Awake pu := by
  obtain ⟨hdue, out, rfl, hout⟩ := step_units hstep
  have htick := of_decide_eq_true hdue
  cases hout with
  | reissueInst hre =>
    obtain ⟨ri, -, hins⟩ := Option.map_eq_some_iff.mp hre
    obtain ⟨hbusy, -, -, hcomplete, -⟩ := ExecutePipe.insertInst_spec hins
    have hcount := H.executed e
    refine H.setPipe rfl rfl rfl htick rfl rfl (fun _ _ => ⟨id, id, rfl⟩) ?_ fun hfree => ?_
    · rw [hcomplete]
      exact hcount
    · simp [ExecutePipe.canAccept, hbusy] at hfree

theorem completePipe {i : ℕ} (H : s.Awake pu)
    (hstep : s.step p pd pr pu (.core (.units (.completePipe e i))) = .ok s') : s'.Awake pu := by
  obtain ⟨hdue, out, rfl, hout⟩ := step_units hstep
  obtain ⟨htick, hold⟩ := of_decide_eq_true hdue
  cases hout with
  | completePipe hcomp =>
    obtain ⟨ri, hri, hcomp⟩ := Option.map_eq_some_iff.mp hcomp
    obtain ⟨rfl, rfl⟩ := Prod.mk.inj hcomp
    refine H.setPipe rfl rfl rfl htick rfl rfl ?_ ?_ fun hfree => .inr ⟨hfree, ?_⟩
    · intro e' he'
      exact ⟨id, List.mem_cons_of_mem _, rfl⟩
    · simp only [react]
      rw [List.length_eraseIdx_of_lt (by omega)]
      omega
    · -- the message takes the place of the completion
      intro n h
      exact h.imp_right (Or.imp_right (And.imp_right fun _ => .inl List.mem_cons_self))

theorem pipeDone (H : s.Awake pu) (hstep : s.step p pd pr pu (.pipeDone e) = .ok s') :
    s'.Awake pu := by
  obtain ⟨u, hen, hstep⟩ := Run.bind_eq_ok.mp hstep
  obtain ⟨htick, hdone⟩ := of_decide_eq_true (enabled_eq_ok.mp hen)
  obtain rfl := Except.ok.inj hstep
  split
  · rename_i hempty
    refine ⟨fun n ri hri e' he' hfree => ?_, H.executed, H.ports⟩
    have hne : e' ≠ e := by
      rintro rfl
      obtain rfl : n = pu.owner e' := (pu.owned n _ e' he').symm
      rw [hempty] at hri
      cases hri
    have h := H.woken n ri hri e' he' hfree
    exact h.imp_right (Or.imp_right (And.imp_right (Or.imp_left
      (List.mem_erase_of_ne hne).mpr)))
  · refine ⟨fun n ri hri e' he' hfree => ?_, fun e' => ?_, fun hp => ?_⟩
    · simp only [scheduleIssue_core] at hri hfree
      have h := H.woken n ri hri e' he' hfree
      by_cases hmsg : n ∉ s.ran ∧ e' = e
      · obtain ⟨hran, rfl⟩ := hmsg
        obtain rfl : n = pu.owner e' := (pu.owned n _ e' he').symm
        exact .inl (mem_scheduleIssue hran)
      · unfold Woken at h ⊢
        simp only [scheduleIssue_core, scheduleIssue_ran, scheduleIssue_executed,
          scheduleIssue_done]
        refine h.imp mem_scheduleIssue_of_mem (Or.imp_right ?_)
        rintro ⟨hran, h⟩
        have hne : e' ≠ e := fun heq => hmsg ⟨hran, heq⟩
        exact ⟨hran, h.imp_left (List.mem_erase_of_ne hne).mpr⟩
    · simp only [scheduleIssue_core, scheduleIssue_executed]
      exact H.executed e'
    · simp only [scheduleIssue_core, scheduleIssue_ran, scheduleIssue_executed] at hp ⊢
      exact H.ports hp

/-- A handler of the LSU. -/
theorem lsuStep {op : UnitsOp} (H : s.Awake pu)
    (hlsu : ∀ out, Units.Stepped pu.toUnitsParams s.core.units s.core.front.table
      s.core.scoreboards op out →
        out.units.iqs = s.core.units.iqs ∧ out.units.pipes = s.core.units.pipes)
    (hreact : ∀ core, s.react core (.units op) = { s with core := core })
    (hstep : s.step p pd pr pu (.core (.units op)) = .ok s') : s'.Awake pu := by
  obtain ⟨-, out, rfl, hout⟩ := step_units hstep
  obtain ⟨hiqs, hpipes⟩ := hlsu out hout
  rw [hreact]
  refine H.of_same (fun n => ?_) hpipes id (fun _ => id) rfl rfl rfl
  rw [hiqs]

/-- Every step keeps the wakeup, when no callback comes after the session of its queue and a flush
finds nothing in a ready queue that has been issued. -/
theorem step {op : IssueEventOp} {hist : List Move} {C : Inst → Prop}
    (I : Core.Inv p x0 pd C hist s.core) (H : s.Awake pu)
    (hcallback : ∀ n i, op = .core (.units (.iqCallback n i)) → n ∉ s.ran)
    (hqueued : op = .core .flush → FlushManager.forwardUpper s.core.front.pendingFlush ≠ none →
      ∀ n, ∀ ri ∈ (s.core.units.iqs n).readyQueue, ri ∈ (s.core.units.iqs n).issueQueue)
    (hstep : s.step p pd pr pu op = .ok s') : s'.Awake pu := by
  rcases op with (op | _ | i | _ | op) | e
  case core.front => exact H.front hstep
  case core.flush => exact H.flush I (hqueued rfl) hstep
  case core.deliverUnit => exact H.deliverUnit hstep
  case core.deliverStoreAck => exact H.deliverStoreAck hstep
  case pipeDone => exact H.pipeDone hstep
  case core.units =>
    cases op with
    | iqCallback n i => exact H.iqCallback (hcallback n i rfl) hstep
    | sendReadyInsts n => exact H.sendReadyInsts hstep
    | executeInst e i random => exact H.executeInst hstep
    | reissueInst e i => exact H.reissueInst hstep
    | completePipe e i => exact H.completePipe hstep
    | _ =>
      refine H.lsuStep (fun out hout => ?_) (fun _ => rfl) hstep
      cases hout
      exact ⟨rfl, rfl⟩

end Awake

/-- A step of the core in its environment is a step of the core. -/
theorem core_step {op : IssueEventOp} (h : s.step p pd pr pu op = .ok s') :
    s'.core = s.core ∨ ∃ op', op = .core op' ∧
      s.core.step p pd pr pu.toUnitsParams op' = .ok s'.core := by
  cases op with
  | core op =>
    obtain ⟨-, -, h⟩ := Run.bind_eq_ok.mp h
    obtain ⟨core, hcore, h⟩ := Run.bind_eq_ok.mp h
    obtain rfl := Except.ok.inj h
    refine .inr ⟨op, rfl, ?_⟩
    have hreact : (s.react core op).core = core := by
      unfold react
      split <;> first | rfl | (split <;> simp)
    rw [hreact]
    exact hcore
  | pipeDone e =>
    obtain ⟨-, -, h⟩ := Run.bind_eq_ok.mp h
    obtain rfl := Except.ok.inj h
    refine .inl ?_
    split
    · rfl
    · simp

end IssueEvent

/-- In every state of a run, an instruction in a ready queue for which a pipe is free has an
issue session scheduled or a completion or message pending that schedules one, if every flush
finds nothing in a ready queue that is no longer in the issue queue.  Scoreboards run their
callbacks before the issue session of the cycle. -/
theorem no_lost_issue_wakeup (p : RenameParams) (x0 : ℕ) (pd : DispatchParams) (pr : RobParams)
    (pu : IssueParams) {ops : List IssueEventOp} {s : IssueEvent}
    (hrun : ops.foldlM (IssueEvent.step p pd pr pu) (IssueEvent.init p x0) = .ok s)
    (hcallback : ∀ t n i, Run.Takes (IssueEvent.step p pd pr pu) (IssueEvent.init p x0) ops t
      (.core (.units (.iqCallback n i))) → n ∉ t.ran)
    (hqueued : ∀ t, Run.Takes (IssueEvent.step p pd pr pu) (IssueEvent.init p x0) ops t
      (.core .flush) → FlushManager.forwardUpper t.core.front.pendingFlush ≠ none →
      ∀ n, ∀ ri ∈ (t.core.units.iqs n).readyQueue, ri ∈ (t.core.units.iqs n).issueQueue)
    {n : ℕ} {ri : RenamedInst} {e : PipeId} (hri : ri ∈ (s.core.units.iqs n).readyQueue)
    (he : e ∈ (pu.iq n).exePipes ri.inst.pipe)
    (hfree : ExecutePipe.canAccept (s.core.units.pipes e) = true) :
    s.Woken n e ∧ (e ∈ s.executed → (s.core.units.pipes e).completeInst ≠ []) := by
  have H : (∃ hist, Core.Inv p x0 pd (fun _ => True) hist s.core) ∧ s.Awake pu := by
    refine (Run.Visits.last hrun).invariant
      (I := fun s => (∃ hist, Core.Inv p x0 pd (fun _ => True) hist s.core) ∧ s.Awake pu)
      ⟨⟨[], Core.inv_init p x0 pd _⟩, IssueEvent.awake_init p x0 pu⟩ ?_
    rintro op t t' ⟨⟨hist, I⟩, H⟩ htakes hstep
    refine ⟨?_, H.step I (fun n i hop => ?_) (fun hop => ?_) hstep⟩
    · rcases IssueEvent.core_step hstep with hcore | ⟨op', -, hcore⟩
      · exact ⟨hist, hcore ▸ I⟩
      · exact ⟨_, I.step (fun _ _ _ _ => trivial) hcore⟩
    · subst hop
      exact hcallback t n i htakes
    · subst hop
      exact hqueued t htakes
  refine ⟨H.2.woken n ri hri e he hfree, fun hexecuted => ?_⟩
  have hcount := H.2.executed e
  have hpos := List.count_pos_iff.mpr hexecuted
  exact List.ne_nil_of_length_pos (by omega)

/-! ## Two runs -/

/-- Scalar instructions and branches go to the first issue queue, vector instructions to the
second. -/
def issueDispatch : DispatchParams where
  dispatchers
    | .int => [.iq 0]
    | .br => [.iq 0]
    | .vmul => [.iq 1]
    | _ => []

/-- Each issue queue has one pipe. -/
def issueUnits : IssueParams where
  units := [.iq 0, .iq 1]
  iq n := { exePipes := fun _ => [n] }
  pipe _ := { enableRandomMisprediction := true }
  owner := id
  owned n t e he := by simpa using he

/-- A writer of `x5`, a writer of `v1`, `vmul.vx v2, v1, x5`, a branch, and `vmul.vv v3, v1, v1`. -/
def vectorScalarInsts : List Inst :=
  [{ uniqueId := 1, programId := 1, dests := [⟨5, .rd, .integer⟩]
     dests_lt := OpInfo.single_lt (nat_lit 5) .rd
     dests_distinct := OpInfo.single_distinct (nat_lit 5) .rd },
   { uniqueId := 2, programId := 2, pipe := .vmul, isVector := true
     dests := [⟨1, .rd, .vector⟩] },
   { uniqueId := 3, programId := 3, pipe := .vmul, isVector := true
     srcs := [⟨1, .rs2, .vector⟩, ⟨5, .rs1, .integer⟩], dests := [⟨2, .rd, .vector⟩] },
   { uniqueId := 4, programId := 4, pipe := .br, isBranch := true },
   { uniqueId := 5, programId := 5, pipe := .vmul, isVector := true
     srcs := [⟨1, .rs2, .vector⟩, ⟨1, .rs1, .vector⟩], dests := [⟨3, .rd, .vector⟩] }]

/-- A cycle: what arrives, the flush phase, and what runs in the tick phase. -/
def cycleOps (arrive tick : List CoreOp) : List IssueEventOp :=
  (.front .nextCycle :: arrive ++ .flush :: tick).map .core

/-- The instructions are dispatched one after the other to their queues, where the two writers
are issued. -/
def issueOps : List IssueEventOp :=
  [.core (.front (.dispatchCredits 10)), .core (.front (.robCredits 30)),
   .core (.front (.unitCredits (.iq 0) 8)), .core (.front (.unitCredits (.iq 1) 8))] ++
  cycleOps [.front (.decoded vectorScalarInsts)] [.front .rename] ++
  cycleOps [.front .deliverRenamed] [.front .rename, .front .dispatch] ++
  cycleOps [.front .deliverRenamed, .front .deliverDispatched, .deliverUnit 0, .deliverUnit 0]
    [.units (.sendReadyInsts 0), .units (.sendReadyInsts 1), .front .dispatch] ++
  cycleOps [.front .deliverDispatched, .deliverUnit 0, .deliverUnit 0]
    [.units (.sendReadyInsts 0), .front .dispatch] ++
  cycleOps [.front .deliverDispatched, .deliverUnit 0] [.units (.executeInst 0 0 false)]

/-- `x5` becomes ready before `v1`, so `vmul.vx` waits twice for the vector file and is ready
twice, before and after `vmul.vv`.  It is issued and executes. -/
def readyTwiceOps : List IssueEventOp := issueOps ++
  cycleOps [.units (.iqCallback 1 0)] [.units (.completePipe 0 0)] ++ [.pipeDone 0] ++
  [.core (.units (.sendReadyInsts 0)), .core (.units (.executeInst 1 0 false))] ++
  cycleOps [.units (.iqCallback 1 0), .units (.iqCallback 1 0), .units (.iqCallback 1 0)]
    [.units (.sendReadyInsts 1), .units (.completePipe 1 0), .units (.executeInst 0 0 true)] ++
  [.pipeDone 1] ++
  cycleOps [] [.units (.executeInst 1 0 false), .units (.completePipe 0 0)] ++ [.pipeDone 0]

/-- `vmul.vv` is issued, and flushed when the branch retires mispredicted. -/
def flushedIssueOps : List IssueEventOp := readyTwiceOps ++
  cycleOps [] [.units (.completePipe 1 0)] ++
  [.pipeDone 1, .core (.units (.sendReadyInsts 1))] ++
  cycleOps [] [.front .retire] ++ cycleOps [.front .deliverAck] []

/-- A callback comes before the session of its queue. -/
def callbackInTime (s : IssueEvent) : IssueEventOp → Bool
  | .core (.units (.iqCallback n _)) => decide (n ∉ s.ran)
  | _ => true

theorem no_lost_issue_wakeup_sample :
    ∃ s ri, readyTwiceOps.foldlM (IssueEvent.step {} issueDispatch {} issueUnits)
        (IssueEvent.init {} 0) = .ok s ∧
      ri ∈ (s.core.units.iqs 1).readyQueue ∧ s.scheduled = [] ∧ s.Woken 1 1 := by
  have hall : Run.along (IssueEvent.step {} issueDispatch {} issueUnits)
      (fun s op => callbackInTime s op && s.core.front.pendingFlush.isNone)
      (IssueEvent.init {} 0) readyTwiceOps = true := by
    decide +kernel
  have heval : (readyTwiceOps.foldlM (IssueEvent.step {} issueDispatch {} issueUnits)
      (IssueEvent.init {} 0)).toOption.map (fun s =>
        ((s.core.units.iqs 1).readyQueue.length, s.scheduled,
          ExecutePipe.canAccept (s.core.units.pipes 1))) = some (2, [], true) := by
    decide +kernel
  obtain ⟨s, hs, hval⟩ := Run.ok_of_eval heval
  obtain ⟨hlen, hval⟩ := Prod.mk.inj hval
  obtain ⟨hscheduled, hfree⟩ := Prod.mk.inj hval
  obtain ⟨ri, hri⟩ := List.exists_mem_of_length_pos (hlen ▸ Nat.two_pos)
  refine ⟨s, ri, hs, hri, hscheduled, (no_lost_issue_wakeup {} 0 issueDispatch {} issueUnits hs
    (fun t n i htakes => ?_) (fun t htakes hforward => ?_) hri (by simp [issueUnits]) hfree).1⟩
  · have htest := Run.Takes.of_along hall htakes
    exact of_decide_eq_true (Bool.and_eq_true_iff.mp htest).1
  · have htest := Run.Takes.of_along hall htakes
    rw [Option.isNone_iff_eq_none.mp (Bool.and_eq_true_iff.mp htest).2] at hforward
    exact absurd rfl hforward

/-- The second entry of `vmul.vx` is left in the ready queue, its pipe is free, and at the end of
the cycle nothing is pending that would start a session. -/
theorem issue_wakeup_lost :
    ∃ s ri, flushedIssueOps.foldlM (IssueEvent.step {} issueDispatch {} issueUnits)
        (IssueEvent.init {} 0) = .ok s ∧
      (∀ t n i, Run.Takes (IssueEvent.step {} issueDispatch {} issueUnits) (IssueEvent.init {} 0)
        flushedIssueOps t (.core (.units (.iqCallback n i))) → n ∉ t.ran) ∧
      s.isDue (.front .nextCycle) = true ∧ ri ∈ (s.core.units.iqs 1).readyQueue ∧
      1 ∈ (issueUnits.iq 1).exePipes ri.inst.pipe ∧
      ExecutePipe.canAccept (s.core.units.pipes 1) = true ∧ ¬s.Woken 1 1 := by
  have hall : Run.along (IssueEvent.step {} issueDispatch {} issueUnits) callbackInTime
      (IssueEvent.init {} 0) flushedIssueOps = true := by
    decide +kernel
  have heval : (flushedIssueOps.foldlM (IssueEvent.step {} issueDispatch {} issueUnits)
      (IssueEvent.init {} 0)).toOption.map (fun s =>
        ((s.core.units.iqs 1).readyQueue.length, ExecutePipe.canAccept (s.core.units.pipes 1),
          s.scheduled.isEmpty && s.executed.isEmpty && s.done.isEmpty &&
            (s.core.units.pipes 1).completeInst.isEmpty)) = some (1, true, true) := by
    decide +kernel
  obtain ⟨s, hs, hval⟩ := Run.ok_of_eval heval
  simp only [Prod.mk.injEq, Bool.and_eq_true, List.isEmpty_iff] at hval
  obtain ⟨hlen, hfree, ⟨⟨hscheduled, hexecuted⟩, hdone⟩, hcomplete⟩ := hval
  obtain ⟨ri, hri⟩ := List.exists_mem_of_length_pos (hlen ▸ Nat.one_pos)
  refine ⟨s, ri, hs, fun t n i htakes => ?_, by simp [IssueEvent.isDue, hscheduled, hdone], hri,
    by simp [issueUnits], hfree, ?_⟩
  · have htest := Run.Takes.of_along hall htakes
    exact of_decide_eq_true htest
  · rw [IssueEvent.Woken, hscheduled, hexecuted, hdone, hcomplete]
    simp

end Olympia
