import Olympia.Dispatch
import Olympia.Execute.IssueQueue
import Olympia.Lsu.Model

/-!
# The execution units

The issue queues, the execution pipes and the LSU together: what Dispatch sends instructions to,
and what sets the scoreboard bits and the statuses of instructions.  `Units.step` is any handler
of any of them.  Its result also says which credits it returns, which instructions it passes to
an execution pipe, which one it puts into the load/store pipeline and which one has executed its
final pass.

The credit loop of a unit is the same for all: an instruction that leaves the queue of the unit
returns one credit (`Units.step_stored`, `Units.flush_stored`).
-/

namespace Olympia

/-- The units of a core: which of them exist, and their parameters. -/
structure UnitsParams where
  units : List UnitId
  iq : ℕ → IssueQueueParams := fun _ => {}
  pipe : PipeId → ExecutePipeParams := fun _ => {}
  lsu : LsuParams := {}
  units_nodup : units.Nodup := by decide

/-- The size of the queue of a unit, which it sends to Dispatch as its first credits. -/
def UnitsParams.capacity (p : UnitsParams) : UnitId → ℕ
  | .iq n => (p.iq n).schedulerSize
  | .lsu => p.lsu.ldstInstQueueSize

theorem UnitsParams.capacity_lt (p : UnitsParams) (d : UnitId) : p.capacity d < 2 ^ 32 := by
  rcases d with n | _
  · exact (p.iq n).schedulerSize_lt
  · exact p.lsu.ldstInstQueueSize_lt

structure Units where
  iqs : ℕ → IssueQueueState := fun _ => {}
  pipes : PipeId → ExecutePipeState := fun _ => {}
  lsu : LsuState := {}

/-- The handlers of the units.  A number `i` picks one of the outstanding callbacks or events. -/
inductive UnitsOp where
  -- issue queue `n`
  | iqCallback (n i : ℕ)
  | sendReadyInsts (n : ℕ)
  -- execution pipe `e`
  | executeInst (e : PipeId) (i : ℕ) (random : Bool)
  | reissueInst (e : PipeId) (i : ℕ)
  | completePipe (e : PipeId) (i : ℕ)
  -- LSU
  | issueInst
  | completeLsu
  | lsu (op : LsuOp)

/-- What a handler leaves behind. -/
structure UnitsOut where
  units : Units
  table : InstTable
  scoreboards : Scoreboards
  /-- the credit messages to the dispatchers -/
  credits : List (UnitId × ℕ) := []
  /-- the instructions passed to `ExecutePipe::insertInst` by an issue queue -/
  issued : List (PipeId × RenamedInst) := []
  /-- the instruction put into `ldst_pipeline_` -/
  lsuIssued : Option RenamedInst := none
  /-- the instruction that has executed its final pass -/
  executed : Option RenamedInst := none

/-- The credits for one unit among some messages. -/
def creditsFor (msgs : List (UnitId × ℕ)) (d : UnitId) : ℕ :=
  ((msgs.filter fun m => m.1 = d).map Prod.snd).sum

theorem creditsFor_append (a b : List (UnitId × ℕ)) (d : UnitId) :
    creditsFor (a ++ b) d = creditsFor a d + creditsFor b d := by
  simp [creditsFor]

theorem creditsFor_cons (m : UnitId × ℕ) (msgs : List (UnitId × ℕ)) (d : UnitId) :
    creditsFor (m :: msgs) d = (if m.1 = d then m.2 else 0) + creditsFor msgs d := by
  by_cases hm : m.1 = d
  · simp [creditsFor, hm]
  · simp [creditsFor, hm]

/-- One message for each of several units. -/
theorem creditsFor_map {units : List UnitId} (hnodup : units.Nodup) (g : UnitId → ℕ)
    (d : UnitId) :
    creditsFor (units.map fun e => (e, g e)) d = if d ∈ units then g d else 0 := by
  induction units with
  | nil => rfl
  | cons e units ih =>
    obtain ⟨hnot, hnodup⟩ := List.nodup_cons.mp hnodup
    rw [List.map_cons, creditsFor_cons, ih hnodup]
    by_cases hed : e = d
    · subst hed
      simp [hnot]
    · simp [hed, Ne.symm hed]

/-- A message without credits may as well not be sent. -/
theorem creditsFor_filter (msgs : List (UnitId × ℕ)) (d : UnitId) :
    creditsFor (msgs.filter fun m => m.2 ≠ 0) d = creditsFor msgs d := by
  induction msgs with
  | nil => rfl
  | cons m msgs ih =>
    by_cases hm : m.2 = 0
    · rw [List.filter_cons_of_neg (by simpa using hm), ih, creditsFor_cons]
      simp [hm]
    · rw [List.filter_cons_of_pos (by simpa using hm), creditsFor_cons, creditsFor_cons, ih]

namespace Units

/-- The entries in the queue of a unit. -/
def stored (u : Units) : UnitId → ℕ
  | .iq n => (u.iqs n).issueQueue.length
  | .lsu => u.lsu.ldstInstQueue.length

/-- An instruction from Dispatch arrives. -/
def receive (p : UnitsParams) (u : Units) (T : InstTable) (sb : Scoreboards) (d : UnitId)
    (ri : RenamedInst) : Except Assertion (Units × InstTable) :=
  match d with
  | .iq n => do
    let iq ← IssueQueue.receiveInstsFromDispatch (p.iq n) sb T (u.iqs n) ri
    return ({ u with iqs := Function.update u.iqs n iq }, T)
  | .lsu => do
    let (lsu, T) ← Lsu.getInstsFromDispatch p.lsu sb u.lsu T ri
    return ({ u with lsu := lsu }, T)

/-- The flush handlers of the units. -/
def flush (u : Units) (c : FlushingCriteria) : Units where
  iqs := fun n => (IssueQueue.flushInst (u.iqs n) c).1
  pipes := fun e => ExecutePipe.flushInst (u.pipes e) c
  lsu := (Lsu.handleFlush u.lsu c).1

/-- The credits the flush handler of a unit returns. -/
def flushCredits (u : Units) (c : FlushingCriteria) : UnitId → ℕ
  | .iq n => (IssueQueue.flushInst (u.iqs n) c).2
  | .lsu => (Lsu.handleFlush u.lsu c).2

/-- A change of the LSU other than of its queues. -/
def setWork (u : Units) (w : LsuWork) : Units := { u with lsu := { u.lsu with work := w } }

/-- One handler of one of the units. -/
def step (p : UnitsParams) (u : Units) (T : InstTable) (sb : Scoreboards) (op : UnitsOp) :
    Except Stop UnitsOut :=
  match op with
  | .iqCallback n i => do
    let iq ← outstanding ((IssueQueue.readyCallback (p.iq n) sb (u.iqs n) i).map .ok)
    return { units := { u with iqs := Function.update u.iqs n iq }, table := T, scoreboards := sb }
  | .sendReadyInsts n => do
    let (iq, st) ← checked (IssueQueue.sendReadyInsts (p.iq n) p.pipe (u.iqs n) u.pipes T)
    return {
      units := { u with iqs := Function.update u.iqs n iq, pipes := st.pipes }
      table := st.table
      scoreboards := sb
      credits := st.issued.map fun _ => (.iq n, 1)
      issued := st.issued }
  | .executeInst e i random => do
    let (pipe, T, sb, executed) ← outstanding
      ((ExecutePipe.executeInst (p.pipe e) (u.pipes e) T sb i random).map .ok)
    return {
      units := { u with pipes := Function.update u.pipes e pipe }
      table := T
      scoreboards := sb
      executed := executed }
  | .reissueInst e i => do
    let (pipe, T) ← outstanding (ExecutePipe.reissueInst (p.pipe e) (u.pipes e) T i)
    return {
      units := { u with pipes := Function.update u.pipes e pipe }
      table := T
      scoreboards := sb }
  | .completePipe e i => do
    let (pipe, T) ← outstanding ((ExecutePipe.completeInst (u.pipes e) T i).map .ok)
    return {
      units := { u with pipes := Function.update u.pipes e pipe }
      table := T
      scoreboards := sb }
  | .issueInst => do
    let (w, ri) ← checked (Lsu.issueInst p.lsu u.lsu.work)
    return { units := u.setWork w, table := T, scoreboards := sb, lsuIssued := some ri }
  | .completeLsu => do
    let out ← checked (Lsu.completeInst p.lsu u.lsu T sb)
    return {
      units := { u with lsu := out.state }
      table := out.table
      scoreboards := out.scoreboards
      credits := if out.credits ≠ 0 then [(.lsu, out.credits)] else [] }
  | .lsu op => do
    let (w, T) ← Lsu.workStep p.lsu u.lsu T sb op
    return { units := u.setWork w, table := T, scoreboards := sb }

/-! ## What a handler does -/

/-- What the arrival of an instruction does. -/
inductive Received (p : UnitsParams) (u : Units) (T : InstTable) (sb : Scoreboards)
    (ri : RenamedInst) : UnitId → Units → InstTable → Prop where
  | iq {n : ℕ} (hstatus : T.status ri.key = .dispatched)
      (hroom : (u.iqs n).issueQueue.length ≤ (p.iq n).schedulerSize) :
    Received p u T sb ri (.iq n) { u with
      iqs := Function.update u.iqs n (IssueQueue.handleOperandIssueCheck (p.iq n) sb
        { u.iqs n with issueQueue := (u.iqs n).issueQueue ++ [ri] } ri) } T
  | lsu {lsu : LsuState} {T' : InstTable}
      (hlsu : Lsu.getInstsFromDispatch p.lsu sb u.lsu T ri = .ok (lsu, T')) :
    Received p u T sb ri .lsu { u with lsu := lsu } T'

theorem receive_received {p : UnitsParams} {u u' : Units} {T T' : InstTable} {sb : Scoreboards}
    {d : UnitId} {ri : RenamedInst} (h : u.receive p T sb d ri = .ok (u', T')) :
    Received p u T sb ri d u' T' := by
  cases d with
  | iq n =>
    obtain ⟨iq, hiq, h⟩ := Run.bind_eq_ok.mp h
    obtain ⟨rfl, rfl⟩ := Prod.mk.inj (Except.ok.inj h)
    obtain ⟨u₁, hstatus, hiq⟩ := Run.bind_eq_ok.mp hiq
    obtain ⟨u₂, hroom, hiq⟩ := Run.bind_eq_ok.mp hiq
    obtain rfl := Except.ok.inj hiq
    exact .iq (of_decide_eq_true (spartaAssert_eq_ok.mp hstatus))
      (of_decide_eq_true (spartaAssert_eq_ok.mp hroom))
  | lsu =>
    obtain ⟨⟨lsu, T₁⟩, hlsu, h⟩ := Run.bind_eq_ok.mp h
    obtain ⟨rfl, rfl⟩ := Prod.mk.inj (Except.ok.inj h)
    exact .lsu hlsu

/-- What a handler can do. -/
inductive Stepped (p : UnitsParams) (u : Units) (T : InstTable) (sb : Scoreboards) :
    UnitsOp → UnitsOut → Prop where
  | iqCallback {n i : ℕ} {iq : IssueQueueState}
      (hcb : IssueQueue.readyCallback (p.iq n) sb (u.iqs n) i = some iq) :
    Stepped p u T sb (.iqCallback n i)
      { units := { u with iqs := Function.update u.iqs n iq }, table := T, scoreboards := sb }
  | sendReadyInsts {n : ℕ} {iq : IssueQueueState} {st : IssueQueue.SendState}
      (hsend : IssueQueue.sendReadyInsts (p.iq n) p.pipe (u.iqs n) u.pipes T = .ok (iq, st)) :
    Stepped p u T sb (.sendReadyInsts n) {
      units := { u with iqs := Function.update u.iqs n iq, pipes := st.pipes }
      table := st.table
      scoreboards := sb
      credits := st.issued.map fun _ => (.iq n, 1)
      issued := st.issued }
  | executeInst {e : PipeId} {i : ℕ} {random : Bool} {pipe : ExecutePipeState} {T' : InstTable}
      {sb' : Scoreboards} {executed : Option RenamedInst}
      (hexe : ExecutePipe.executeInst (p.pipe e) (u.pipes e) T sb i random =
        some (pipe, T', sb', executed)) :
    Stepped p u T sb (.executeInst e i random) {
      units := { u with pipes := Function.update u.pipes e pipe }
      table := T'
      scoreboards := sb'
      executed := executed }
  | reissueInst {e : PipeId} {i : ℕ} {pipe : ExecutePipeState} {T' : InstTable}
      (hre : ExecutePipe.reissueInst (p.pipe e) (u.pipes e) T i = some (.ok (pipe, T'))) :
    Stepped p u T sb (.reissueInst e i) {
      units := { u with pipes := Function.update u.pipes e pipe }
      table := T'
      scoreboards := sb }
  | completePipe {e : PipeId} {i : ℕ} {pipe : ExecutePipeState} {T' : InstTable}
      (hcomp : ExecutePipe.completeInst (u.pipes e) T i = some (pipe, T')) :
    Stepped p u T sb (.completePipe e i) {
      units := { u with pipes := Function.update u.pipes e pipe }
      table := T'
      scoreboards := sb }
  | issueInst {w : LsuWork} {ri : RenamedInst}
      (hissue : Lsu.issueInst p.lsu u.lsu.work = .ok (w, ri)) :
    Stepped p u T sb .issueInst
      { units := u.setWork w, table := T, scoreboards := sb, lsuIssued := some ri }
  | completeLsu {out : Lsu.CompleteOut} (hcomp : Lsu.completeInst p.lsu u.lsu T sb = .ok out) :
    Stepped p u T sb .completeLsu {
      units := { u with lsu := out.state }
      table := out.table
      scoreboards := out.scoreboards
      credits := if out.credits ≠ 0 then [(.lsu, out.credits)] else [] }
  | lsu {op : LsuOp} {w : LsuWork} {T' : InstTable}
      (hwork : Lsu.workStep p.lsu u.lsu T sb op = .ok (w, T')) :
    Stepped p u T sb (.lsu op) { units := u.setWork w, table := T', scoreboards := sb }

theorem step_stepped {p : UnitsParams} {u : Units} {T : InstTable} {sb : Scoreboards}
    {op : UnitsOp} {out : UnitsOut} (h : u.step p T sb op = .ok out) :
    Stepped p u T sb op out := by
  cases op with
  | iqCallback n i =>
    obtain ⟨iq, hiq, h⟩ := Run.bind_eq_ok.mp h
    obtain rfl := Except.ok.inj h
    obtain ⟨iq', hcb, heq⟩ := Option.map_eq_some_iff.mp (outstanding_eq_ok.mp hiq)
    obtain rfl := Except.ok.inj heq
    exact .iqCallback hcb
  | sendReadyInsts n =>
    obtain ⟨⟨iq, st⟩, hsend, h⟩ := Run.bind_eq_ok.mp h
    obtain rfl := Except.ok.inj h
    exact .sendReadyInsts (checked_eq_ok.mp hsend)
  | executeInst e i random =>
    obtain ⟨⟨pipe, T', sb', executed⟩, hexe, h⟩ := Run.bind_eq_ok.mp h
    obtain rfl := Except.ok.inj h
    obtain ⟨r, hexe, heq⟩ := Option.map_eq_some_iff.mp (outstanding_eq_ok.mp hexe)
    obtain rfl := Except.ok.inj heq
    exact .executeInst hexe
  | reissueInst e i =>
    obtain ⟨⟨pipe, T'⟩, hre, h⟩ := Run.bind_eq_ok.mp h
    obtain rfl := Except.ok.inj h
    exact .reissueInst (outstanding_eq_ok.mp hre)
  | completePipe e i =>
    obtain ⟨⟨pipe, T'⟩, hcomp, h⟩ := Run.bind_eq_ok.mp h
    obtain rfl := Except.ok.inj h
    obtain ⟨r, hcomp, heq⟩ := Option.map_eq_some_iff.mp (outstanding_eq_ok.mp hcomp)
    obtain rfl := Except.ok.inj heq
    exact .completePipe hcomp
  | issueInst =>
    obtain ⟨⟨w, ri⟩, hissue, h⟩ := Run.bind_eq_ok.mp h
    obtain rfl := Except.ok.inj h
    exact .issueInst (checked_eq_ok.mp hissue)
  | completeLsu =>
    obtain ⟨out, hcomp, h⟩ := Run.bind_eq_ok.mp h
    obtain rfl := Except.ok.inj h
    exact .completeLsu (checked_eq_ok.mp hcomp)
  | lsu op =>
    obtain ⟨⟨w, T'⟩, hwork, h⟩ := Run.bind_eq_ok.mp h
    obtain rfl := Except.ok.inj h
    exact .lsu hwork

/-! ## The credits of the units -/

/-- Each credit a handler returns is for an instruction that leaves the queue of its unit. -/
theorem step_stored {p : UnitsParams} {u : Units} {T : InstTable} {sb : Scoreboards}
    {op : UnitsOp} {out : UnitsOut} (h : u.step p T sb op = .ok out) (d : UnitId) :
    out.units.stored d + creditsFor out.credits d = u.stored d := by
  cases step_stepped h with
  | @iqCallback n i iq hcb =>
    have hq : iq.issueQueue = (u.iqs n).issueQueue := by
      unfold IssueQueue.readyCallback at hcb
      split at hcb
      · cases hcb
      · split at hcb
        · obtain rfl := Option.some.inj hcb
          simp
        · cases hcb
    rcases d with m | _
    · by_cases hm : m = n
      · subst hm
        simp [stored, creditsFor, hq]
      · simp [stored, creditsFor, hm]
    · rfl
  | @sendReadyInsts n iq st hsend =>
    have hlen := IssueQueue.sendReadyInsts_length hsend
    have hcred : ∀ e, creditsFor (st.issued.map fun _ => (UnitId.iq n, 1)) e
        = if e = .iq n then st.issued.length else 0 := by
      intro e
      by_cases he : e = .iq n
      · subst he
        simp [creditsFor]
      · simp [creditsFor, he, Ne.symm he]
    rw [hcred]
    rcases d with m | _
    · by_cases hm : m = n
      · subst hm
        simpa [stored] using hlen
      · simp [stored, hm]
    · simp [stored]
  | @completeLsu lsu hcomp =>
    have hlen := Lsu.completeInst_length hcomp
    have hcred : ∀ e, creditsFor (if lsu.credits ≠ 0 then [(UnitId.lsu, lsu.credits)] else []) e
        = if e = .lsu then lsu.credits else 0 := by
      intro e
      rcases e with m | _
      · split <;> simp [creditsFor]
      · split <;> simp_all [creditsFor]
    rw [hcred]
    rcases d with m | _
    · simp [stored]
    · simpa [stored] using hlen
  | _ => cases d <;> rfl

theorem flush_stored (u : Units) (c : FlushingCriteria) (d : UnitId) :
    (u.flush c).stored d + u.flushCredits c d = u.stored d := by
  rcases d with n | _
  · exact IssueQueue.flushInst_length (u.iqs n) c
  · exact Lsu.handleFlush_length u.lsu c

theorem receive_stored {p : UnitsParams} {u u' : Units} {T T' : InstTable} {sb : Scoreboards}
    {d : UnitId} {ri : RenamedInst} (h : u.receive p T sb d ri = .ok (u', T')) (e : UnitId) :
    u'.stored e = u.stored e + if e = d then 1 else 0 := by
  cases receive_received h with
  | @iq n =>
    rcases e with m | _
    · by_cases hm : m = n
      · subst hm
        simp [stored]
      · simp [stored, hm]
    · simp [stored]
  | lsu hlsu =>
    obtain ⟨-, -, hlsu⟩ := Run.bind_eq_ok.mp hlsu
    obtain ⟨-, -, hlsu⟩ := Run.bind_eq_ok.mp hlsu
    obtain ⟨⟨w, T₂⟩, -, hlsu⟩ := Run.bind_eq_ok.mp hlsu
    obtain ⟨rfl, rfl⟩ := Prod.mk.inj (Except.ok.inj hlsu)
    rcases e with m | _
    · simp [stored]
    · simp [stored]

end Units

end Olympia
