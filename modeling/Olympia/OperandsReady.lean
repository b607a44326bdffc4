import Olympia.Core

/-!
# Operands are ready at issue

Readiness is tested when an instruction arrives at its unit and again when a callback fires, in
pieces.  An issue queue tests the sources of each register file; the LSU tests the address in the
integer file and, for a store only, the data.  What was tested stays true: the instruction is in
the reorder buffer and not completed, so what it reads is referenced and not taken from a free
list (`Core.Inv`).

The data register of an instruction that the LSU executes and that is no store, and an address
register outside the integer file, are tested nowhere.  `Inst.checkedBy` says that an instruction
has no such operand; `operands_ready_at_issue` that the others are never issued too early, and
`rmw_issued_before_data` that an atomic memory operation is.
-/

namespace Olympia

/-- Every physical register recorded as a source or as the data register is ready; `x0` has
none. -/
structure RenamedInst.OperandsReady (sb : Scoreboards) (ri : RenamedInst) : Prop where
  sources : ∀ r ∈ ri.src, sb r.opInfo.regFile r.physReg = true
  data : ∀ r, ri.dataReg = some r → r.opInfo.isX0 = false → sb r.opInfo.regFile r.physReg = true

/-- The unit tests every operand of the instruction. -/
def Inst.checkedBy (i : Inst) : UnitId → Bool
  | .iq _ => i.srcs.all fun o => o.isX0 || !i.isDataOperand o
  | .lsu => i.srcs.all (fun o => o.isX0 || i.isDataOperand o || o.regFile == .integer) &&
      (i.isStore || i.srcs.all fun o => o.isX0 || !i.isDataOperand o)

namespace RenamedInst.WellRenamed

variable {p : RenameParams} {m : ArchReg → ℕ} {ri : RenamedInst} {sb : Scoreboards}

/-- An instruction without data operand has no data register but `x0`. -/
theorem dataReg_isX0 {r : Reg} (hwell : ri.WellRenamed p m)
    (hnone : (ri.inst.srcs.all fun o => o.isX0 || !ri.inst.isDataOperand o) = true)
    (hr : ri.dataReg = some r) : r.opInfo.isX0 = true := by
  obtain ⟨hmem, hdata⟩ := hwell.sources.data_mem r hr
  by_contra hx0
  have hx0 : r.opInfo.isX0 = false := by simpa using hx0
  have hop := List.all_eq_true.mp hnone _ hmem
  rw [hx0, (hdata hx0).1] at hop
  cases hop

theorem ready_of_iq {n : ℕ} (hwell : ri.WellRenamed p m)
    (hchecked : ri.inst.checkedBy (.iq n) = true)
    (hready : IssueQueue.filesNotReady sb ri = []) : ri.OperandsReady sb where
  sources r hr := by
    refine IssueQueue.filesNotReady_eq_nil.mp hready _ ?_ _ (hwell.sources.src_mem_srcMask hr)
    exact List.ne_nil_of_mem (List.mem_filter.mpr ⟨hr, by simp⟩)
  data r hr hx0 := by
    rw [hwell.dataReg_isX0 hchecked hr] at hx0
    cases hx0

theorem ready_of_lsu (hwell : ri.WellRenamed p m) (hchecked : ri.inst.checkedBy .lsu = true)
    (hready : Lsu.Checked sb ri) : ri.OperandsReady sb := by
  obtain ⟨haddr, hstore⟩ := (Bool.and_eq_true _ _).mp hchecked
  constructor
  · intro r hr
    -- an address register is in the integer file, where all bits have been tested
    have hint : r.opInfo.regFile = .integer := by
      rw [hwell.sources.src_eq] at hr
      obtain ⟨o, ho, rfl⟩ := List.mem_map.mp hr
      obtain ⟨ho, hkeep⟩ := List.mem_filter.mp ho
      have hop := List.all_eq_true.mp haddr o ho
      simp only [Bool.and_eq_true, Bool.not_eq_true'] at hkeep
      rw [hkeep.1, hkeep.2] at hop
      simpa [readReg] using hop
    have hmask := hwell.sources.src_mem_srcMask hr
    rw [hint] at hmask ⊢
    exact Scoreboard.isSet_iff.mp hready.1 _ hmask
  · intro r hr hx0
    rcases (Bool.or_eq_true _ _).mp hstore with hstore | hnone
    · rcases Lsu.dataNotReady_eq_nil.mp (hready.2 hstore) with hany | hset
      · rw [hr, Option.any_some, hx0] at hany
        cases hany
      · exact hset _ _ (hwell.sources.dataReg_mem_dataMask hr hx0)
    · rw [hwell.dataReg_isX0 hnone hr] at hx0
      cases hx0

end RenamedInst.WellRenamed

/-- In every state of a run whose instructions have all their operands tested by the units that
serve them, whatever a handler passes to an execution pipe, or puts into the load/store pipeline
for the first time, has all operands ready. -/
theorem operands_ready_at_issue (p : RenameParams) (x0 : ℕ) (pd : DispatchParams) (pr : RobParams)
    (pu : UnitsParams) {ops : List CoreOp} {hist : List Move} {c : Core}
    (hchecked : ∀ i ∈ Core.decoded ops, ∀ d ∈ pd.dispatchers i.pipe, i.checkedBy d = true)
    (hrun : ops.foldlM (Core.run p pd pr pu) ([], Core.init p x0) = .ok (hist, c))
    {op : UnitsOp} {out : UnitsOut}
    (hout : c.units.step pu c.front.table c.scoreboards op = .ok out) :
    (∀ x ∈ out.issued, x.2.OperandsReady c.scoreboards) ∧
      ∀ ri, out.lsuIssued = some ri → ⟨ri, .lsuIssued⟩ ∉ hist →
        ri.OperandsReady c.scoreboards := by
  obtain ⟨H, -⟩ := Core.run_invariant (I := fun _ _ => True) hchecked hrun trivial
    fun _ _ _ _ _ _ _ _ => trivial
  have D := H.units.step H.view_unique hout
  constructor
  · intro x hx
    obtain ⟨n, ⟨hren, hserves⟩, hready⟩ := D.issued x hx
    obtain ⟨⟨m, hwell⟩, hcond⟩ := H.renamed x.2 hren
    exact hwell.ready_of_iq (hcond _ hserves) hready
  · intro ri hri hfirst
    rcases D.lsuIssued ri hri with ⟨⟨hren, -⟩, hplace⟩ | ⟨⟨⟨hren, hserves⟩, -, -⟩, hready⟩
    · -- it has been issued before
      obtain ⟨rj, hrj, hkey⟩ := mem_of_placeAfter hplace
      rw [H.unique rj ri (H.moved _ hrj) hren hkey] at hrj
      exact absurd hrj hfirst
    · obtain ⟨⟨m, hwell⟩, hcond⟩ := H.renamed ri hren
      exact hwell.ready_of_lsu (hcond _ hserves) hready

/-! ## Two runs -/

/-- An integer instruction, and an instruction of the LSU that reads its result. -/
def producer : Inst :=
  { uniqueId := 1, programId := 1, srcs := [⟨1, .rs1, .integer⟩], dests := [⟨5, .rd, .integer⟩]
    srcs_lt := OpInfo.single_lt (nat_lit 1) .rs1
    dests_lt := OpInfo.single_lt (nat_lit 5) .rd
    dests_distinct := OpInfo.single_distinct (nat_lit 5) .rd }

theorem storeSrcs_lt :
    ∀ o ∈ [(⟨1, .rs1, .integer⟩ : OpInfo), ⟨5, .rs2, .integer⟩], o.fieldValue < 32 := by decide

/-- `sw x5, (x1)`. -/
def storeWord : Inst :=
  { uniqueId := 2, programId := 2, pipe := .lsu, isStore := true
    srcs := [⟨1, .rs1, .integer⟩, ⟨5, .rs2, .integer⟩]
    srcs_lt := storeSrcs_lt }

/-- `amoadd.w x3, x5, (x1)`: an instruction of the LSU that is no store. -/
def amoaddWord : Inst :=
  { uniqueId := 2, programId := 2, pipe := .lsu
    srcs := [⟨1, .rs1, .integer⟩, ⟨5, .rs2, .integer⟩], dests := [⟨3, .rd, .integer⟩]
    srcs_lt := storeSrcs_lt
    dests_lt := OpInfo.single_lt (nat_lit 3) .rd
    dests_distinct := OpInfo.single_distinct (nat_lit 3) .rd }

def smallDispatch : DispatchParams where
  dispatchers
    | .int => [.iq 0]
    | .lsu => [.lsu]
    | _ => []

def smallUnits : UnitsParams where
  units := [.iq 0, .lsu]
  iq _ := { exePipes := fun pipe => if pipe = .int then [0] else [] }

/-- Two instructions are decoded, renamed and dispatched, and arrive at their units. -/
def arrivalOps (second : Inst) : List CoreOp :=
  [.front (.dispatchCredits 10), .front (.robCredits 30), .front (.unitCredits (.iq 0) 8),
   .front (.unitCredits .lsu 8), .front .nextCycle, .front (.decoded [producer, second]), .flush,
   .front .rename, .front .nextCycle, .front .deliverRenamed, .flush, .front .dispatch,
   .front .nextCycle, .front .deliverDispatched, .deliverUnit 0, .deliverUnit 0]

/-- The store waits until the producer has executed. -/
def waitedOps : List CoreOp :=
  arrivalOps storeWord ++ [.flush, .units (.sendReadyInsts 0), .units (.executeInst 0 0 false),
    .units (.lsu (.callback 0))]

/-- The queue passes the producer to a pipe, and later the LSU issues the store, which it cannot
when the store has arrived. -/
theorem operands_ready_at_issue_sample :
    (∃ hist c out, (arrivalOps storeWord).foldlM (Core.run {} smallDispatch {} smallUnits)
        ([], Core.init {} 0) = .ok (hist, c) ∧
      (∀ late, c.units.step smallUnits c.front.table c.scoreboards .issueInst ≠ .ok late) ∧
      c.units.step smallUnits c.front.table c.scoreboards (.sendReadyInsts 0) = .ok out ∧
      out.issued.length = 1 ∧ ∀ x ∈ out.issued, x.2.OperandsReady c.scoreboards) ∧
    ∃ hist c out ri, waitedOps.foldlM (Core.run {} smallDispatch {} smallUnits)
        ([], Core.init {} 0) = .ok (hist, c) ∧
      c.units.step smallUnits c.front.table c.scoreboards .issueInst = .ok out ∧
      out.lsuIssued = some ri ∧ ri.inst.isStore = true ∧ ri.OperandsReady c.scoreboards := by
  have harrived : ((arrivalOps storeWord).foldlM (Core.run {} smallDispatch {} smallUnits)
      ([], Core.init {} 0)).toOption.map (fun hc =>
        ((hc.2.units.step smallUnits hc.2.front.table hc.2.scoreboards .issueInst).toBool,
          (hc.2.units.step smallUnits hc.2.front.table hc.2.scoreboards
            (.sendReadyInsts 0)).toOption.map fun out => out.issued.length)) =
        some (false, some 1) := by
    decide +kernel
  have hwaited : (waitedOps.foldlM (Core.run {} smallDispatch {} smallUnits)
      ([], Core.init {} 0)).toOption.map (fun hc =>
        (hc.1.all fun m => decide (m.place ≠ .lsuIssued),
          (hc.2.units.step smallUnits hc.2.front.table hc.2.scoreboards .issueInst).toOption.map
            fun out => out.lsuIssued.map fun ri => ri.inst.isStore)) =
        some (true, some (some true)) := by
    decide +kernel
  constructor
  · obtain ⟨⟨hist, c⟩, hrun, hval⟩ := Run.ok_of_eval harrived
    obtain ⟨hearly, hval⟩ := Prod.mk.inj hval
    obtain ⟨out, hout, hlen⟩ := Run.ok_of_eval hval
    refine ⟨hist, c, out, hrun, fun late hlate => ?_, hout, hlen, ?_⟩
    · rw [hlate] at hearly
      cases hearly
    · exact (operands_ready_at_issue {} 0 smallDispatch {} smallUnits (by decide) hrun hout).1
  · obtain ⟨⟨hist, c⟩, hrun, hval⟩ := Run.ok_of_eval hwaited
    obtain ⟨hhist, hval⟩ := Prod.mk.inj hval
    obtain ⟨out, hout, hval⟩ := Run.ok_of_eval hval
    obtain ⟨ri, hri, hstore⟩ := Option.map_eq_some_iff.mp hval
    refine ⟨hist, c, out, ri, hrun, hout, hri, hstore, ?_⟩
    refine (operands_ready_at_issue {} 0 smallDispatch {} smallUnits (by decide) hrun hout).2 ri hri
      fun hmem => ?_
    have hne := List.all_eq_true.mp hhist _ hmem
    simp at hne

/-- The atomic memory operation enters the load/store pipeline for the first time while the
register of its data is not ready. -/
theorem rmw_issued_before_data :
    ∃ hist c out ri, (arrivalOps amoaddWord).foldlM (Core.run {} smallDispatch {} smallUnits)
        ([], Core.init {} 0) = .ok (hist, c) ∧
      c.units.step smallUnits c.front.table c.scoreboards .issueInst = .ok out ∧
      out.lsuIssued = some ri ∧ ⟨ri, .lsuIssued⟩ ∉ hist ∧ ¬ri.OperandsReady c.scoreboards := by
  have heval : ((arrivalOps amoaddWord).foldlM (Core.run {} smallDispatch {} smallUnits)
      ([], Core.init {} 0)).toOption.map (fun hc =>
        (hc.1.all fun m => decide (m.place ≠ .lsuIssued),
          (hc.2.units.step smallUnits hc.2.front.table hc.2.scoreboards .issueInst).toOption.map
            fun out => out.lsuIssued.map fun ri => ri.dataReg.map fun r =>
              (r.opInfo.isX0, hc.2.scoreboards r.opInfo.regFile r.physReg)))
      = some (true, some (some (some (false, false)))) := by
    decide +kernel
  obtain ⟨⟨hist, c⟩, hrun, hval⟩ := Run.ok_of_eval heval
  obtain ⟨hhist, hval⟩ := Prod.mk.inj hval
  obtain ⟨out, hout, hval⟩ := Run.ok_of_eval hval
  obtain ⟨ri, hri, hval⟩ := Option.map_eq_some_iff.mp hval
  obtain ⟨r, hr, hval⟩ := Option.map_eq_some_iff.mp hval
  obtain ⟨hx0, hbit⟩ := Prod.mk.inj hval
  refine ⟨hist, c, out, ri, hrun, hout, hri, fun hmem => ?_, fun hready => ?_⟩
  · have hne := List.all_eq_true.mp hhist _ hmem
    simp at hne
  · rw [hready.data r hr hx0] at hbit
    cases hbit

end Olympia
