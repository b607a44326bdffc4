import Mathlib.Algebra.Order.Floor.Div
import Mathlib.GroupTheory.GroupAction.Ring
import Olympia.Decode

/-!
# The uops of an instruction

An instruction that the uop generator does not split is sent itself, and one that it splits is sent
as `uopCount` uops, numbered from zero.  `remaining` is what the generator still has to emit: all
of them when it has got the instruction (`Consistent.setInst`), and one less with each uop
(`Consistent.generateUop`).  This is for instructions with at least one uop: for a `VL` of zero
the generator emits one uop and does not get idle again.

`Splittable` says when the generator does not stop at an assertion.
-/

namespace Olympia

namespace VectorUopGenerator

/-- The number of uops of an instruction: one for each register of the group that its elements
fill, twice as many for a wide result, and one for each register of a whole-register
instruction. -/
def uopCount (i : Inst) : ℕ :=
  let n := i.vectorConfig.vl ⌈/⌉ (VectorConfig.vlen / i.vectorConfig.sew)
  if isWide i.uopGen then 2 * n
  else if i.isVectorWholeRegister then
    match i.mavisUid with
    | .vmv1r => 1
    | .vmv2r => 2
    | .vmv4r => 4
    | .vmv8r => 8
    | _ => i.nf
  else n

theorem numUops_eq_uopCount (i : Inst) : numUops i = uopCount i := by
  simp only [uopCount, Nat.ceilDiv_eq_add_pred_div, Nat.mul_comm 2]
  rfl

/-- What identifies a uop: its unique, its program and its uop identifier. -/
def serial (i : Inst) : ℕ × ℕ × ℕ := (i.uniqueId, i.programId, i.uopId)

/-- What is sent for an instruction. -/
def uopSerials (i : Inst) : List (ℕ × ℕ × ℕ) :=
  if Decode.usesUopGen i then
    (List.range (uopCount i)).map fun k => (i.uniqueId, i.programId, k)
  else [serial i]

/-- What the generator still has to emit. -/
def remaining (g : VecUopGen) : List (ℕ × ℕ × ℕ) :=
  match g.currentInst with
  | none => []
  | some i => (uopSerials i).drop g.numUopsGenerated

/-- The generator has the modifier and the number of uops of its instruction, and has not emitted
all of them. -/
structure Consistent (g : VecUopGen) : Prop where
  idle : g.currentInst = none → g.viext = none
  busy : ∀ i, g.currentInst = some i → Decode.usesUopGen i = true ∧ g.viext = viextOf i ∧
    g.numUopsToGenerate = uopCount i ∧ g.numUopsGenerated < uopCount i

theorem consistent_reset : Consistent reset :=
  ⟨fun _ => rfl, fun _ h => (by cases h)⟩

theorem remaining_of_idle {g : VecUopGen} (h : g.currentInst = none) : remaining g = [] := by
  simp [remaining, h]

namespace Consistent

variable {g g' : VecUopGen} {m : Mavis} {uop i : Inst}

theorem remaining_eq (H : Consistent g) (hi : g.currentInst = some i) :
    remaining g = (i.uniqueId, i.programId, g.numUopsGenerated) ::
      (uopSerials i).drop (g.numUopsGenerated + 1) := by
  obtain ⟨huses, -, -, hlt⟩ := H.busy i hi
  have hlen : g.numUopsGenerated < (uopSerials i).length := by simpa [uopSerials, huses] using hlt
  simp only [remaining, hi]
  rw [List.drop_eq_getElem_cons hlen]
  simp [uopSerials, huses]

theorem idle_iff (H : Consistent g) : g.currentInst = none ↔ remaining g = [] := by
  constructor
  · exact remaining_of_idle
  · intro h
    rcases hi : g.currentInst with _ | i
    · rfl
    · rw [H.remaining_eq hi] at h
      cases h

theorem idle_of_zero (H : Consistent g) (h : g.numUopsToGenerate = 0) : g.currentInst = none := by
  rcases hi : g.currentInst with _ | i
  · rfl
  · obtain ⟨-, -, hn, hlt⟩ := H.busy i hi
    omega

theorem busy_of_pos (h : 0 < g.numUopsToGenerate) : ∃ i, g.currentInst = some i := by
  rcases hi : g.currentInst with _ | i
  · rw [(g.idle_eq hi).1] at h
    exact absurd h (Nat.lt_irrefl 0)
  · exact ⟨i, rfl⟩

theorem setInst (H : Consistent g) (huses : Decode.usesUopGen i = true) (hsome : uopCount i ≠ 0)
    (h : setInst g i = .ok g') : Consistent g' ∧ remaining g' = uopSerials i := by
  obtain ⟨hidle, hcur, hn, hzero⟩ := setInst_spec h
  have hviext : g'.viext = viextOf i := by
    obtain ⟨-, -, h⟩ := Run.bind_eq_ok.mp h
    obtain ⟨-, -, h⟩ := Run.bind_eq_ok.mp h
    obtain ⟨-, -, h⟩ := Run.bind_eq_ok.mp h
    obtain ⟨-, -, h⟩ := Run.bind_eq_ok.mp h
    obtain ⟨-, -, h⟩ := Run.bind_eq_ok.mp h
    obtain rfl := Except.ok.inj h
    simp [H.idle hidle]
  refine ⟨⟨fun h => ?_, fun j hj => ?_⟩, ?_⟩
  · rw [hcur] at h
    cases h
  · obtain rfl := Option.some.inj (hcur.symm.trans hj)
    exact ⟨huses, hviext, hn.trans (numUops_eq_uopCount i), by omega⟩
  · simp [remaining, hcur, hzero]

theorem generateUop (H : Consistent g) (h : generateUop m g = .ok (uop, g')) :
    Consistent g' ∧ remaining g = serial uop :: remaining g' ∧
      ∀ i, g'.currentInst = some i → g.currentInst = some i := by
  unfold VectorUopGenerator.generateUop at h
  split at h
  · cases h
  · rename_i i hi
    obtain ⟨ops, -, h⟩ := Run.bind_eq_ok.mp h
    obtain ⟨rfl, rfl⟩ := Prod.mk.inj (Except.ok.inj h)
    obtain ⟨huses, hviext, hn, hlt⟩ := H.busy i hi
    rw [H.remaining_eq hi]
    split
    · -- the last uop
      rename_i hlast
      refine ⟨consistent_reset, congrArg _ ?_, fun _ h => (by cases h)⟩
      rw [hlast, hn, remaining_of_idle (by rfl)]
      simp [uopSerials, huses]
    · rename_i hmore
      refine ⟨⟨fun h => ?_, fun j hj => ?_⟩, ?_, fun _ h => h⟩
      · rw [hi] at h
        cases h
      · obtain rfl := Option.some.inj (hi.symm.trans hj)
        exact ⟨huses, hviext, hn, by dsimp only; omega⟩
      · simp [remaining, hi, serial, makeUop]

theorem handleFlush (H : Consistent g) (c : FlushingCriteria) : Consistent (handleFlush g c) := by
  unfold VectorUopGenerator.handleFlush
  split
  · exact consistent_reset
  · exact H

end Consistent

/-! ## Instructions that can be split -/

/-- The types whose uops also read what they write, as a further source. -/
def readsDest (t : UopGenType) : Bool :=
  t == .mac || t == .macWide || t == .reduction || t == .reductionWide

/-- What the instruction set promises of an instruction that is split: a supported generator type
with the operands it looks for, a configuration that is in range for it, and at least one uop. -/
structure Splittable (i : Inst) : Prop where
  supported : i.uopGen ≠ .permute ∧ i.uopGen ≠ .none ∧ i.uopGen ≠ .unknown
  elems : 0 < VectorConfig.vlen / i.vectorConfig.sew
  vl : i.vectorConfig.vl ≤ i.vectorConfig.vlmax
  lmul : i.vectorConfig.lmul ≤ if isWide i.uopGen then 4 else 8
  nf : i.nf ≤ nVectorUops
  some : uopCount i ≠ 0
  ext : i.uopGen = .intExt → viextOf i ≠ none
  narrow : i.uopGen = .narrowing → ∃ o ∈ i.srcs, o.regFile = .vector ∧ o.fieldId = .rs2
  operands : readsDest i.uopGen = true → i.srcs.length + i.dests.length ≤ 4

/-- What the operand loops ask of an instruction. -/
structure Operable (i : Inst) : Prop where
  supported : i.uopGen ≠ .permute ∧ i.uopGen ≠ .none ∧ i.uopGen ≠ .unknown
  ext : i.uopGen = .intExt → viextOf i ≠ none
  narrow : i.uopGen = .narrowing → ∃ o ∈ i.srcs, o.regFile = .vector ∧ o.fieldId = .rs2
  operands : readsDest i.uopGen = true → i.srcs.length + i.dests.length ≤ 4

theorem Splittable.operable {i : Inst} (h : Splittable i) : Operable i :=
  ⟨h.supported, h.ext, h.narrow, h.operands⟩

theorem Splittable.lmul_le {i : Inst} (h : Splittable i) (hwide : isWide i.uopGen = true) :
    i.vectorConfig.lmul ≤ 4 := by
  have hlmul := h.lmul
  rwa [if_pos hwide] at hlmul

theorem Splittable.uopCount_le {i : Inst} (h : Splittable i) : uopCount i ≤ nVectorUops := by
  have hn : i.vectorConfig.vl ⌈/⌉ (VectorConfig.vlen / i.vectorConfig.sew) ≤
      i.vectorConfig.lmul := (ceilDiv_le_iff_le_mul h.elems).mpr h.vl
  have hlmul := h.lmul
  have hnf := h.nf
  unfold uopCount
  unfold nVectorUops at hnf ⊢
  dsimp only
  split
  · rename_i hwide
    rw [if_pos hwide] at hlmul
    omega
  · rename_i hwide
    rw [if_neg hwide] at hlmul
    split
    · split <;> omega
    · omega

/-- The source loop keeps the register files and the fields of the operands. -/
theorem shiftSrc_eq_ok {t : UopGenType} {viext : Option ℕ} {k : ℕ} (o : OpInfo)
    (hext : t = .intExt → viext ≠ none) :
    ∃ o', shiftSrc t viext k o = .ok o' ∧ o'.regFile = o.regFile ∧ o'.fieldId = o.fieldId := by
  unfold shiftSrc
  split
  · exact ⟨o, rfl, rfl, rfl⟩
  · split
    case h_9 =>
      split
      · exact ⟨_, rfl, rfl, rfl⟩
      · exact absurd rfl (hext rfl)
    all_goals
      refine ⟨_, rfl, ?_, ?_⟩
    all_goals
      repeat' split
    all_goals
      rfl

theorem shiftSrcs_eq_ok {t : UopGenType} {viext : Option ℕ} {k : ℕ}
    (hext : t = .intExt → viext ≠ none) : ∀ srcs : List OpInfo,
    ∃ srcs', srcs.mapM (shiftSrc t viext k) = .ok srcs' ∧ srcs'.length = srcs.length ∧
      ∀ o ∈ srcs, ∃ o' ∈ srcs', o'.regFile = o.regFile ∧ o'.fieldId = o.fieldId
  | [] => ⟨[], rfl, rfl, fun _ h => (by cases h)⟩
  | o :: srcs => by
    obtain ⟨o', ho', hsame⟩ := shiftSrc_eq_ok (k := k) o hext
    obtain ⟨srcs', hsrcs, hlen, hall⟩ := shiftSrcs_eq_ok (k := k) hext srcs
    refine ⟨o' :: srcs', ?_, by simp [hlen], fun x hx => ?_⟩
    · rw [List.mapM_cons, ho', hsrcs]
      rfl
    · rcases List.mem_cons.mp hx with rfl | hx
      · exact ⟨o', by simp, hsame⟩
      · obtain ⟨x', hx', hsame'⟩ := hall x hx
        exact ⟨x', List.mem_cons_of_mem _ hx', hsame'⟩

/-- Each destination adds at most one source. -/
theorem shiftDests_eq_ok {t : UopGenType} {k : ℕ} : ∀ (dests : List OpInfo)
    (ops : List OpInfo × List OpInfo),
    (readsDest t = true → ops.1.length + dests.length ≤ 4) →
    ∃ ops', dests.foldlM (shiftDest t k) ops = .ok ops'
  | [], ops, _ => ⟨ops, rfl⟩
  | o :: dests, ops, hlen => by
    have hadd : ∀ dest, readsDest t = true → addDestAsSrc ops.1 dest =
        .ok (ops.1 ++ [{ dest with fieldId := rsField ops.1.length }]) := by
      intro dest hreads
      have hroom : ops.1.length ≤ 3 := by
        have hlen := hlen hreads
        rw [List.length_cons] at hlen
        omega
      unfold addDestAsSrc spartaAssert
      rw [if_pos (decide_eq_true hroom)]
      rfl
    obtain ⟨srcs, hone, hsrcs⟩ : ∃ srcs, shiftDest t k ops o = .ok (srcs, ops.2 ++ [shift k o]) ∧
        srcs.length ≤ ops.1.length + 1 := by
      unfold shiftDest
      dsimp only
      split
      · rename_i hmac
        rw [hadd _ (by rcases hmac with rfl | rfl <;> rfl)]
        exact ⟨_, rfl, by simp⟩
      · split
        · rename_i hred
          rw [hadd _ (by rcases hred.1 with rfl | rfl <;> rfl)]
          exact ⟨_, rfl, by simp⟩
        · exact ⟨_, rfl, by simp⟩
    rw [List.foldlM_cons, hone]
    refine shiftDests_eq_ok dests _ fun hreads => ?_
    have hlen := hlen hreads
    rw [List.length_cons] at hlen
    dsimp only
    omega

theorem generateUops_eq_ok {i : Inst} (h : Operable i) (k : ℕ) :
    ∃ ops, generateUops i.uopGen (viextOf i) k i = .ok ops := by
  obtain ⟨srcs, hsrcs, hlen, hall⟩ := shiftSrcs_eq_ok (k := k) h.ext i.srcs
  have hdests : ∀ srcs' : List OpInfo, (i.uopGen ≠ .narrowing → srcs' = srcs) →
      ∃ ops, (if i.uopGen = .singleDest then .ok (srcs', i.dests)
        else i.dests.foldlM (shiftDest i.uopGen k) (srcs', [])) = .ok ops := by
    intro srcs' hsame
    split
    · exact ⟨_, rfl⟩
    · refine shiftDests_eq_ok i.dests _ fun hreads => ?_
      have hnot : i.uopGen ≠ .narrowing := by
        intro hn
        rw [hn] at hreads
        cases hreads
      rw [hsame hnot, hlen]
      exact h.operands hreads
  unfold generateUops
  rw [hsrcs]
  by_cases hn : i.uopGen = .narrowing
  · obtain ⟨o, ho, hfile, hfield⟩ := h.narrow hn
    obtain ⟨o', ho', hfile', hfield'⟩ := hall o ho
    have hmem : o' ∈ srcs.filter fun o => o.regFile = .vector ∧ o.fieldId = .rs2 := by
      simpa [ho', hfile', hfield'] using ⟨hfile, hfield⟩
    obtain ⟨rs2, hrs2⟩ : ∃ rs2,
        (srcs.filter fun o => o.regFile = .vector ∧ o.fieldId = .rs2).getLast? = some rs2 :=
      ⟨_, List.getLast?_eq_some_getLast (List.ne_nil_of_mem hmem)⟩
    obtain ⟨ops, hops⟩ := hdests (srcs ++ [{ shift 1 rs2 with fieldId := .rs3 }])
      fun hnot => absurd hn hnot
    refine ⟨ops, ?_⟩
    simp only [if_pos hn, bind, Except.bind, hrs2]
    exact hops
  · obtain ⟨ops, hops⟩ := hdests srcs fun _ => rfl
    refine ⟨ops, ?_⟩
    simp only [if_neg hn, bind, Except.bind]
    exact hops

theorem uopOperands_eq_ok {i : Inst} (h : Operable i) (n k : ℕ) :
    ∃ ops, uopOperands (viextOf i) n k i = .ok ops := by
  obtain ⟨hpermute, hnone, hunknown⟩ := h.supported
  have hgen := generateUops_eq_ok h k
  unfold uopOperands
  split
  · exact ⟨_, rfl⟩
  · exact ⟨_, rfl⟩
  · rename_i hp
    exact absurd hp hpermute
  · rename_i hn
    exact absurd hn hnone
  · rename_i hu
    exact absurd hu hunknown
  · exact hgen

namespace Consistent

variable {g : VecUopGen} {m : Mavis} {i : Inst}

theorem generateUop_eq_ok (H : Consistent g) (hi : g.currentInst = some i) (h : Splittable i) :
    ∃ r, VectorUopGenerator.generateUop m g = .ok r := by
  obtain ⟨-, hviext, -, -⟩ := H.busy i hi
  obtain ⟨ops, hops⟩ := uopOperands_eq_ok h.operable g.numUopsToGenerate g.numUopsGenerated
  rw [← hviext] at hops
  unfold VectorUopGenerator.generateUop
  split
  · rename_i hnone
    rw [hi] at hnone
    cases hnone
  · rename_i j hj
    obtain rfl := Option.some.inj (hi.symm.trans hj)
    rw [hops]
    exact ⟨_, rfl⟩

theorem setInst_eq_ok (hidle : g.currentInst = none)
    (hsupported : i.uopGen ≠ .none ∧ i.uopGen ≠ .unknown)
    (hlmul : isWide i.uopGen = true → i.vectorConfig.lmul ≤ 4) (hcount : uopCount i ≤ nVectorUops) :
    ∃ g', VectorUopGenerator.setInst g i = .ok g' := by
  obtain ⟨hnone, hunknown⟩ := hsupported
  have hlmul : (!isWide i.uopGen || i.vectorConfig.lmul ≤ 4) = true := by
    rcases hwide : isWide i.uopGen with _ | _
    · rfl
    · simpa using hlmul hwide
  rw [← numUops_eq_uopCount] at hcount
  refine ⟨_, Run.bind_eq_ok.mpr ⟨(), by simp [hidle], Run.bind_eq_ok.mpr ⟨(), by simp [hunknown],
    Run.bind_eq_ok.mpr ⟨(), by simp [hnone], Run.bind_eq_ok.mpr ⟨(), by simpa using hlmul,
    Run.bind_eq_ok.mpr ⟨(), by simpa using hcount, rfl⟩⟩⟩⟩⟩⟩

end Consistent

/-! ## The generator is not found busy -/

theorem shiftSrc_failsIn (t : UopGenType) (viext : Option ℕ) (k : ℕ) (o : OpInfo) :
    Run.FailsIn (· ≠ .uopGenBusy) (shiftSrc t viext k o) := by
  unfold shiftSrc
  repeat' split
  all_goals first | exact .ok _ | exact .error (by decide)

theorem addDestAsSrc_failsIn (srcs : List OpInfo) (dest : OpInfo) :
    Run.FailsIn (· ≠ .uopGenBusy) (addDestAsSrc srcs dest) := by
  unfold addDestAsSrc
  exact (spartaAssert_failsIn (by decide)).bind fun _ => .ok _

theorem uopOperands_failsIn (viext : Option ℕ) (n k : ℕ) (i : Inst) :
    Run.FailsIn (· ≠ .uopGenBusy) (uopOperands viext n k i) := by
  have hgen : ∀ t, Run.FailsIn (· ≠ .uopGenBusy) (generateUops t viext k i) := by
    intro t
    refine (Run.FailsIn.mapM (shiftSrc_failsIn t viext k) _).bind fun srcs => ?_
    have hrest : ∀ srcs' : List OpInfo, Run.FailsIn (· ≠ .uopGenBusy)
        (if t = .singleDest then .ok (srcs', i.dests)
          else i.dests.foldlM (shiftDest t k) (srcs', [])) := by
      intro srcs'
      refine .ite (.ok _) (.foldlM (fun ops o => ?_) _ _)
      unfold shiftDest
      dsimp only
      split
      · exact (addDestAsSrc_failsIn _ _).bind fun _ => .ok _
      · split
        · exact (addDestAsSrc_failsIn _ _).bind fun _ => .ok _
        · exact .ok _
    dsimp only
    split
    · split
      · exact hrest _
      · exact .error (by decide)
    · exact hrest _
  unfold uopOperands
  split
  · exact .ok _
  · exact .ok _
  · exact .error (by decide)
  · exact .error (by decide)
  · exact .error (by decide)
  · exact hgen _

theorem generateUop_failsIn (m : Mavis) (g : VecUopGen) :
    Run.FailsIn (· ≠ .uopGenBusy) (generateUop m g) := by
  unfold generateUop
  split
  · exact .error (by decide)
  · exact (uopOperands_failsIn _ _ _ _).bind fun _ => .ok _

theorem setInst_failsIn {g : VecUopGen} (hidle : g.currentInst = none) (i : Inst) :
    Run.FailsIn (· ≠ .uopGenBusy) (setInst g i) := by
  refine Run.FailsIn.bind (.of_eq_ok (a := ()) (by simp [hidle])) fun _ => ?_
  refine (spartaAssert_failsIn (by decide)).bind fun _ => ?_
  refine (spartaAssert_failsIn (by decide)).bind fun _ => ?_
  refine (spartaAssert_failsIn (by decide)).bind fun _ => ?_
  exact (spartaAssert_failsIn (by decide)).bind fun _ => .ok _

end VectorUopGenerator

end Olympia
