import Olympia.Execute.PipePasses
import Olympia.UopTails

/-!
# The passes of the uops of an instruction

A `VINT` uop needs a pass for every `valu_adder_num_` of its active elements.  `insertInst` counts
other elements: it takes the uop identifier minus one for the number of uops before this one, which
wraps for uop 0, so every uop counts as full; and the quotient is rounded down before `ceil` sees
it.  So the count is right only where this makes no difference (`PassesFit`): `vint_passes_exact`.
-/

namespace Olympia

namespace ExecutePipe

open VectorUopGenerator

/-- The elements of uop `k` that are not in the tail. -/
def activeElems (i : Inst) (k : ℕ) : ℕ :=
  let n := elemsPerUop i.vectorConfig
  min n (i.vectorConfig.vl - k * n)

/-- The number of passes of uop `k` is right, and so is its computation: neither the number of uops
before it nor that of the elements left to it is the result of a subtraction that wraps. -/
structure PassesExact (p : ExecutePipeParams) (i : Inst) (k passes : ℕ) : Prop where
  count : passes = max 1 (activeElems i k ⌈/⌉ p.valuAdderNum)
  uops : 1 ≤ k
  elems : elemsPerUop i.vectorConfig * (k - 1) ≤ i.vectorConfig.vl

/-- Uop `k` is not the first, and its active elements need as many passes as a full uop has whole
ones. -/
def PassesFit (p : ExecutePipeParams) (i : Inst) (k : ℕ) : Prop :=
  let q := max 1 (elemsPerUop i.vectorConfig / p.valuAdderNum)
  k ≠ 0 ∧ activeElems i k ≤ q * p.valuAdderNum ∧
    (q = 1 ∨ (q - 1) * p.valuAdderNum < activeElems i k)

theorem max_one_ceilDiv_eq_iff {a d q : ℕ} (hd : 0 < d) (hq : 1 ≤ q) :
    q = max 1 (a ⌈/⌉ d) ↔ a ≤ q * d ∧ (q = 1 ∨ (q - 1) * d < a) := by
  have hle : a ⌈/⌉ d ≤ q ↔ a ≤ q * d := by
    rw [ceilDiv_le_iff_le_mul hd, Nat.mul_comm]
  have hlt : q - 1 < a ⌈/⌉ d ↔ (q - 1) * d < a := by
    rw [← not_le, ceilDiv_le_iff_le_mul hd, Nat.mul_comm, not_le]
  rw [← hle, ← hlt]
  omega

variable {m : Mavis} {i uop : Inst} {g : VecUopGen} {k : ℕ} {p : ExecutePipeParams}

/-- Every uop is taken for a full one. -/
theorem numPasses_uop (hmakes : Makes m i k uop g) (hreg : UopPerRegister i)
    (hsew : i.vectorConfig.sew ∣ VectorConfig.vlen) (hlmul : 0 < i.vectorConfig.lmul) :
    numPasses p uop = elemsPerUop i.vectorConfig / p.valuAdderNum := by
  obtain ⟨hk, ⟨ops, -, rfl⟩, -⟩ := hmakes.spec
  have helems : 0 < elemsPerUop i.vectorConfig :=
    Nat.div_pos (Nat.le_of_dvd (by decide) hsew) (Nat.pos_of_dvd_of_pos hsew (by decide))
  have hper : i.vectorConfig.vlmax / i.vectorConfig.lmul = elemsPerUop i.vectorConfig :=
    Nat.mul_div_cancel _ hlmul
  -- the uops hold all elements, and are not many
  have hsmall : elemsPerUop i.vectorConfig ≤ 1024 := Nat.div_le_self _ _
  have hvl : i.vectorConfig.vl ≤ elemsPerUop i.vectorConfig * 8 :=
    (hreg.uopCount_le_iff helems).mp hmakes.uopCount_le
  have hbefore : k = 0 ∨ elemsPerUop i.vectorConfig * k < i.vectorConfig.vl := by
    rwa [hreg.lt_uopCount_iff helems] at hk
  have hleft : (elemsPerUop i.vectorConfig : ℤ) ≤
      (i.vectorConfig.vl : ℤ) - elemsPerUop i.vectorConfig * ((k : ℤ) - 1) ∧
      (i.vectorConfig.vl : ℤ) - elemsPerUop i.vectorConfig * ((k : ℤ) - 1) < 2 ^ 32 := by
    have hcast : (elemsPerUop i.vectorConfig : ℤ) * ((k : ℤ) - 1) =
        ((elemsPerUop i.vectorConfig * k : ℕ) : ℤ) - elemsPerUop i.vectorConfig := by
      rw [Int.mul_sub, Int.mul_one, Int.natCast_mul]
    rw [hcast]
    constructor
    · rcases hbefore with rfl | hlt
      · simp
      · omega
    · omega
  unfold numPasses
  dsimp only [makeUop]
  rw [hper, Int.emod_eq_of_lt (by omega) hleft.2]
  congr 1
  omega

/-- The passes that are executed are those needed if and only if the uop fits. -/
theorem passesExact_iff (hmakes : Makes m i k uop g) (hreg : UopPerRegister i)
    (hsew : i.vectorConfig.sew ∣ VectorConfig.vlen) (hlmul : 0 < i.vectorConfig.lmul)
    (hadder : 0 < p.valuAdderNum) (hvint : uop.isVector = true ∧ uop.pipe = .vint) :
    PassesExact p i k (passes p uop) ↔ PassesFit p i k := by
  have hpasses : passes p uop = max 1 (elemsPerUop i.vectorConfig / p.valuAdderNum) := by
    unfold passes
    rw [numPasses_uop hmakes hreg hsew hlmul, if_pos (by simp [Inst.isVset, hvint])]
  have hcount := max_one_ceilDiv_eq_iff (a := activeElems i k) hadder
    (le_max_left 1 (elemsPerUop i.vectorConfig / p.valuAdderNum))
  rw [hpasses]
  unfold PassesFit
  constructor
  · intro H
    exact ⟨Nat.one_le_iff_ne_zero.mp H.uops, hcount.mp H.count⟩
  · rintro ⟨hk, hfit⟩
    have helems : 0 < elemsPerUop i.vectorConfig :=
      Nat.div_pos (Nat.le_of_dvd (by decide) hsew) (Nat.pos_of_dvd_of_pos hsew (by decide))
    have hlt := hmakes.spec.1.resolve_left hk
    rw [hreg.lt_uopCount_iff helems] at hlt
    have hmul : elemsPerUop i.vectorConfig * (k - 1) ≤ elemsPerUop i.vectorConfig * k :=
      Nat.mul_le_mul_left _ (Nat.sub_le k 1)
    exact ⟨hcount.mpr hfit, Nat.pos_of_ne_zero hk, hmul.trans hlt.le⟩

end ExecutePipe

open ExecutePipe PipeSystem VectorUopGenerator

/-- In a run of a pipe in which no flush removes an instruction in the middle of its passes, a
`VINT` uop that has executed its last pass has had as many as its active elements need, computed
without a wrap, if and only if it fits. -/
theorem vint_passes_exact (p : ExecutePipeParams) (hadder : 0 < p.valuAdderNum) (T : InstTable)
    (sb : Scoreboards) {ops : List PipeOp} {s : PipeSystem} {hist h₁ h₂ : List PipeEvent}
    (hrun : ops.foldlM (Run.traced (PipeSystem.step p) PipeSystem.obs) ([], ⟨{}, T, sb⟩) =
      .ok (hist, s))
    (hflush : ∀ t c, Run.Takes (PipeSystem.step p) ⟨{}, T, sb⟩ ops t (.flush c) →
      ¬Spoils t.pipe c)
    {ri : RenamedInst} (hexec : hist = h₁ ++ .executed ri :: h₂)
    {m : Mavis} {i : Inst} {k : ℕ} {g : VecUopGen} (hmakes : Makes m i k ri.inst g)
    (hvint : ri.inst.isVector = true ∧ ri.inst.pipe = .vint) (hreg : UopPerRegister i)
    (hsew : i.vectorConfig.sew ∣ VectorConfig.vlen) (hlmul : 0 < i.vectorConfig.lmul) :
    ∃ before, current h₁ = some (ri, before) ∧
      (PassesExact p i k (before + 1) ↔ PassesFit p i k) := by
  have hplain := Run.foldlM_of_traced hrun
  obtain ⟨-, hpasses, -⟩ := ((pipe_clean_when_free p T sb hplain).mpr hflush).1 hist s (.last hrun)
  obtain ⟨before, hcurrent, hcount⟩ := hpasses h₁ _ h₂ hexec ri rfl
  refine ⟨before, hcurrent, ?_⟩
  rw [hcount]
  exact passesExact_iff hmakes hreg hsew hlmul hadder hvint

/-! ## Two uops -/

/-- `vadd.vv` on elements of 64 bits, 16 for each uop. -/
def vaddElems (lmul vl : ℕ) : Inst :=
  { vaddVV with vectorConfig := { sew := 64, lmul := lmul, vl := vl } }

/-- An instruction is inserted and executes twice. -/
def twoPasses (uop : Inst) : List PipeOp :=
  [.insert { inst := uop }, .execute 0 false, .reissue 0, .execute 0 false]

/-- Uop 0 of an addition of one element passes twice through eight adders. -/
theorem one_element_two_passes : ∃ uop g, Makes operandMavis (vaddElems 1 1) 0 uop g ∧
    UopPerRegister (vaddElems 1 1) ∧ uop.isVector = true ∧ uop.pipe = .vint ∧
    (∃ s, (twoPasses uop).foldlM (Run.traced (PipeSystem.step {}) PipeSystem.obs)
        ([], ⟨{}, noStatus, noneReady⟩) =
      .ok ([.accepted { inst := uop }, .passed { inst := uop }, .executed { inst := uop }], s)) ∧
    max 1 (activeElems (vaddElems 1 1) 0 ⌈/⌉ 8) = 1 ∧ ¬PassesExact {} (vaddElems 1 1) 0 2 := by
  refine ⟨_, _, .first rfl rfl, ⟨rfl, rfl⟩, rfl, rfl, ⟨_, rfl⟩, by decide, fun H => ?_⟩
  exact absurd H.uops (by decide)

/-- Uop 1 of `vadd.vv v12, v4, v8` on 32 elements. -/
def vaddUop : Inst :=
  makeUop operandMavis (vaddElems 2 32) 1 ([vreg .rs2 5, vreg .rs1 9], [vreg .rd 13])

/-- It needs and has two passes. -/
theorem vint_passes_exact_full : ∃ hist h₁ h₂ s,
    (twoPasses vaddUop).foldlM (Run.traced (PipeSystem.step {}) PipeSystem.obs)
      ([], ⟨{}, noStatus, noneReady⟩) = .ok (hist, s) ∧
    hist = h₁ ++ .executed { inst := vaddUop } :: h₂ ∧
    current h₁ = some ({ inst := vaddUop }, 1) ∧ PassesExact {} (vaddElems 2 32) 1 2 := by
  have hmakes : Makes operandMavis (vaddElems 2 32) 1 vaddUop _ :=
    .next (.first rfl rfl) (by decide) rfl
  obtain ⟨s, hrun⟩ : ∃ s, (twoPasses vaddUop).foldlM
      (Run.traced (PipeSystem.step {}) PipeSystem.obs) ([], ⟨{}, noStatus, noneReady⟩) =
      .ok ([.accepted { inst := vaddUop }, .passed { inst := vaddUop }] ++
        .executed { inst := vaddUop } :: [], s) := ⟨_, rfl⟩
  have hall : Run.along (PipeSystem.step {}) (fun s op => match op with
      | .flush c => decide (¬Spoils s.pipe c)
      | _ => true) ⟨{}, noStatus, noneReady⟩ (twoPasses vaddUop) = true := by
    decide +kernel
  have hflush : ∀ t c, Run.Takes (PipeSystem.step {}) ⟨{}, noStatus, noneReady⟩ (twoPasses vaddUop)
      t (.flush c) → ¬Spoils t.pipe c := by
    intro t c htakes
    have htest := Run.Takes.of_along hall htakes
    exact of_decide_eq_true htest
  obtain ⟨before, hcurrent, hiff⟩ := vint_passes_exact {} (by decide) noStatus noneReady hrun
    hflush rfl hmakes ⟨rfl, rfl⟩ ⟨rfl, rfl⟩ (by decide) (by decide)
  obtain rfl : 1 = before := (Prod.mk.inj (Option.some.inj hcurrent)).2
  exact ⟨_, _, [], s, hrun, rfl, hcurrent, hiff.mpr (by simp only [PassesFit]; decide)⟩

end Olympia
