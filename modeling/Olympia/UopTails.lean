import Olympia.UopOperands

/-!
# Uops with tail elements

Each uop of an instruction has the elements of one vector register, `VLEN / SEW`.  `setInst` divides
`VL` by this number, but `generateUop` takes `VLMAX / SEW` elements for a uop when it looks for tail
elements, which is the same only if `LMUL` equals `SEW`.  What that does to the flags of all uops
depends on where `VL` lies (`TailFits`): `tail_flags_exact`.
-/

namespace Olympia

namespace VectorUopGenerator

/-- The instruction has one uop for each register its elements fill: it neither widens nor moves
whole registers. -/
structure UopPerRegister (i : Inst) : Prop where
  narrow : isWide i.uopGen = false
  elements : i.isVectorWholeRegister = false

/-- The elements of one register. -/
def elemsPerUop (c : VectorConfig) : ℕ := VectorConfig.vlen / c.sew

/-- The elements that `generateUop` takes for those of a uop. -/
def tailElemsPerUop (c : VectorConfig) : ℕ := c.vlmax / c.sew

section Counts

variable {i : Inst} {k : ℕ}

theorem UopPerRegister.uopCount_eq (hreg : UopPerRegister i) :
    uopCount i = i.vectorConfig.vl ⌈/⌉ elemsPerUop i.vectorConfig := by
  simp [uopCount, hreg.narrow, hreg.elements, elemsPerUop]

theorem UopPerRegister.uopCount_le_iff (hreg : UopPerRegister i)
    (helems : 0 < elemsPerUop i.vectorConfig) :
    uopCount i ≤ k ↔ i.vectorConfig.vl ≤ elemsPerUop i.vectorConfig * k := by
  rw [hreg.uopCount_eq]
  exact ceilDiv_le_iff_le_mul helems

theorem UopPerRegister.lt_uopCount_iff (hreg : UopPerRegister i)
    (helems : 0 < elemsPerUop i.vectorConfig) :
    k < uopCount i ↔ elemsPerUop i.vectorConfig * k < i.vectorConfig.vl := by
  rw [← not_le, hreg.uopCount_le_iff helems, not_le]

/-- All uops but the last are full, and the last one is exactly if the elements divide `VL`. -/
theorem UopPerRegister.vl_eq_iff (hreg : UopPerRegister i)
    (helems : 0 < elemsPerUop i.vectorConfig) :
    i.vectorConfig.vl = elemsPerUop i.vectorConfig * uopCount i ↔
      elemsPerUop i.vectorConfig ∣ i.vectorConfig.vl := by
  constructor
  · intro h
    exact ⟨_, h⟩
  · rintro ⟨q, hq⟩
    have hle : uopCount i ≤ q := (hreg.uopCount_le_iff helems).mpr hq.le
    have hge : q ≤ uopCount i := by
      refine Nat.le_of_mul_le_mul_left ?_ helems
      rw [← hq]
      exact (hreg.uopCount_le_iff helems).mp le_rfl
    rw [hq, le_antisymm hle hge]

end Counts

/-- The flags of all uops of an instruction are right: those whose elements go beyond `VL` have a
tail, so only the last one can, and it has one if `VL` does not fill its register. -/
structure TailsExact (m : Mavis) (i : Inst) : Prop where
  flag : ∀ k uop g, Makes m i k uop g →
    (uop.hasTail = true ↔ i.vectorConfig.vl < (k + 1) * elemsPerUop i.vectorConfig)
  last : ∀ k uop g, Makes m i k uop g → uop.hasTail = true → k + 1 = uopCount i
  divides : ∀ k uop g, Makes m i k uop g → k + 1 = uopCount i →
    (uop.hasTail = true ↔ ¬elemsPerUop i.vectorConfig ∣ i.vectorConfig.vl)

/-- `VL` lies where both numbers of elements for a uop lead to the same flags. -/
def TailFits (i : Inst) : Prop :=
  if elemsPerUop i.vectorConfig ∣ i.vectorConfig.vl then
    tailElemsPerUop i.vectorConfig ≤ elemsPerUop i.vectorConfig
  else
    (uopCount i - 1) * tailElemsPerUop i.vectorConfig ≤ i.vectorConfig.vl ∧
      i.vectorConfig.vl < uopCount i * tailElemsPerUop i.vectorConfig

variable {m : Mavis} {i uop : Inst} {g : VecUopGen} {k : ℕ}

theorem Makes.hasTail_iff (h : Makes m i k uop g) :
    uop.hasTail = true ↔ i.vectorConfig.vl < (k + 1) * tailElemsPerUop i.vectorConfig := by
  obtain ⟨-, ⟨ops, -, rfl⟩, -⟩ := h.spec
  rw [Nat.mul_comm]
  exact decide_eq_true_iff

/-- The uops of an instruction that the generator does not stop at are all made. -/
theorem Splittable.exists_makes (h : Splittable i) (m : Mavis) (hk : k < uopCount i) :
    ∃ uop g, Makes m i k uop g :=
  VectorUopGenerator.exists_makes
    (Consistent.setInst_eq_ok rfl h.supported.2 h.lmul_le h.uopCount_le)
    (fun j _ => uopOperands_eq_ok h.operable _ j) (.inr hk)

/-- The elements of a uop go beyond `VL` for the last one only, and for it unless `VL` fills its
register. -/
theorem UopPerRegister.vl_lt_iff (hreg : UopPerRegister i) (h : Splittable i)
    (hk : k < uopCount i) : i.vectorConfig.vl < (k + 1) * elemsPerUop i.vectorConfig ↔
      k + 1 = uopCount i ∧ ¬elemsPerUop i.vectorConfig ∣ i.vectorConfig.vl := by
  have helems : 0 < elemsPerUop i.vectorConfig := h.elems
  have hfull := hreg.vl_eq_iff helems
  have hle := (hreg.uopCount_le_iff helems (k := uopCount i)).mp le_rfl
  have hlt := hreg.lt_uopCount_iff helems (k := k + 1)
  rw [← hfull, Nat.mul_comm]
  constructor
  · intro hvl
    have hlast : k + 1 = uopCount i := by
      by_contra hne
      exact absurd (hlt.mp (by omega)) (by omega)
    refine ⟨hlast, fun heq => ?_⟩
    rw [hlast, ← heq] at hvl
    exact lt_irrefl _ hvl
  · rintro ⟨hlast, hne⟩
    rw [hlast]
    omega

theorem tailFits_iff (h : Splittable i) (hreg : UopPerRegister i) :
    TailFits i ↔ ∀ k < uopCount i, (i.vectorConfig.vl < (k + 1) * tailElemsPerUop i.vectorConfig ↔
      i.vectorConfig.vl < (k + 1) * elemsPerUop i.vectorConfig) := by
  have hsome : 0 < uopCount i := Nat.pos_of_ne_zero h.some
  have hflag := fun {k} (hk : k < uopCount i) => hreg.vl_lt_iff h hk
  have hfull := hreg.vl_eq_iff (h.elems)
  unfold TailFits
  generalize tailElemsPerUop i.vectorConfig = w at *
  split
  · -- no uop has a tail
    rename_i hdvd
    have hvl := hfull.mpr hdvd
    constructor
    · intro hle k hk
      rw [hflag hk]
      have hmul : (k + 1) * w ≤ uopCount i * elemsPerUop i.vectorConfig := Nat.mul_le_mul hk hle
      rw [Nat.mul_comm (uopCount i), ← hvl] at hmul
      simp [hdvd, hmul]
    · intro hall
      have hlast := hall (uopCount i - 1) (by omega)
      rw [hflag (by omega), Nat.sub_add_cancel hsome] at hlast
      have hmul : uopCount i * w ≤ uopCount i * elemsPerUop i.vectorConfig := by
        rw [Nat.mul_comm _ (elemsPerUop _), ← hvl]
        simpa [hdvd] using hlast
      exact Nat.le_of_mul_le_mul_left hmul hsome
  · -- the last uop has one
    rename_i hdvd
    constructor
    · rintro ⟨hbelow, habove⟩ k hk
      rw [hflag hk]
      by_cases hlast : k + 1 = uopCount i
      · simpa [hlast, hdvd] using habove
      · have hmul : (k + 1) * w ≤ (uopCount i - 1) * w := Nat.mul_le_mul_right w (by omega)
        simp only [hlast, false_and, iff_false, not_lt]
        exact hmul.trans hbelow
    · intro hall
      constructor
      · rcases Nat.lt_or_ge 1 (uopCount i) with hmore | hone
        · have hprev := hall (uopCount i - 2) (by omega)
          rw [hflag (by omega), show uopCount i - 2 + 1 = uopCount i - 1 by omega] at hprev
          have hne : uopCount i - 1 ≠ uopCount i := by omega
          simpa [hne] using hprev
        · rw [show uopCount i - 1 = 0 by omega, Nat.zero_mul]
          exact Nat.zero_le _
      · have hlast := hall (uopCount i - 1) (by omega)
        rw [hflag (by omega), Nat.sub_add_cancel hsome] at hlast
        simpa [hdvd] using hlast

/-- The tail flags of an instruction are right if and only if its `VL` fits. -/
theorem tail_flags_exact (m : Mavis) (i : Inst) (h : Splittable i) (hreg : UopPerRegister i) :
    TailsExact m i ↔ TailFits i := by
  rw [tailFits_iff h hreg]
  constructor
  · intro H k hk
    obtain ⟨uop, g, hmakes⟩ := h.exists_makes m hk
    rw [← hmakes.hasTail_iff, H.flag k uop g hmakes]
  · intro hfits
    have hlt : ∀ {k uop g}, Makes m i k uop g → k < uopCount i := by
      intro k uop g hmakes
      have hsome : 0 < uopCount i := Nat.pos_of_ne_zero h.some
      rcases hmakes.spec.1 with rfl | hk
      · exact hsome
      · exact hk
    have hflag : ∀ k uop g, Makes m i k uop g →
        (uop.hasTail = true ↔ i.vectorConfig.vl < (k + 1) * elemsPerUop i.vectorConfig) := by
      intro k uop g hmakes
      rw [hmakes.hasTail_iff, hfits k (hlt hmakes)]
    refine ⟨hflag, fun k uop g hmakes htail => ?_, fun k uop g hmakes hlast => ?_⟩
    · rw [hflag k uop g hmakes, hreg.vl_lt_iff h (hlt hmakes)] at htail
      exact htail.1
    · rw [hflag k uop g hmakes, hreg.vl_lt_iff h (hlt hmakes)]
      simp [hlast]

/-! ## Two configurations -/

/-- `vadd.vv` on 900 elements of 8 bits, with an `LMUL` of 8. -/
def vaddGroup : Inst := { vaddVV with vectorConfig := { lmul := 8, vl := 900 } }

/-- `vadd.vv` on 100 elements of 8 bits, with an `LMUL` of 1. -/
def vaddSingle : Inst := { vaddVV with vectorConfig := { vl := 100 } }

/-- `LMUL` equals `SEW`, so all flags are right. -/
theorem tail_flags_exact_group : TailsExact operandMavis vaddGroup := by
  have hsplit : Splittable vaddGroup := by constructor <;> decide
  exact (tail_flags_exact operandMavis vaddGroup hsplit ⟨rfl, rfl⟩).mpr
    (by simp only [TailFits]; decide)

/-- The only uop has 28 tail elements, and no flag. -/
theorem tail_without_flag : Splittable vaddSingle ∧ UopPerRegister vaddSingle ∧
    (∃ uop g, Makes operandMavis vaddSingle 0 uop g ∧ uop.hasTail = false ∧
      vaddSingle.vectorConfig.vl < (0 + 1) * elemsPerUop vaddSingle.vectorConfig) ∧
    ¬TailsExact operandMavis vaddSingle := by
  have hmakes : Makes operandMavis vaddSingle 0 _ _ := .first rfl rfl
  refine ⟨by constructor <;> decide, ⟨rfl, rfl⟩, ⟨_, _, hmakes, by decide, by decide⟩, fun H => ?_⟩
  exact absurd ((H.flag 0 _ _ hmakes).mpr (by decide)) (by decide)

end VectorUopGenerator

end Olympia
