import Olympia.UopOperands

/-!
# The register numbers of uops

A legal vector operand is a group of `EMUL` registers.  The generator moves most operands through no
more registers than their group has, so their uops stay in the register file.  It does not for the
single registers of the reductions, the `RS2` group of the wide ones, masks and narrow memory
groups of element-wise types, and the neighbour that a `vslide1down` with a `VL` of zero reads.  So
the uops of a legal instruction stay in the register file exactly if these operands start low
enough (`HasRoom`): `uop_registers_in_range`.
-/

namespace Olympia

namespace VectorUopGenerator

/-! ## Legal instructions -/

/-- The `EMUL` of the vector source in a field, `none` for the element-wise types, where it differs
from instruction to instruction. -/
def sourceEmul (i : Inst) (field : OperandFieldID) : Option ℕ :=
  let lmul := i.vectorConfig.lmul
  match i.uopGen with
  | .elementwise => none
  | .singleSrc => some 1
  | .wideningMixed | .narrowing => some (if field = .rs2 then 2 * lmul else lmul)
  | .reduction | .reductionWide => some (if field = .rs2 then lmul else 1)
  | .intExt => some (max 1 (lmul / (viextOf i).getD 1))
  | _ => some lmul

/-- The `EMUL` of the destination. -/
def destEmul (i : Inst) : Option ℕ :=
  let lmul := i.vectorConfig.lmul
  match i.uopGen with
  | .elementwise => none
  | .singleDest | .reduction | .reductionWide => some 1
  | .widening | .wideningMixed | .macWide => some (2 * lmul)
  | _ => some lmul

/-- A legal vector instruction under a legal configuration, whose vector operands are groups of
`emul` registers each.  A vector source besides `RS1` and `RS2` is the mask `v0`, except for the
data of a store. -/
structure RvvLegal (i : Inst) (emul : OpInfo → ℕ) : Prop where
  sew : i.vectorConfig.sew ∈ [8, 16, 32, 64]
  lmul : i.vectorConfig.lmul ∈ [1, 2, 4, 8]
  vl : i.vectorConfig.vl ≤ i.vectorConfig.vlmax
  sizes : ∀ o ∈ i.srcs ++ i.dests, emul o ∈ [1, 2, 4, 8]
  aligned : ∀ o ∈ i.srcs ++ i.dests, o.regFile = .vector → emul o ∣ o.fieldValue
  within : ∀ o ∈ i.srcs ++ i.dests, o.regFile = .vector → o.fieldValue + emul o ≤ numRiscvRegs
  source : ∀ o ∈ i.srcs, o.regFile = .vector → o.fieldId = .rs2 ∨ o.fieldId = .rs1 →
    ∀ e ∈ sourceEmul i o.fieldId, emul o = e
  mask : i.uopGen ≠ .elementwise → ∀ o ∈ i.srcs, o.regFile = .vector →
    o.fieldId ≠ .rs2 → o.fieldId ≠ .rs1 → o.fieldValue = 0
  dest : ∀ o ∈ i.dests, o.regFile = .vector ∧ ∀ e ∈ destEmul i, emul o = e
  whole : i.isVectorWholeRegister = true → i.uopGen = .elementwise
  nf : i.nf ≤ nVectorUops
  operands : i.srcs.length + i.dests.length ≤ 4

/-- The operands that the generator may move beyond their group start low enough for the last
uop. -/
def HasRoom (i : Inst) (emul : OpInfo → ℕ) : Prop :=
  let last := uopCount i - 1
  match i.uopGen with
  | .elementwise => ∀ o ∈ i.srcs ++ i.dests, o.regFile = .vector → emul o ≤ last →
      o.fieldValue + last < numRiscvRegs
  | .reduction => (∀ o ∈ i.dests, o.fieldValue + last < numRiscvRegs) ∧
      ∀ o ∈ i.srcs, o.regFile = .vector → o.fieldId = .rs1 → o.fieldValue + last < numRiscvRegs
  | .reductionWide => i.vectorConfig.lmul ≤ 4 →
      (∀ o ∈ i.dests, o.fieldValue + last < numRiscvRegs) ∧
      ∀ o ∈ i.srcs, o.regFile = .vector →
        (o.fieldId = .rs2 → o.fieldValue + last < numRiscvRegs) ∧
        (o.fieldId = .rs1 → o.fieldValue + last / 2 < numRiscvRegs)
  | .slide1down => uopCount i = 0 → ∀ o ∈ i.srcs, o.regFile = .vector →
      o.fieldValue + 1 < numRiscvRegs
  | _ => True

/-- Every register of every uop of the instruction is one of the register file, so that the
accesses to `map_table_` with it are in bounds. -/
def UopsInRange (m : Mavis) (i : Inst) : Prop :=
  ∀ k uop g, Makes m i k uop g → ∀ ops, uopOperands (viextOf i) (uopCount i) k i = .ok ops →
    ∀ o ∈ ops.1 ++ ops.2, o.fieldValue < numRiscvRegs

variable {m : Mavis} {i : Inst} {emul : OpInfo → ℕ} {k : ℕ}

/-! ## The number of uops -/

theorem RvvLegal.count (h : RvvLegal i emul) : 1 ≤ i.vectorConfig.lmul ∧ i.vectorConfig.lmul ≤ 8 ∧
    i.vectorConfig.vl ⌈/⌉ (VectorConfig.vlen / i.vectorConfig.sew) ≤ i.vectorConfig.lmul := by
  have hlmul := h.lmul
  have helems : 0 < VectorConfig.vlen / i.vectorConfig.sew := by
    have hsew := h.sew
    simp only [List.mem_cons, List.not_mem_nil, or_false] at hsew
    rcases hsew with hsew | hsew | hsew | hsew <;> rw [hsew] <;> decide
  refine ⟨?_, ?_, (ceilDiv_le_iff_le_mul helems).mpr h.vl⟩
  all_goals
    simp only [List.mem_cons, List.not_mem_nil, or_false] at hlmul
    omega

/-- A uop of an instruction that is not element-wise is one for each register of `LMUL`, or one of
two for each. -/
theorem RvvLegal.uop_lt (h : RvvLegal i emul) (ht : i.uopGen ≠ .elementwise)
    (hk : k = 0 ∨ k < uopCount i) :
    (isWide i.uopGen = true → k < 2 * i.vectorConfig.lmul) ∧
      (isWide i.uopGen = false → k < i.vectorConfig.lmul) := by
  obtain ⟨hpos, -, hle⟩ := h.count
  have hwhole : i.isVectorWholeRegister = false := by
    rcases hwhole : i.isVectorWholeRegister with _ | _
    · rfl
    · exact absurd (h.whole hwhole) ht
  constructor
  · intro hwide
    have hcount : uopCount i =
        2 * (i.vectorConfig.vl ⌈/⌉ (VectorConfig.vlen / i.vectorConfig.sew)) := if_pos hwide
    omega
  · intro hwide
    have hcount : uopCount i = i.vectorConfig.vl ⌈/⌉ (VectorConfig.vlen / i.vectorConfig.sew) := by
      simp [uopCount, hwide, hwhole]
    omega

theorem RvvLegal.uop_lt_eight (h : RvvLegal i emul) (ht : i.uopGen ≠ .elementwise)
    (hk : k = 0 ∨ k < uopCount i) (hwide : isWide i.uopGen = true → i.vectorConfig.lmul ≤ 4) :
    k < 8 := by
  obtain ⟨hlt2, hlt1⟩ := h.uop_lt ht hk
  obtain ⟨-, hle, -⟩ := h.count
  rcases hw : isWide i.uopGen with _ | _
  · exact (hlt1 hw).trans_le hle
  · have hle4 := hwide hw
    have hlt := hlt2 hw
    omega

/-! ## The registers of one uop -/

theorem forall_numberedFrom {n : ℕ} {l : List OpInfo} {p : ℕ → Prop} :
    (∀ o ∈ numberedFrom n l, p o.fieldValue) ↔ ∀ o ∈ l, p o.fieldValue := by
  unfold numberedFrom
  constructor
  · intro h o ho
    obtain ⟨j, hj, rfl⟩ := List.mem_iff_getElem.mp ho
    exact h { l[j] with fieldId := rsField (n + j) } (List.mem_mapIdx.mpr ⟨j, hj, rfl⟩)
  · intro h o ho
    obtain ⟨j, hj, rfl⟩ := List.mem_mapIdx.mp ho
    exact h l[j] (List.getElem_mem hj)

theorem viextOf_cases (i : Inst) :
    viextOf i = none ∨ viextOf i = some 2 ∨ viextOf i = some 4 ∨ viextOf i = some 8 := by
  unfold viextOf
  split
  · split <;> simp
  · exact .inl rfl

/-- No source is moved through more registers than its group has, except those of the reductions
that `HasRoom` is about. -/
theorem sourceStep_lt_emul (h : RvvLegal i emul) (hk : k = 0 ∨ k < uopCount i) {o : OpInfo}
    (hfield : o.fieldId = .rs2 ∨ o.fieldId = .rs1)
    (hred : i.uopGen = .reduction → o.fieldId = .rs2) (hwide : i.uopGen ≠ .reductionWide) {e : ℕ}
    (he : e ∈ sourceEmul i o.fieldId) :
    sourceStep (treatedAs i.uopGen) ((viextOf i).getD 0) k o < e := by
  obtain ⟨hpos, -, -⟩ := h.count
  have hcount := fun ht => h.uop_lt ht hk
  cases ht : i.uopGen with
  | elementwise =>
    rw [sourceEmul, ht] at he
    cases he
  | reductionWide => exact absurd ht hwide
  | singleDest | slide1up | slide1down | permute | none | unknown =>
    rw [sourceEmul, ht] at he
    obtain rfl := Option.some.inj he
    exact hpos
  | singleSrc =>
    rw [sourceEmul, ht] at he
    obtain rfl := Option.some.inj he
    exact one_pos
  | mac =>
    rw [sourceEmul, ht] at he
    obtain rfl := Option.some.inj he
    exact (hcount (by simp [ht])).2 (by rw [ht]; rfl)
  | widening | macWide =>
    rw [sourceEmul, ht] at he
    obtain rfl := Option.some.inj he
    have hlt := (hcount (by simp [ht])).1 (by rw [ht]; rfl)
    show k / 2 < i.vectorConfig.lmul
    omega
  | wideningMixed =>
    rw [sourceEmul, ht] at he
    obtain rfl := Option.some.inj he
    have hlt := (hcount (by simp [ht])).1 (by rw [ht]; rfl)
    rcases hfield with hfield | hfield
    · simpa [treatedAs, sourceStep, hfield] using hlt
    · simp only [treatedAs, sourceStep, hfield, reduceCtorEq, if_false, if_true]
      omega
  | narrowing =>
    rw [sourceEmul, ht] at he
    obtain rfl := Option.some.inj he
    have hlt := (hcount (by simp [ht])).2 (by rw [ht]; rfl)
    rcases hfield with hfield | hfield
    · simp only [treatedAs, sourceStep, hfield, if_true]
      omega
    · simpa [treatedAs, sourceStep, hfield] using hlt
  | reduction =>
    rw [sourceEmul, ht] at he
    obtain rfl := Option.some.inj he
    have hlt := (hcount (by simp [ht])).2 (by rw [ht]; rfl)
    rw [if_pos (hred ht)]
    exact hlt
  | intExt =>
    rw [sourceEmul, ht] at he
    obtain rfl := Option.some.inj he
    have hlt := (hcount (by simp [ht])).2 (by rw [ht]; rfl)
    have hlmul := h.lmul
    simp only [List.mem_cons, List.not_mem_nil, or_false] at hlmul
    show k / (viextOf i).getD 0 < max 1 (i.vectorConfig.lmul / (viextOf i).getD 1)
    rcases viextOf_cases i with hext | hext | hext | hext
    · simp [hext]
    all_goals
      simp only [hext, Option.getD_some]
      omega

/-- A mask is moved at most by the number of its uop. -/
theorem sourceStep_le (t : UopGenType) (e k : ℕ) {o : OpInfo} (h2 : o.fieldId ≠ .rs2)
    (h1 : o.fieldId ≠ .rs1) : sourceStep t e k o ≤ k := by
  cases t <;> simp [sourceStep, h2, h1, Nat.div_le_self]

/-- A source moved by its step stays in the register file. -/
theorem source_lt (h : RvvLegal i emul) (hroom : HasRoom i emul) (hk : k = 0 ∨ k < uopCount i)
    (hwide : isWide i.uopGen = true → i.vectorConfig.lmul ≤ 4) {o : OpInfo} (ho : o ∈ i.srcs)
    (hfile : o.regFile = .vector) :
    o.fieldValue + sourceStep (treatedAs i.uopGen) ((viextOf i).getD 0) k o < numRiscvRegs := by
  have hwithin := h.within o (List.mem_append_left _ ho) hfile
  unfold HasRoom at hroom
  by_cases hel : i.uopGen = .elementwise
  · simp only [hel] at hroom ⊢
    have hmoved := hroom o (List.mem_append_left _ ho) hfile
    unfold numRiscvRegs at *
    show o.fieldValue + k < 32
    omega
  by_cases hfield : o.fieldId = .rs2 ∨ o.fieldId = .rs1
  · by_cases hred : i.uopGen = .reduction → o.fieldId = .rs2
    · by_cases hwred : i.uopGen = .reductionWide
      · simp only [hwred] at hwide hroom ⊢
        obtain ⟨hmoved2, hmoved1⟩ := (hroom (hwide rfl)).2 o ho hfile
        rcases hfield with hfield | hfield
        · have hmoved := hmoved2 hfield
          simp only [treatedAs, sourceStep, hfield, reduceCtorEq, if_false, if_true]
          omega
        · have hmoved := hmoved1 hfield
          simp only [treatedAs, sourceStep, hfield, reduceCtorEq, if_false, if_true]
          omega
      · obtain ⟨e, he⟩ : ∃ e, e ∈ sourceEmul i o.fieldId := by
          cases ht : i.uopGen <;> simp_all [sourceEmul]
        have hlt := sourceStep_lt_emul h hk hfield hred hwred he
        rw [← h.source o ho hfile hfield e he] at hlt
        omega
    · obtain ⟨hgen, h2⟩ := Classical.not_imp.mp hred
      simp only [hgen] at hroom ⊢
      have hmoved := hroom.2 o ho hfile (hfield.resolve_left h2)
      show o.fieldValue + k < numRiscvRegs
      omega
  · obtain ⟨h2, h1⟩ := not_or.mp hfield
    have hzero := h.mask hel o ho hfile h2 h1
    have hle := sourceStep_le (treatedAs i.uopGen) ((viextOf i).getD 0) k h2 h1
    have hlt := h.uop_lt_eight hel hk hwide
    unfold numRiscvRegs
    omega

/-- The group of a destination has a register for each uop, if it is no single register. -/
theorem RvvLegal.lt_destEmul (h : RvvLegal i emul) (hk : k = 0 ∨ k < uopCount i)
    (ht : i.uopGen ∉ [.elementwise, .singleDest, .reduction, .reductionWide]) :
    ∃ e ∈ destEmul i, k < e := by
  simp only [List.mem_cons, List.not_mem_nil, or_false, not_or] at ht
  obtain ⟨hel, hsingle, hred, hwred⟩ := ht
  obtain ⟨hlt2, hlt1⟩ := h.uop_lt hel hk
  cases hgen : i.uopGen with
  | elementwise => exact absurd hgen hel
  | singleDest => exact absurd hgen hsingle
  | reduction => exact absurd hgen hred
  | reductionWide => exact absurd hgen hwred
  | widening | wideningMixed | macWide =>
    exact ⟨2 * i.vectorConfig.lmul, by rw [destEmul, hgen]; rfl, hlt2 (by rw [hgen]; rfl)⟩
  | _ => exact ⟨i.vectorConfig.lmul, by rw [destEmul, hgen]; rfl, hlt1 (by rw [hgen]; rfl)⟩

/-- A destination that is moved stays in the register file. -/
theorem dest_lt (h : RvvLegal i emul) (hroom : HasRoom i emul) (hk : k = 0 ∨ k < uopCount i)
    (hwide : isWide i.uopGen = true → i.vectorConfig.lmul ≤ 4) (ht : i.uopGen ≠ .singleDest)
    {o : OpInfo} (ho : o ∈ i.dests) : o.fieldValue + k < numRiscvRegs := by
  have hwithin := h.within o (List.mem_append_right _ ho) (h.dest o ho).1
  unfold HasRoom at hroom
  by_cases hmoved : i.uopGen ∉ [.elementwise, .singleDest, .reduction, .reductionWide]
  · obtain ⟨e, he, hlt⟩ := h.lt_destEmul hk hmoved
    rw [← (h.dest o ho).2 e he] at hlt
    omega
  · simp only [List.mem_cons, List.not_mem_nil, or_false, not_not] at hmoved
    rcases hmoved with hgen | hgen | hgen | hgen
    · simp only [hgen] at hroom
      have hlast := hroom o (List.mem_append_right _ ho) (h.dest o ho).1
      omega
    · exact absurd hgen ht
    · simp only [hgen] at hroom
      have hlast := hroom.1 o ho
      omega
    · simp only [hgen] at hwide hroom
      have hlast := (hroom (hwide rfl)).1 o ho
      omega

/-- The sources of a slide stay in the register file. -/
theorem slideSources_lt (h : RvvLegal i emul) (hroom : HasRoom i emul)
    (hk : k = 0 ∨ k < uopCount i) (ht : i.uopGen = .slide1up ∨ i.uopGen = .slide1down)
    {o : OpInfo} (ho : o ∈ i.srcs) :
    ∀ o' ∈ slideSources i (uopCount i) k o, o'.fieldValue < numRiscvRegs := by
  have hlt : o.fieldValue < numRiscvRegs := i.srcs_lt o ho
  have hnot : i.uopGen ≠ .elementwise := by
    rcases ht with ht | ht <;> simp [ht]
  -- the group of a source has a register for each uop
  have hgroup : o.regFile = .vector → ∀ j, j = 0 ∨ j < uopCount i →
      o.fieldValue + j < numRiscvRegs := by
    intro hfile j hj
    have hwithin := h.within o (List.mem_append_left _ ho) hfile
    have hj : j < i.vectorConfig.lmul :=
      (h.uop_lt hnot hj).2 (by rcases ht with ht | ht <;> rw [ht] <;> rfl)
    obtain ⟨-, hle, -⟩ := h.count
    by_cases h2 : o.fieldId = .rs2 ∨ o.fieldId = .rs1
    · have he : emul o = i.vectorConfig.lmul := by
        refine h.source o ho hfile h2 _ ?_
        rcases ht with ht | ht <;> simp [sourceEmul, ht]
      omega
    · have hzero := h.mask hnot o ho hfile (fun h => h2 (.inl h)) (fun h => h2 (.inr h))
      unfold numRiscvRegs
      omega
  unfold HasRoom at hroom
  unfold slideSources
  by_cases hfile : o.regFile = .vector
  · rcases ht with ht | ht
    · simp only [ht, if_pos hfile, List.forall_mem_cons, if_true]
      refine ⟨hgroup hfile k hk, ?_⟩
      by_cases hzero : k = 0
      · simp [hzero]
      · simpa [hzero] using hgroup hfile (k - 1) (by omega)
    · simp only [ht, reduceCtorEq, if_false, if_pos hfile, List.forall_mem_cons] at hroom ⊢
      refine ⟨hgroup hfile k hk, ?_⟩
      by_cases hlast : k + 1 = uopCount i
      · simp [hlast]
      · have hnext : o.fieldValue + (k + 1) < numRiscvRegs := by
          by_cases hzero : uopCount i = 0
          · obtain rfl : k = 0 := by omega
            exact hroom hzero o ho hfile
          · exact hgroup hfile (k + 1) (by omega)
        simpa [hlast] using hnext
  · simp only [if_neg hfile]
    split <;> simp [hlt]

/-! ## The registers of all uops -/

/-- The sources that a uop has beyond those of its instruction stay in the register file. -/
theorem extraSources_lt (h : RvvLegal i emul) (hk : k = 0 ∨ k < uopCount i)
    (hdests : i.uopGen ≠ .singleDest → ∀ o ∈ i.dests, o.fieldValue + k < numRiscvRegs) :
    ∀ o ∈ extraSources i k, o.fieldValue < numRiscvRegs := by
  have hmac : i.uopGen ≠ .singleDest → ∀ j ≤ k,
      ∀ o ∈ numberedFrom i.srcs.length (i.dests.map (shift j)), o.fieldValue < numRiscvRegs := by
    intro ht j hj
    rw [forall_numberedFrom (p := (· < numRiscvRegs)), List.forall_mem_map]
    exact fun o ho => (Nat.add_le_add_left hj _).trans_lt (hdests ht o ho)
  have hred : i.uopGen ≠ .singleDest → ∀ o ∈ if k = 0 then [] else
      numberedFrom i.srcs.length (i.dests.map (shift (k - 1))), o.fieldValue < numRiscvRegs := by
    intro ht
    split
    · simp
    · exact hmac ht (k - 1) (Nat.sub_le k 1)
  unfold extraSources
  split
  · rename_i ht
    exact hmac (by simp [ht]) k le_rfl
  · rename_i ht
    exact hmac (by simp [ht]) k le_rfl
  · rename_i ht
    exact hred (by simp [ht])
  · rename_i ht
    exact hred (by simp [ht])
  · -- the group of `RS2` has two registers for each uop
    rename_i ht
    rw [List.forall_mem_map]
    intro o ho
    have hmem := List.mem_filter.mp (List.mem_of_getLast? (Option.mem_toList.mp ho))
    obtain ⟨hfile, hfield⟩ : o.regFile = .vector ∧ o.fieldId = .rs2 := by simpa using hmem.2
    have hlt := (h.uop_lt (by simp [ht]) hk).2 (by rw [ht]; rfl)
    have hwithin := h.within o (List.mem_append_left _ hmem.1) hfile
    have he : emul o = 2 * i.vectorConfig.lmul :=
      h.source o hmem.1 hfile (.inl hfield) _ (by simp [sourceEmul, ht, hfield])
    show o.fieldValue + (k * 2 + 1) < numRiscvRegs
    omega
  · simp

theorem operandsAs_lt (h : RvvLegal i emul) (hroom : HasRoom i emul)
    (hk : k = 0 ∨ k < uopCount i) (hwide : isWide i.uopGen = true → i.vectorConfig.lmul ≤ 4) :
    ∀ o ∈ (operandsAs (treatedAs i.uopGen) i (uopCount i) k).1 ++
      (operandsAs (treatedAs i.uopGen) i (uopCount i) k).2, o.fieldValue < numRiscvRegs := by
  have hdests : i.uopGen ≠ .singleDest → ∀ o ∈ i.dests, o.fieldValue + k < numRiscvRegs :=
    fun ht o ho => dest_lt h hroom hk hwide ht ho
  have hslides : i.uopGen = .slide1up ∨ i.uopGen = .slide1down →
      ∀ o ∈ i.srcs.flatMap (slideSources i (uopCount i) k), o.fieldValue < numRiscvRegs := by
    intro ht o' ho'
    obtain ⟨o, ho, ho'⟩ := List.mem_flatMap.mp ho'
    exact slideSources_lt h hroom hk ht ho o' ho'
  rw [List.forall_mem_append]
  constructor
  · unfold operandsAs
    dsimp only
    split
    · rename_i ht
      exact hslides (.inl ht)
    · rename_i ht
      exact hslides (.inr ht)
    · rw [List.forall_mem_append, List.forall_mem_map]
      refine ⟨fun o ho => ?_, extraSources_lt h hk hdests⟩
      unfold moveSource
      split
      · rename_i hfile
        exact source_lt h hroom hk hwide ho hfile
      · exact i.srcs_lt o ho
  · unfold operandsAs
    dsimp only
    split
    · exact fun o ho => i.dests_lt o ho
    · rename_i ht
      rw [List.forall_mem_map]
      exact hdests ht

/-- The last uop of an instruction is made, unless the generator asserts on the instruction. -/
theorem RvvLegal.exists_last (h : RvvLegal i emul) (m : Mavis)
    (ht : i.uopGen = .elementwise ∨ i.uopGen = .reduction ∨
      (i.uopGen = .reductionWide ∧ i.vectorConfig.lmul ≤ 4) ∨ i.uopGen = .slide1down) :
    ∃ uop g, Makes m i (uopCount i - 1) uop g := by
  have hsupported : i.uopGen ≠ .permute ∧ i.uopGen ≠ .none ∧ i.uopGen ≠ .unknown := by
    rcases ht with ht | ht | ⟨ht, -⟩ | ht <;> simp [ht]
  have hop : Operable i :=
    { supported := hsupported
      ext := fun hext => by rcases ht with ht | ht | ⟨ht, -⟩ | ht <;> simp [ht] at hext
      narrow := fun hn => by rcases ht with ht | ht | ⟨ht, -⟩ | ht <;> simp [ht] at hn
      operands := fun _ => h.operands }
  have hlmul : isWide i.uopGen = true → i.vectorConfig.lmul ≤ 4 := by
    intro hwide
    rcases ht with ht | ht | ⟨-, hle⟩ | ht
    · simp [ht, isWide] at hwide
    · simp [ht, isWide] at hwide
    · exact hle
    · simp [ht, isWide] at hwide
  have hcount : uopCount i ≤ nVectorUops := by
    have hnf := h.nf
    obtain ⟨-, hle8, hle⟩ := h.count
    unfold uopCount
    unfold nVectorUops at hnf ⊢
    dsimp only
    split
    · rename_i hwide
      have hlmul := hlmul hwide
      omega
    · split
      · split <;> omega
      · omega
  exact exists_makes (Consistent.setInst_eq_ok rfl hsupported.2 hlmul hcount)
    (fun j _ => uopOperands_eq_ok hop _ j) (by omega)

/-- What the last uop of an instruction needs. -/
theorem UopsInRange.last (h : RvvLegal i emul) (hrange : UopsInRange m i)
    (ht : i.uopGen = .elementwise ∨ i.uopGen = .reduction ∨
      (i.uopGen = .reductionWide ∧ i.vectorConfig.lmul ≤ 4) ∨ i.uopGen = .slide1down) :
    (∀ o ∈ i.dests, o.fieldValue + (uopCount i - 1) < numRiscvRegs) ∧
      (i.uopGen ≠ .slide1down → ∀ o ∈ i.srcs, o.regFile = .vector →
        o.fieldValue + sourceStep (treatedAs i.uopGen) ((viextOf i).getD 0) (uopCount i - 1) o <
          numRiscvRegs) ∧
      (i.uopGen = .slide1down → uopCount i = 0 → ∀ o ∈ i.srcs, o.regFile = .vector →
        o.fieldValue + 1 < numRiscvRegs) := by
  obtain ⟨uop, g, hmakes⟩ := h.exists_last m ht
  obtain ⟨-, ⟨ops, hops, -⟩, -⟩ := hmakes.spec
  have hall := hrange _ uop g hmakes ops hops
  rw [uopOperands_eq hops, List.forall_mem_append] at hall
  obtain ⟨hsrcs, hdests⟩ := hall
  refine ⟨fun o ho => ?_, fun hslide o ho hfile => ?_, fun hslide hzero o ho hfile => ?_⟩
  · have hsingle : i.uopGen ≠ .singleDest := by
      rcases ht with ht | ht | ⟨ht, -⟩ | ht <;> simp [ht]
    refine hdests (shift (uopCount i - 1) o) ?_
    simp only [operandsAs, if_neg hsingle]
    exact List.mem_map_of_mem ho
  · have hmem : moveSource (treatedAs i.uopGen) ((viextOf i).getD 0) (uopCount i - 1) o ∈
        (operandsAs (treatedAs i.uopGen) i (uopCount i) (uopCount i - 1)).1 := by
      have hmoved := List.mem_map_of_mem
        (f := moveSource (treatedAs i.uopGen) ((viextOf i).getD 0) (uopCount i - 1)) ho
      unfold operandsAs
      dsimp only
      split
      · rename_i hup
        rcases ht with ht | ht | ⟨ht, -⟩ | ht <;> simp [ht] at hup
      · rename_i hdown
        exact absurd hdown hslide
      · exact List.mem_append_left _ hmoved
    have hlt := hsrcs _ hmem
    unfold moveSource at hlt
    rwa [if_pos hfile] at hlt
  · refine hsrcs { shift 1 o with fieldId := .rs3 } ?_
    simp only [operandsAs, hslide]
    refine List.mem_flatMap.mpr ⟨o, ho, ?_⟩
    simp [slideSources, hslide, hzero, hfile]

/-- The uops of a legal instruction stay in the register file if and only if the operands that may
be moved beyond their group have room. -/
theorem uop_registers_in_range (m : Mavis) (i : Inst) (emul : OpInfo → ℕ) (h : RvvLegal i emul) :
    UopsInRange m i ↔ HasRoom i emul := by
  constructor
  · intro hrange
    have hlast := hrange.last h
    unfold HasRoom
    dsimp only
    split
    · rename_i ht
      obtain ⟨hdests, hsrcs, -⟩ := hlast (.inl ht)
      intro o ho hfile _
      rcases List.mem_append.mp ho with ho | ho
      · simpa [ht, treatedAs, sourceStep] using hsrcs (by simp [ht]) o ho hfile
      · exact hdests o ho
    · rename_i ht
      obtain ⟨hdests, hsrcs, -⟩ := hlast (.inr (.inl ht))
      refine ⟨hdests, fun o ho hfile _ => ?_⟩
      simpa [ht, treatedAs, sourceStep] using hsrcs (by simp [ht]) o ho hfile
    · rename_i ht
      intro hlmul
      obtain ⟨hdests, hsrcs, -⟩ := hlast (.inr (.inr (.inl ⟨ht, hlmul⟩)))
      refine ⟨hdests, fun o ho hfile => ⟨fun h2 => ?_, fun h1 => ?_⟩⟩
      · simpa [ht, treatedAs, sourceStep, h2] using hsrcs (by simp [ht]) o ho hfile
      · simpa [ht, treatedAs, sourceStep, h1] using hsrcs (by simp [ht]) o ho hfile
    · rename_i ht
      exact (hlast (.inr (.inr (.inr ht)))).2.2 ht
    · trivial
  · intro hroom k uop g hmakes ops hops
    rw [uopOperands_eq hops]
    exact operandsAs_lt h hroom hmakes.spec.1 hmakes.lmul_le

/-! ## Two instructions -/

/-- `vredsum.vs v31, v8, v4` with an `LMUL` of 4. -/
def vredsumVS : Inst :=
  { uniqueId := 1
    srcs := [vreg .rs2 8, vreg .rs1 4]
    dests := [vreg .rd 31]
    pipe := .vint
    isVector := true
    uopGen := .reduction
    vectorConfig := { lmul := 4, vl := 512 } }

/-- It is legal, and its second uop writes `v32`. -/
theorem vredsum_leaves_register_file :
    RvvLegal vredsumVS (fun o => if o.fieldId = .rs2 then 4 else 1) ∧
      (∃ uop g, Makes operandMavis vredsumVS 1 uop g ∧
        uopOperands (viextOf vredsumVS) (uopCount vredsumVS) 1 vredsumVS =
          .ok ([vreg .rs2 9, vreg .rs1 5, vreg .rs3 31], [vreg .rd 32])) ∧
      ¬UopsInRange operandMavis vredsumVS := by
  have hmakes : Makes operandMavis vredsumVS 1 _ _ := .next (.first rfl rfl) (by decide) rfl
  have hops : uopOperands (viextOf vredsumVS) (uopCount vredsumVS) 1 vredsumVS =
      .ok ([vreg .rs2 9, vreg .rs1 5, vreg .rs3 31], [vreg .rd 32]) := by decide
  refine ⟨?_, ⟨_, _, hmakes, hops⟩, fun hrange => ?_⟩
  · constructor <;> decide
  · exact absurd (hrange 1 _ _ hmakes _ hops (vreg .rd 32) (by decide)) (by decide)

/-- The registers of the uops of `vadd.vv v12, v4, v8` are in the register file. -/
theorem uop_registers_in_range_vadd : UopsInRange operandMavis vaddVV := by
  have hlegal : RvvLegal vaddVV fun _ => 4 := by constructor <;> decide
  have hcount : ¬4 ≤ uopCount vaddVV - 1 := by decide
  have hroom : HasRoom vaddVV fun _ => 4 := fun _ _ _ hbeyond => absurd hbeyond hcount
  exact (uop_registers_in_range operandMavis vaddVV _ hlegal).mpr hroom

end VectorUopGenerator

end Olympia
