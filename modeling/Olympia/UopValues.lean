import Olympia.Rename.Values
import Olympia.UopRegisters

/-!
# The uops of an instruction compute the instruction

A vector instruction computes the registers of its destination from the registers as they are before
it.  Its uops are renamed and executed as instructions of their own, one after the other in program
order, so a uop that reads a register which an older uop of the same instruction has written
computes something else.

A legal instruction may have destination and source groups that overlap: groups of the same size if
they are the same, a smaller destination at the low end of the source, a larger one whose high end
is the source.  The generator moves the operands so that a uop never reads what an older one has
written, whatever the overlap, except in the reductions, whose uops form a chain, and in the types
with a single destination: `uops_compute_together`.  An element-wise instruction has as many uops as
its `VL` and `SEW` ask for, and all of its operands move with them, so a group with fewer registers
is overrun: the last uops of `vluxei8` below read what stands behind its indices.
-/

namespace Olympia

open VectorUopGenerator

/-- Mavis makes an instruction of the operands it is given, if they name registers. -/
def Mavis.KeepsOperands (m : Mavis) : Prop :=
  ∀ i srcs dests, (∀ o ∈ srcs ++ dests, o.fieldValue < numRiscvRegs) →
    ((dests.filter fun o => !o.isX0).map OpInfo.reg).Nodup →
    (m.makeInstDirectly i srcs dests).srcs = srcs ∧ (m.makeInstDirectly i srcs dests).dests = dests

namespace VectorUopGenerator

/-! ## Legal overlaps -/

/-- The groups of a source and of the destination are apart. -/
def Apart (emul : OpInfo → ℕ) (o d : OpInfo) : Prop :=
  o.fieldValue + emul o ≤ d.fieldValue ∨ d.fieldValue + emul d ≤ o.fieldValue

instance (emul : OpInfo → ℕ) (o d : OpInfo) : Decidable (Apart emul o d) :=
  inferInstanceAs (Decidable (_ ∨ _))

/-- The source and the destination of an instruction overlap only as the vector extension allows: a
destination that is not larger at the low end of the source, and one that is not smaller with its
high end in the source.  The destination of a masked instruction is not `v0`, that of a
`vslide1up` is apart from the source, and the groups of an element-wise type have a register for
each uop. -/
structure LegalOverlap (i : Inst) (emul : OpInfo → ℕ) : Prop where
  oneDest : i.dests.length ≤ 1
  groups : ∀ o ∈ i.srcs, o.regFile = .vector → o.fieldId = .rs2 ∨ o.fieldId = .rs1 →
    ∀ d ∈ i.dests, Apart emul o d ∨ (emul d ≤ emul o ∧ d.fieldValue = o.fieldValue) ∨
      (emul o ≤ emul d ∧ o.fieldValue + emul o = d.fieldValue + emul d)
  mask : ∀ o ∈ i.srcs, o.regFile = .vector → o.fieldId ≠ .rs2 → o.fieldId ≠ .rs1 →
    ∀ d ∈ i.dests, o.fieldValue = 0 ∧ d.fieldValue ≠ 0
  slide1up : i.uopGen = .slide1up → ∀ o ∈ i.srcs, o.regFile = .vector →
    o.fieldId = .rs2 ∨ o.fieldId = .rs1 → ∀ d ∈ i.dests, Apart emul o d
  elementwise : i.uopGen = .elementwise → (∀ d ∈ i.dests, uopCount i ≤ emul d) ∧
    ∀ o ∈ i.srcs, o.regFile = .vector → o.fieldId = .rs2 ∨ o.fieldId = .rs1 →
      ∀ d ∈ i.dests, uopCount i ≤ emul o

theorem LegalOverlap.dests {i : Inst} {emul : OpInfo → ℕ} (h : LegalOverlap i emul) :
    i.dests = [] ∨ ∃ d, i.dests = [d] := by
  have hone := h.oneDest
  rcases hdests : i.dests with _ | ⟨d, _ | ⟨d', l⟩⟩
  · exact .inl rfl
  · exact .inr ⟨d, rfl⟩
  · simp [hdests] at hone

theorem LegalOverlap.eq_dest {i : Inst} {emul : OpInfo → ℕ} (h : LegalOverlap i emul)
    {d d' : OpInfo} (hd : d ∈ i.dests) (hd' : d' ∈ i.dests) : d = d' := by
  rcases h.dests with hdests | ⟨a, hdests⟩
  · simp [hdests] at hd
  · rw [hdests, List.mem_singleton] at hd hd'
    exact hd.trans hd'.symm

/-- The types whose uops each have their own part of the destination to compute. -/
def Divides (t : UopGenType) : Prop := t ≠ .singleDest ∧ t ≠ .reduction ∧ t ≠ .reductionWide

/-- How far from the source of the instruction the registers are that uop `k` of `n` reads. -/
def readSteps (i : Inst) (n k : ℕ) (o : OpInfo) : List ℕ :=
  match i.uopGen with
  | .slide1up => if k = 0 then [k] else [k, k - 1]
  | .slide1down => if k + 1 = n then [k] else [k, k + 1]
  | .narrowing => if o.fieldId = .rs2 then [k * 2, k * 2 + 1] else
      [sourceStep .narrowing ((viextOf i).getD 0) k o]
  | t => [sourceStep t ((viextOf i).getD 0) k o]

variable {m : Mavis} {i uop : Inst} {emul : OpInfo → ℕ} {g : VecUopGen} {j k n s : ℕ}

/-! ## What a uop reads -/

theorem mem_numberedFrom {l : List OpInfo} {o : OpInfo} (h : o ∈ numberedFrom n l) :
    ∃ o' ∈ l, o.regFile = o'.regFile ∧ o.fieldValue = o'.fieldValue := by
  obtain ⟨a, ha, rfl⟩ := List.mem_mapIdx.mp h
  exact ⟨_, List.getElem_mem ha, rfl, rfl⟩

theorem mem_slideSources {o o' : OpInfo} (ht : i.uopGen = .slide1up ∨ i.uopGen = .slide1down)
    (ho : o ∈ slideSources i n k o') (hfile : o.regFile = .vector) :
    o'.regFile = .vector ∧ ∃ s ∈ readSteps i n k o', o.fieldValue = o'.fieldValue + s := by
  have hvec : o'.regFile = .vector := by
    by_contra hne
    simp only [slideSources, if_neg hne, List.mem_ite_nil_right, List.mem_singleton] at ho
    exact hne (ho.2 ▸ hfile)
  refine ⟨hvec, ?_⟩
  simp only [slideSources, if_pos hvec, List.mem_cons, List.mem_ite_nil_left,
    List.not_mem_nil, or_false] at ho
  rcases ht with ht | ht
  · rcases ho with rfl | ⟨hk, rfl⟩
    · exact ⟨k, by by_cases hk : k = 0 <;> simp [readSteps, ht, hk], rfl⟩
    · simp only [ht, if_true, decide_eq_true_eq] at hk
      exact ⟨k - 1, by simp [readSteps, ht, hk], by simp [ht]⟩
  · rcases ho with rfl | ⟨hk, rfl⟩
    · exact ⟨k, by by_cases hk : k + 1 = n <;> simp [readSteps, ht, hk], rfl⟩
    · simp only [ht, reduceCtorEq, if_false, decide_eq_true_eq] at hk
      exact ⟨k + 1, by simp [readSteps, ht, hk], by simp [ht]⟩

theorem sourceStep_mem (ht : Divides i.uopGen) (hup : i.uopGen ≠ .slide1up)
    (hdown : i.uopGen ≠ .slide1down) (o : OpInfo) :
    sourceStep (treatedAs i.uopGen) ((viextOf i).getD 0) k o ∈ readSteps i n k o := by
  obtain ⟨hsingle, hred, hwide⟩ := ht
  rcases htype : i.uopGen
  case narrowing => by_cases hfield : o.fieldId = .rs2 <;>
    simp [readSteps, htype, treatedAs, sourceStep, hfield]
  all_goals first | contradiction | simp [readSteps, htype, treatedAs]

theorem mem_extraSources (ht : Divides i.uopGen) {o : OpInfo} (ho : o ∈ extraSources i k) :
    (∃ o' ∈ i.srcs, o'.regFile = .vector ∧
        ∃ s ∈ readSteps i n k o', o.fieldValue = o'.fieldValue + s) ∨
      ∃ d ∈ i.dests, o.fieldValue = d.fieldValue + k := by
  have hdest : o ∈ numberedFrom i.srcs.length (i.dests.map (shift k)) →
      ∃ d ∈ i.dests, o.fieldValue = d.fieldValue + k := by
    intro ho
    obtain ⟨o', ho', -, hvalue⟩ := mem_numberedFrom ho
    obtain ⟨d, hd, rfl⟩ := List.mem_map.mp ho'
    exact ⟨d, hd, hvalue⟩
  unfold extraSources at ho
  split at ho
  · exact .inr (hdest ho)
  · exact .inr (hdest ho)
  · exact absurd ‹_› ht.2.1
  · exact absurd ‹_› ht.2.2
  · rename_i htype
    obtain ⟨o', ho', rfl⟩ := List.mem_map.mp ho
    obtain ⟨hmem, hsel⟩ := List.mem_filter.mp
      (List.mem_of_getLast? (Option.mem_toList.mp ho'))
    obtain ⟨hvec, hfield⟩ := of_decide_eq_true hsel
    exact .inl ⟨o', hmem, hvec, k * 2 + 1, by simp [readSteps, htype, hfield], rfl⟩
  · cases ho

/-- A uop reads registers of the sources, and what it accumulates into. -/
theorem mem_sources (ht : Divides i.uopGen) {o : OpInfo}
    (ho : o ∈ (operandsAs (treatedAs i.uopGen) i n k).1) (hfile : o.regFile = .vector) :
    (∃ o' ∈ i.srcs, o'.regFile = .vector ∧
        ∃ s ∈ readSteps i n k o', o.fieldValue = o'.fieldValue + s) ∨
      ∃ d ∈ i.dests, o.fieldValue = d.fieldValue + k := by
  have hslides : i.uopGen = .slide1up ∨ i.uopGen = .slide1down →
      o ∈ i.srcs.flatMap (slideSources i n k) → ∃ o' ∈ i.srcs, o'.regFile = .vector ∧
        ∃ s ∈ readSteps i n k o', o.fieldValue = o'.fieldValue + s := by
    intro hslide ho
    obtain ⟨o', ho', ho⟩ := List.mem_flatMap.mp ho
    exact ⟨o', ho', mem_slideSources hslide ho hfile⟩
  unfold operandsAs at ho
  dsimp only at ho
  split at ho
  · exact .inl (hslides (.inl ‹_›) ho)
  · exact .inl (hslides (.inr ‹_›) ho)
  · rename_i hup hdown
    rcases List.mem_append.mp ho with ho | ho
    · obtain ⟨o', ho', rfl⟩ := List.mem_map.mp ho
      rw [moveSource_regFile] at hfile
      refine .inl ⟨o', ho', hfile, _, sourceStep_mem ht hup hdown o', ?_⟩
      simp [moveSource, hfile]
    · exact mem_extraSources ht ho

/-! ## What is read is not written before -/

/-- The generator does not assert on the sources of the instruction. -/
structure Moves (i : Inst) : Prop where
  supported : i.uopGen ≠ .permute ∧ i.uopGen ≠ .none ∧ i.uopGen ≠ .unknown
  ext : i.uopGen = .intExt → ∀ o ∈ i.srcs, o.regFile = .vector → viextOf i ≠ none

theorem moves_of_ok {ops : List OpInfo × List OpInfo}
    (h : uopOperands (viextOf i) n k i = .ok ops) : Moves i := by
  constructor
  · refine ⟨fun ht => ?_, fun ht => ?_, fun ht => ?_⟩ <;> simp [uopOperands, ht] at h
  · intro ht o ho hfile hnone
    simp only [uopOperands, ht, generateUops] at h
    obtain ⟨srcs, hsrcs, -⟩ := Run.bind_eq_ok.mp h
    obtain ⟨o', ho'⟩ := Run.mapM_ok_mem hsrcs ho
    simp [shiftSrc, hfile, hnone] at ho'

/-- The destination group has a register for each uop. -/
theorem lt_emul_dest (L : RvvLegal i emul) (h : LegalOverlap i emul) (ht : Divides i.uopGen)
    (hk : k < uopCount i) {d : OpInfo} (hd : d ∈ i.dests) : k < emul d := by
  obtain ⟨hsingle, hred, hwide⟩ := ht
  by_cases hel : i.uopGen = .elementwise
  · exact hk.trans_le ((h.elementwise hel).1 d hd)
  · obtain ⟨e, he, hlt⟩ := L.lt_destEmul (.inr hk) (by simp [hel, hsingle, hred, hwide])
    rwa [(L.dest d hd).2 e he]

/-- What uop `k` reads of a source group: it is in the group, and not below where the uop writes,
wherever the groups may overlap. -/
structure Ahead (i : Inst) (emul : OpInfo → ℕ) (o d : OpInfo) (k s : ℕ) : Prop where
  lt_emul : s < emul o
  low : i.uopGen ≠ .slide1up → emul d ≤ emul o → k ≤ s
  high : i.uopGen ≠ .slide1up → emul o ≤ emul d → k + emul o ≤ s + emul d

theorem readSteps_ahead (L : RvvLegal i emul) (h : LegalOverlap i emul) (ht : Divides i.uopGen)
    (hmoves : Moves i) (hk : k < uopCount i) {o d : OpInfo} (ho : o ∈ i.srcs)
    (hvec : o.regFile = .vector) (hfield : o.fieldId = .rs2 ∨ o.fieldId = .rs1) (hd : d ∈ i.dests)
    (hs : s ∈ readSteps i (uopCount i) k o) : Ahead i emul o d k s := by
  obtain ⟨hsingle, hred, hwred⟩ := ht
  obtain ⟨hperm, hnone, hunknown⟩ := hmoves.supported
  have hsource := L.source o ho hvec hfield
  have hdest := (L.dest d hd).2
  rcases hgen : i.uopGen
  case elementwise =>
    obtain ⟨hdests, hsrcs⟩ := h.elementwise hgen
    have hle := hsrcs o ho hvec hfield d hd
    simp only [readSteps, hgen, sourceStep, List.mem_singleton] at hs
    subst hs
    exact ⟨hk.trans_le hle, fun _ _ => le_rfl, fun _ hle => Nat.add_le_add_left hle s⟩
  case singleDest | reduction | reductionWide | permute | none | unknown => contradiction
  all_goals
    obtain ⟨hlt2, hlt1⟩ := L.uop_lt (by simp [hgen]) (.inr hk)
  case singleSrc =>
    have ho := hsource 1 (by simp [sourceEmul, hgen])
    have hd := hdest i.vectorConfig.lmul (by simp [destEmul, hgen])
    have hlt := hlt1 (by rw [hgen]; rfl)
    simp only [readSteps, hgen, sourceStep, List.mem_singleton] at hs
    constructor <;> omega
  case mac =>
    have ho := hsource i.vectorConfig.lmul (by simp [sourceEmul, hgen])
    have hd := hdest i.vectorConfig.lmul (by simp [destEmul, hgen])
    have hlt := hlt1 (by rw [hgen]; rfl)
    simp only [readSteps, hgen, sourceStep, List.mem_singleton] at hs
    constructor <;> omega
  case widening | macWide =>
    have ho := hsource i.vectorConfig.lmul (by simp [sourceEmul, hgen])
    have hd := hdest (2 * i.vectorConfig.lmul) (by simp [destEmul, hgen])
    have hlt := hlt2 (by rw [hgen]; rfl)
    simp only [readSteps, hgen, sourceStep, List.mem_singleton] at hs
    constructor <;> omega
  case wideningMixed =>
    have ho := hsource (if o.fieldId = .rs2 then 2 * i.vectorConfig.lmul else i.vectorConfig.lmul)
      (by simp [sourceEmul, hgen])
    have hd := hdest (2 * i.vectorConfig.lmul) (by simp [destEmul, hgen])
    have hlt := hlt2 (by rw [hgen]; rfl)
    rcases hfield with hfield | hfield <;>
      simp only [readSteps, hgen, sourceStep, hfield, reduceCtorEq, if_true, if_false,
        List.mem_singleton] at ho hs <;>
      constructor <;> omega
  case narrowing =>
    have ho := hsource (if o.fieldId = .rs2 then 2 * i.vectorConfig.lmul else i.vectorConfig.lmul)
      (by simp [sourceEmul, hgen])
    have hd := hdest i.vectorConfig.lmul (by simp [destEmul, hgen])
    have hlt := hlt1 (by rw [hgen]; rfl)
    rcases hfield with hfield | hfield <;>
      simp only [readSteps, hgen, sourceStep, hfield, reduceCtorEq, if_true, if_false,
        List.mem_cons, List.not_mem_nil, or_false] at ho hs <;>
      constructor <;> omega
  case intExt =>
    have ho := hsource _ (by rw [sourceEmul, hgen]; rfl)
    have hd := hdest i.vectorConfig.lmul (by simp [destEmul, hgen])
    have hlt := hlt1 (by rw [hgen]; rfl)
    have hlmul := L.lmul
    simp only [List.mem_cons, List.not_mem_nil, or_false] at hlmul
    simp only [readSteps, hgen, sourceStep, List.mem_singleton] at hs
    rcases viextOf_cases i with hext | hext | hext | hext
    · exact absurd hext (hmoves.ext hgen o ‹_› hvec)
    all_goals
      simp only [hext, Option.getD_some] at ho hs
      constructor <;> omega
  case slide1up =>
    have ho := hsource i.vectorConfig.lmul (by simp [sourceEmul, hgen])
    have hlt := hlt1 (by rw [hgen]; rfl)
    have hlt_emul : s < emul o := by
      simp only [readSteps, hgen] at hs
      split at hs <;> simp only [List.mem_cons, List.not_mem_nil, or_false] at hs <;> omega
    exact ⟨hlt_emul, fun hne => absurd hgen hne, fun hne => absurd hgen hne⟩
  case slide1down =>
    have ho := hsource i.vectorConfig.lmul (by simp [sourceEmul, hgen])
    have hd := hdest i.vectorConfig.lmul (by simp [destEmul, hgen])
    have hlt := hlt1 (by rw [hgen]; rfl)
    simp only [readSteps, hgen] at hs
    split at hs
    · simp only [List.mem_singleton] at hs
      constructor <;> omega
    · rename_i hmore
      have hnext := (L.uop_lt (k := k + 1) (by simp [hgen]) (.inr (by omega))).2 (by rw [hgen]; rfl)
      simp only [List.mem_cons, List.not_mem_nil, or_false] at hs
      constructor <;> omega

/-- A mask is read at most as far on as there are uops. -/
theorem mask_readSteps_lt {o : OpInfo} (hk : k < n) (h2 : o.fieldId ≠ .rs2)
    (h1 : o.fieldId ≠ .rs1) (hs : s ∈ readSteps i n k o) : s < n := by
  unfold readSteps at hs
  split at hs
  · split at hs <;> simp only [List.mem_cons, List.not_mem_nil, or_false] at hs <;> omega
  · split at hs <;> simp only [List.mem_cons, List.not_mem_nil, or_false] at hs <;> omega
  · rw [if_neg h2] at hs
    rw [List.mem_singleton.mp hs]
    exact (sourceStep_le _ _ k h2 h1).trans_lt hk
  · rw [List.mem_singleton.mp hs]
    exact (sourceStep_le _ _ k h2 h1).trans_lt hk

/-- What a uop reads of a source is not what an older uop writes. -/
theorem readSteps_ne (L : RvvLegal i emul) (h : LegalOverlap i emul) (ht : Divides i.uopGen)
    (hmoves : Moves i) (hk : k < uopCount i) (hjk : j < k) {o d : OpInfo} (ho : o ∈ i.srcs)
    (hvec : o.regFile = .vector) (hd : d ∈ i.dests) (hs : s ∈ readSteps i (uopCount i) k o) :
    o.fieldValue + s ≠ d.fieldValue + j := by
  have hj := lt_emul_dest L h ht (hjk.trans hk) hd
  by_cases hfield : o.fieldId = .rs2 ∨ o.fieldId = .rs1
  · obtain ⟨hlt, hlow, hhigh⟩ := readSteps_ahead L h ht hmoves hk ho hvec hfield hd hs
    by_cases hup : i.uopGen = .slide1up
    · rcases h.slide1up hup o ho hvec hfield d hd with hle | hle <;> omega
    · have hlow := hlow hup
      have hhigh := hhigh hup
      rcases h.groups o ho hvec hfield d hd with (hle | hle) | ⟨hle, heq⟩ | ⟨hle, heq⟩ <;> omega
  · -- `v0`: the destination is aligned, so it begins behind the registers that are read
    obtain ⟨h2, h1⟩ := not_or.mp hfield
    obtain ⟨hzero, hne⟩ := h.mask o ho hvec h2 h1 d hd
    have hs := lt_emul_dest L h ht (mask_readSteps_lt hk h2 h1 hs) hd
    have hle := Nat.le_of_dvd (Nat.pos_of_ne_zero hne)
      (L.aligned d (List.mem_append_right _ hd) (L.dest d hd).1)
    omega

/-! ## The uops -/

/-- The operands of a uop that is made. -/
theorem operands_of_makes (hm : m.KeepsOperands) (L : RvvLegal i emul) (hroom : HasRoom i emul)
    (h : LegalOverlap i emul) (ht : Divides i.uopGen) (hmakes : Makes m i k uop g) :
    Moves i ∧ uop.srcs = (operandsAs (treatedAs i.uopGen) i (uopCount i) k).1 ∧
      uop.dests = i.dests.map (shift k) := by
  obtain ⟨hk, ⟨ops, hops, rfl⟩, -⟩ := hmakes.spec
  obtain rfl := uopOperands_eq hops
  have hdests : (operandsAs (treatedAs i.uopGen) i (uopCount i) k).2 = i.dests.map (shift k) :=
    if_neg ht.1
  have hlt := operandsAs_lt L hroom hk hmakes.lmul_le
  have hnodup : (((operandsAs (treatedAs i.uopGen) i (uopCount i) k).2.filter
      fun o => !o.isX0).map OpInfo.reg).Nodup := by
    rw [hdests]
    rcases h.dests with hd | ⟨d, hd⟩
    · simp [hd]
    · rw [hd, List.map_singleton, List.filter_singleton]
      cases (shift k d).isX0 <;> simp
  obtain ⟨hsrcs, hdests'⟩ := hm i _ _ hlt hnodup
  exact ⟨moves_of_ok hops, hsrcs, hdests'.trans hdests⟩

/-- The registers that a uop writes. -/
theorem writes_uop (L : RvvLegal i emul) (hdests : uop.dests = i.dests.map (shift k))
    {r : ArchReg} (hw : uop.writes r = true) : ∃ d ∈ i.dests, r = (.vector, d.fieldValue + k) := by
  unfold Inst.writes at hw
  rw [hdests, List.any_map, List.any_eq_true] at hw
  obtain ⟨d, hd, hw⟩ := hw
  obtain rfl : (shift k d).reg = r := by simpa using (Bool.and_eq_true_iff.mp hw).2
  exact ⟨d, hd, Prod.ext (L.dest d hd).1 rfl⟩

end VectorUopGenerator

/-- Executing the uops of a legal vector instruction one after the other computes the same as
executing all of them at once on the registers as they are before the instruction, if the uops have
room in the register file and the groups overlap only as `LegalOverlap` says. -/
theorem uops_compute_together (m : Mavis) (hm : m.KeepsOperands) {p : RenameParams} {V : Type}
    (sem : RegisterSemantics p V) (i : Inst) (emul : OpInfo → ℕ) (L : RvvLegal i emul)
    (hroom : HasRoom i emul) (h : LegalOverlap i emul) (ht : Divides i.uopGen) {uops : List Inst}
    (huops : ∀ k uop, uops[k]? = some uop → ∃ g, Makes m i k uop g) (regs : ArchReg → V) :
    sem.execute regs uops = sem.toSemantics.parallel regs uops := by
  refine Dataflow.Semantics.Independent.run_eq _ (List.pairwise_iff_getElem.mpr ?_) regs
  intro j k hj hk hjk r hw
  obtain ⟨gj, hmakesj⟩ := huops j _ (List.getElem?_eq_getElem hj)
  obtain ⟨gk, hmakesk⟩ := huops k _ (List.getElem?_eq_getElem hk)
  obtain ⟨-, -, hdestsj⟩ := operands_of_makes hm L hroom h ht hmakesj
  obtain ⟨hmoves, hsrcs, hdestsk⟩ := operands_of_makes hm L hroom h ht hmakesk
  have hlt : k < uopCount i := hmakesk.spec.1.resolve_left (Nat.ne_of_gt (Nat.zero_lt_of_lt hjk))
  obtain ⟨d, hd, rfl⟩ := writes_uop L hdestsj hw
  constructor
  · intro hr
    obtain ⟨o, ho, hreg⟩ := List.mem_map.mp hr
    obtain ⟨hfile, hvalue⟩ := Prod.mk.inj hreg
    have ho := (List.mem_filter.mp ho).1
    rw [hsrcs] at ho
    rcases mem_sources ht ho hfile with ⟨o', ho', hvec, s, hs, heq⟩ | ⟨d', hd', heq⟩
    · exact readSteps_ne L h ht hmoves hlt hjk ho' hvec hd hs (heq.symm.trans hvalue)
    · obtain rfl := h.eq_dest hd hd'
      omega
  · by_contra hw'
    obtain ⟨d', hd', heq⟩ := writes_uop L hdestsk (Bool.not_eq_false _ ▸ hw')
    obtain rfl := h.eq_dest hd hd'
    have := (Prod.mk.inj heq).2
    omega

/-- `vwadd.vv v8, v12, v24` with an `LMUL` of 4: a source is the high end of the destination. -/
def vwaddVV : Inst :=
  { uniqueId := 1
    srcs := [vreg .rs2 12, vreg .rs1 24]
    dests := [vreg .rd 8]
    pipe := .vint
    isVector := true
    uopGen := .widening
    vectorConfig := { lmul := 4, vl := 512 } }

theorem operandMavis_keepsOperands : operandMavis.KeepsOperands := by
  intro i srcs dests hlt hnodup
  obtain ⟨hsrcs, hdests⟩ := List.forall_mem_append.mp hlt
  have hall : (∀ o ∈ srcs, o.fieldValue < 32) ∧ (∀ o ∈ dests, o.fieldValue < 32) ∧
      ((dests.filter fun o => !o.isX0).map OpInfo.reg).Nodup := ⟨hsrcs, hdests, hnodup⟩
  simp only [operandMavis, dif_pos hall, and_self]

/-- Its uops write `v12` to `v15`, after they have read them. -/
theorem uops_compute_together_vwadd :
    ∃ uops : List Inst, uops.length = 8 ∧
      uops[0]?.map Inst.reads = some [(.vector, 12), (.vector, 24)] ∧
      (uops[4]?.map fun i : Inst => i.writes (.vector, 12)) = some true ∧
      (summing {} rfl).execute (fun r => 100 * r.2) uops =
        (summing {} rfl).toSemantics.parallel (fun r => 100 * r.2) uops := by
  have hlegal : RvvLegal vwaddVV fun o => if o.fieldId = .rd then 8 else 4 := by
    constructor <;> decide
  have hoverlap : LegalOverlap vwaddVV fun o => if o.fieldId = .rd then 8 else 4 := by
    constructor <;> decide
  have hcount : uopCount vwaddVV = 8 := by decide
  have huops : ∀ k uop, ((List.range 8).map fun k =>
      makeUop operandMavis vwaddVV k (operandsAs .widening vwaddVV 8 k))[k]? = some uop →
      ∃ g, Makes operandMavis vwaddVV k uop g := by
    intro k uop hk
    rw [List.getElem?_map, Option.map_eq_some_iff] at hk
    obtain ⟨k', hk', rfl⟩ := hk
    obtain ⟨hlt, rfl⟩ : k < 8 ∧ k = k' := by
      simpa [List.getElem?_eq_some_iff] using hk'
    have hops : ∀ j ≤ k, ∃ ops, uopOperands (viextOf vwaddVV) (uopCount vwaddVV) j vwaddVV =
        .ok ops := fun j _ => ⟨_, rfl⟩
    obtain ⟨uop, g, hmakes⟩ := exists_makes (m := operandMavis) ⟨_, rfl⟩ hops (.inr hlt)
    obtain ⟨-, ⟨ops, hops, rfl⟩, -⟩ := hmakes.spec
    obtain rfl := uopOperands_eq hops
    exact ⟨g, hmakes⟩
  refine ⟨_, ?_, ?_, ?_, uops_compute_together operandMavis operandMavis_keepsOperands _ vwaddVV _
    hlegal trivial hoverlap (by unfold Divides; decide) huops _⟩
  · rfl
  · decide
  · decide

/-- `vluxei8.v v4, (x1), v3` with `SEW` 32 and `LMUL` 4: the indices are one register. -/
def vluxei8 : Inst :=
  { uniqueId := 1
    srcs := [vreg .rs2 3]
    dests := [vreg .rd 4]
    pipe := .vload
    isVector := true
    uopGen := .elementwise
    vectorConfig := { sew := 32, lmul := 4, vl := 128 } }

/-- The second uop reads `v4`, which the first one writes. -/
example : uopCount vluxei8 = 4 ∧
    (makeUop operandMavis vluxei8 0 (operandsAs .elementwise vluxei8 4 0)).writes (.vector, 4) ∧
    (.vector, 4) ∈
      (makeUop operandMavis vluxei8 1 (operandsAs .elementwise vluxei8 4 1)).reads := by
  decide

end Olympia
