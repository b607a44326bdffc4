import Olympia.Lib.Dataflow
import Olympia.Rename.LoadProducer

/-!
# Renaming and the values of registers

The model of the core has no values in its registers.  `RegisterSemantics` gives every instruction
a meaning: what it computes for the registers it writes from the values of the registers it reads,
where an instruction that can be eliminated copies the register it is eliminated to.

`registerRenaming` presents `Rename` as a renaming in the sense of `Dataflow`: the tags are the
physical registers, and what an instruction takes are the registers it has from the free list.
`WellRenamed.renames` says that an instruction that has been renamed keeps to its meaning.
-/

namespace Olympia

/-! ## The meaning of instructions -/

/-- The registers an instruction reads; `x0` has no value of its own. -/
def Inst.reads (i : Inst) : List ArchReg := (i.srcs.filter fun o => !o.isX0).map OpInfo.reg

/-- The source operand an eliminated instruction hands on. -/
def Inst.movedOperand (p : RenameParams) (i : Inst) (f : RegFile) : Option OpInfo :=
  if p.moveElimination && i.isMove then
    ((i.srcs.filter fun o => !o.isX0 && !i.isDataOperand o).filter
      fun o => decide (o.regFile = f)).head?
  else none

theorem Inst.movedOperand_eq_none {p : RenameParams} (h : p.moveElimination = false) (i : Inst)
    (f : RegFile) : i.movedOperand p f = none := by
  unfold Inst.movedOperand
  rw [h, Bool.false_and]
  rfl

/-- What instructions compute, from the values of `Inst.reads`. -/
structure RegisterSemantics (p : RenameParams) (V : Type) where
  result : Inst → List V → ArchReg → V
  moves : ∀ (i : Inst) (r : ArchReg) (o : OpInfo), i.movedOperand p r.1 = some o →
    i.writes r = true → ∀ m : ArchReg → V, result i (i.reads.map m) r = m o.reg

namespace RegisterSemantics

variable {p : RenameParams} {V : Type}

def toSemantics (sem : RegisterSemantics p V) : Dataflow.Semantics Inst ArchReg V where
  reads := Inst.reads
  writes := Inst.writes
  result := sem.result

/-- The values of the registers after the instructions, executed one after the other. -/
def execute (sem : RegisterSemantics p V) (m : ArchReg → V) (program : List Inst) : ArchReg → V :=
  sem.toSemantics.run m program

end RegisterSemantics

/-- Instructions add up what they read, and their identifier. -/
def summing (p : RenameParams) (hp : p.moveElimination = false) : RegisterSemantics p ℕ where
  result i vals _ := vals.foldl Nat.add i.uniqueId
  moves i r _ h := nomatch (Inst.movedOperand_eq_none hp i r.1).symm.trans h

/-- The architectural registers. -/
def isArchReg (r : ArchReg) : Prop := r.2 ∈ archRegs r.1

theorem Inst.isArchReg_of_reads {i : Inst} {r : ArchReg} (hr : r ∈ i.reads) : isArchReg r := by
  obtain ⟨o, ho, rfl⟩ := List.mem_map.mp hr
  obtain ⟨ho, hx0⟩ := List.mem_filter.mp ho
  exact o.fieldValue_mem_archRegs (i.srcs_lt o ho) (by simpa using hx0)

/-! ## Rename as a renaming -/

/-- The register whose value the instruction writes to a physical register of its own. -/
def RenamedInst.destOf (ri : RenamedInst) (t : RegFile × ℕ) : Option ArchReg :=
  if t.2 ∈ ri.destMask t.1 then
    (ri.dest.find? fun d => decide (d.opInfo.regFile = t.1 ∧ d.physReg = t.2)).map
      fun d => d.opInfo.reg
  else none

def registerRenaming (x0 : ℕ) :
    Dataflow.Renaming Inst ArchReg (RegFile × ℕ) RenamedInst InstKey where
  inst := RenamedInst.inst
  key := RenamedInst.key
  sources ri := ri.src.map fun r => (r.opInfo.regFile, r.physReg)
  dest := RenamedInst.destOf
  table older r := (r.1, tableAfter x0 older r)

/-- No two destinations of the instruction have the same register from the free list. -/
def RenamedInst.TakesOnce (ri : RenamedInst) : Prop :=
  ∀ d ∈ ri.dest, ∀ d' ∈ ri.dest, d.opInfo.regFile = d'.opInfo.regFile → d.physReg = d'.physReg →
    d.physReg ∈ ri.destMask d.opInfo.regFile → d.opInfo.reg = d'.opInfo.reg

/-! ## What an instruction takes -/

section Takes

variable {p : RenameParams} {t t' : RenameTables} {ri ri' : RenamedInst} {o : OpInfo}

/-- What an iteration of `renameDests_` keeps: what has been taken is not free any more. -/
structure TakingOnce (p : RenameParams) (free : RegFile → List ℕ) (ri : RenamedInst) : Prop where
  nodup : ∀ f, (free f).Nodup
  taken : ∀ f, ∀ q ∈ ri.destMask f, q ∉ free f
  origin : ∀ d ∈ ri.dest, ri.DestOrigin p d
  shares : TakesOrShares p ri
  once : ri.TakesOnce

/-- The free lists of the register files. -/
def RenameTables.freelists (t : RenameTables) (f : RegFile) : List ℕ :=
  (t.regfileComponents f).freelist

theorem freelists_update {c : RegfileComponents} {m : ArchReg → ℕ} {q : List RenamedInst}
    {g : RegFile} :
    RenameTables.freelists ⟨m, q, Function.update t.regfileComponents g c⟩ =
      Function.update t.freelists g c.freelist := by
  funext f
  by_cases hf : f = g
  · subst hf
    simp [RenameTables.freelists]
  · simp [RenameTables.freelists, hf]

namespace TakingOnce

variable {free : RegFile → List ℕ} {prev : ℕ}

theorem share (H : TakingOnce p free ri) {r : Reg} (hmove : moveSource p ri o.regFile = some r) :
    TakingOnce p free ({ ri with targetROB := true }.addDestRegister ⟨r.physReg, o, prev⟩) := by
  have hnone : ri.destMask o.regFile = ∅ := H.shares _ r hmove
  refine ⟨H.nodup, H.taken, fun d hd => ?_, H.shares, fun d hd d' hd' hf hq hmem => ?_⟩
  · rcases List.mem_append.mp hd with hd | hd
    · exact H.origin d hd
    · rw [List.mem_singleton.mp hd]
      exact .inr ⟨r, hmove, rfl⟩
  · have hmem : d.physReg ∈ ri.destMask d.opInfo.regFile := hmem
    -- in the file of the operand nothing is taken
    have hold : ∀ e : Reg, e ∈ ri.dest ++ [⟨r.physReg, o, prev⟩] →
        e.opInfo.regFile = d.opInfo.regFile → e ∈ ri.dest := by
      intro e he hfile
      rcases List.mem_append.mp he with he | he
      · exact he
      · rw [List.mem_singleton.mp he] at hfile
        rw [← hfile, hnone] at hmem
        cases hmem
    exact H.once d (hold d hd rfl) d' (hold d' hd' hf.symm) hf hq hmem

theorem take (H : TakingOnce p free ri) {front : ℕ} {rest : List ℕ}
    (hnone : moveSource p ri o.regFile = none) (hfree : free o.regFile = front :: rest) :
    TakingOnce p (Function.update free o.regFile rest)
      ((ri.setDestRegisterBit ⟨front, o, prev⟩).addDestRegister ⟨front, o, prev⟩) := by
  have hfront := H.nodup o.regFile
  rw [hfree, List.nodup_cons] at hfront
  have hmask : ∀ f q, q ∈ (ri.setDestRegisterBit ⟨front, o, prev⟩).destMask f ↔
      q ∈ ri.destMask f ∨ (f = o.regFile ∧ q = front) := by
    intro f q
    by_cases hf : f = o.regFile
    · subst hf
      simp [RenamedInst.setDestRegisterBit, or_comm]
    · simp [RenamedInst.setDestRegisterBit, hf]
  -- what stands in the file of the operand already has been taken before
  have hbefore : ∀ d ∈ ri.dest, d.opInfo.regFile = o.regFile → d.physReg ≠ front := by
    rintro d hd hfile rfl
    rcases H.origin d hd with hpop | ⟨src, hmove, -⟩
    · rw [hfile] at hpop
      refine H.taken _ _ hpop ?_
      rw [hfree]
      exact List.mem_cons_self
    · rw [hfile, hnone] at hmove
      cases hmove
  refine ⟨fun f => ?_, fun f q hq => ?_, fun d hd => ?_, fun f src hmove => ?_,
    fun d hd d' hd' hf hq hmem => ?_⟩
  · by_cases hf : f = o.regFile
    · subst hf
      rw [Function.update_self]
      exact hfront.2
    · rw [Function.update_of_ne hf]
      exact H.nodup f
  · by_cases hf : f = o.regFile
    · subst hf
      rw [Function.update_self]
      rcases (hmask _ q).mp hq with hq | ⟨-, rfl⟩
      · intro hmem
        refine H.taken _ q hq ?_
        rw [hfree]
        exact List.mem_cons_of_mem _ hmem
      · exact hfront.1
    · rw [Function.update_of_ne hf]
      exact H.taken f q (((hmask f q).mp hq).resolve_right fun h => hf h.1)
  · rcases List.mem_append.mp hd with hd | hd
    · exact (H.origin d hd).imp (fun hpop => (hmask _ _).mpr (.inl hpop)) id
    · rw [List.mem_singleton.mp hd]
      exact .inl ((hmask _ _).mpr (.inr ⟨rfl, rfl⟩))
  · have hmove : moveSource p ri f = some src := hmove
    have hf : f ≠ o.regFile := by
      rintro rfl
      rw [hnone] at hmove
      cases hmove
    simpa [RenamedInst.addDestRegister, RenamedInst.setDestRegisterBit, hf]
      using H.shares f src hmove
  · have hd : d ∈ ri.dest ++ [⟨front, o, prev⟩] := hd
    have hd' : d' ∈ ri.dest ++ [⟨front, o, prev⟩] := hd'
    rcases List.mem_append.mp hd with hd | hd <;> rcases List.mem_append.mp hd' with hd' | hd'
    · refine H.once d hd d' hd' hf hq (((hmask _ _).mp hmem).resolve_right ?_)
      rintro ⟨hfile, hphys⟩
      exact hbefore d hd hfile hphys
    · rw [List.mem_singleton.mp hd'] at hf hq
      exact absurd hq (hbefore d hd hf)
    · rw [List.mem_singleton.mp hd] at hf hq
      exact absurd hq.symm (hbefore d' hd' hf.symm)
    · rw [List.mem_singleton.mp hd, List.mem_singleton.mp hd']

theorem renameDest (H : TakingOnce p t.freelists ri)
    (h : Olympia.renameDest p (t, ri) o = .ok (t', ri')) : TakingOnce p t'.freelists ri' := by
  rcases renameDest_cases h with ⟨-, rfl, rfl⟩ | ⟨-, r, hmove, rfl, rfl⟩ |
    ⟨-, front, rest, hnone, hfree, rfl, rfl⟩
  · exact H
  · rw [freelists_update]
    have hsame : Function.update t.freelists o.regFile
        ((t.regfileComponents o.regFile).reference r.physReg ri.inst).freelist = t.freelists :=
      Function.update_eq_self _ _
    rw [hsame]
    exact H.share hmove
  · rw [freelists_update]
    exact H.take hnone hfree

end TakingOnce

/-- An instruction that has been renamed has taken each of its registers for one destination. -/
theorem TablesInv.takesOnce {x0 : ℕ} {h : List RenamedInst} {i : Inst} (H : TablesInv p x0 h t)
    (hren : renameInst p t i = .ok (t', ri)) : ri.TakesOnce := by
  obtain ⟨⟨t₁, ri₁⟩, hdests, hpush⟩ := Run.bind_eq_ok.mp hren
  obtain ⟨rfl, rfl⟩ := Prod.mk.inj (Except.ok.inj hpush)
  obtain ⟨hdest, hmask⟩ := renameSources_dest t { inst := i }
  have hstart : TakingOnce p t.freelists (renameSources t { inst := i }) := by
    refine ⟨fun f => List.nodup_iff_count_le_one.mpr fun q => ?_, by simp [hmask], by simp [hdest],
      fun f src _ => by rw [hmask], by simp [RenamedInst.TakesOnce, hdest]⟩
    by_cases hq : q ∈ t.freelists f
    · have hcount : (t.freelists f).count q = _ :=
        (H.balanced f).free_count q ((H.balanced f).free_mem q hq)
      rw [hcount]
      split <;> simp
    · rw [List.count_eq_zero.mpr hq]
      exact Nat.zero_le _
  refine (Run.foldlM_ok_preserves (f := Olympia.renameDest p)
    (I := fun st => TakingOnce p st.1.freelists st.2) ?_ hstart hdests).once
  rintro o ⟨t₁, ri₁⟩ ⟨t₂, ri₂⟩ H hone
  exact H.renameDest hone

end Takes

/-! ## A renamed instruction keeps to its meaning -/

namespace RenamedInst

variable {ri : RenamedInst} {f : RegFile} {q : ℕ} {r : ArchReg}

theorem destOf_of_dest (honce : ri.TakesOnce) {d : Reg} (hd : d ∈ ri.dest)
    (hmask : d.physReg ∈ ri.destMask d.opInfo.regFile) :
    ri.destOf (d.opInfo.regFile, d.physReg) = some d.opInfo.reg := by
  unfold destOf
  rw [if_pos hmask]
  cases hfind : ri.dest.find? fun e =>
      decide (e.opInfo.regFile = d.opInfo.regFile ∧ e.physReg = d.physReg) with
  | none =>
    have hnot := List.find?_eq_none.mp hfind d hd
    simp at hnot
  | some e =>
    have hcond := List.find?_some hfind
    obtain ⟨hfile, hphys⟩ : e.opInfo.regFile = d.opInfo.regFile ∧ e.physReg = d.physReg := by
      simpa using hcond
    rw [Option.map_some, honce d hd e (List.mem_of_find?_eq_some hfind) hfile.symm hphys.symm hmask]

theorem mem_destMask_of_destOf (h : ri.destOf (f, q) = some r) :
    q ∈ ri.destMask f ∧ ∃ d ∈ ri.dest, d.opInfo.reg = r := by
  unfold destOf at h
  split at h
  · rename_i hmask
    obtain ⟨d, hfind, rfl⟩ := Option.map_eq_some_iff.mp h
    exact ⟨hmask, d, List.mem_of_find?_eq_some hfind, rfl⟩
  · cases h

theorem destOf_isSome_iff {p : RenameParams} {m : ArchReg → ℕ} (hwell : ri.WellRenamed p m) :
    (ri.destOf (f, q)).isSome = true ↔ q ∈ ri.destMask f := by
  unfold destOf
  split
  · rename_i hmask
    obtain ⟨d, hd, hfile, hphys⟩ := hwell.mask_dest f q hmask
    refine iff_of_true ?_ hmask
    rw [Option.isSome_map, List.find?_isSome]
    exact ⟨d, hd, by simp [hfile, hphys]⟩
  · rename_i hmask
    exact iff_of_false (by simp) hmask

namespace WellRenamed

variable {p : RenameParams} {m : ArchReg → ℕ}

/-- The source of an eliminated move is its operand. -/
theorem moveSource_eq (hwell : ri.WellRenamed p m) (f : RegFile) :
    Olympia.moveSource p ri f = (ri.inst.movedOperand p f).map (readReg m) := by
  unfold Olympia.moveSource Inst.movedOperand
  split
  · unfold RenamedInst.getSourceList
    rw [hwell.sources.src_eq, List.filter_map, List.head?_map]
    rfl
  · rfl

/-- An instruction none of whose operands is a data operand has all it reads in its source
list. -/
theorem sources_eq (hwell : ri.WellRenamed p m)
    (hnone : (ri.inst.srcs.all fun o => o.isX0 || !ri.inst.isDataOperand o) = true) :
    (ri.src.map fun r => (r.opInfo.regFile, r.physReg)) =
      ri.inst.reads.map fun r => (r.1, m r) := by
  have hfilter : (ri.inst.srcs.filter fun o => !o.isX0 && !ri.inst.isDataOperand o) =
      ri.inst.srcs.filter fun o => !o.isX0 := by
    apply List.filter_congr
    intro o ho
    have hop := List.all_eq_true.mp hnone o ho
    cases hx0 : o.isX0 with
    | true => rfl
    | false => simpa [hx0] using hop
  rw [hwell.sources.src_eq, hfilter, Inst.reads, List.map_map, List.map_map]
  rfl

/-- A renamed instruction keeps to its meaning. -/
theorem renames {V : Type} {x0 : ℕ} {older : List RenamedInst}
    (sem : RegisterSemantics p V) (hwell : ri.WellRenamed p (tableAfter x0 older))
    (honce : ri.TakesOnce) :
    (registerRenaming x0).Renames sem.toSemantics isArchReg older ri where
  dest_writes := by
    rintro ⟨f, q⟩ r h
    exact hwell.writes_iff_dest.mpr (mem_destMask_of_destOf h).2
  unwritten r h := by
    have h : ri.inst.writes r = false := h
    show (r.1, tableAfter x0 (older ++ [ri]) r) = _
    rw [tableAfter_concat_of_ne fun d hd heq => ?_]
    · rfl
    · rw [hwell.writes_iff_dest.mpr ⟨d, hd, heq⟩] at h
      cases h
  written r h := by
    obtain ⟨d, hd, rfl⟩ := hwell.writes_iff_dest.mp h
    have htable : (registerRenaming x0).table (older ++ [ri]) d.opInfo.reg =
        (d.opInfo.regFile, d.physReg) :=
      congrArg (Prod.mk d.opInfo.regFile) (tableAfter_concat_of_dest hwell hd)
    rw [htable]
    rcases hwell.origin d hd with hpop | ⟨src, hmove, hphys⟩
    · exact .inl (destOf_of_dest honce hd hpop)
    · -- an eliminated move: the register of its source, and the value
      obtain ⟨hfile, hread, harch⟩ := hwell.moveSource hmove
      rw [hwell.moveSource_eq] at hmove
      obtain ⟨o, ho, rfl⟩ := Option.map_eq_some_iff.mp hmove
      refine .inr ⟨o.reg, harch, ?_, fun v => ?_⟩
      · show (d.opInfo.regFile, d.physReg) = (o.regFile, tableAfter x0 older o.reg)
        rw [hphys]
        exact congrArg₂ Prod.mk hfile.symm hread
      · rw [Dataflow.Semantics.exec_of_writes _ h]
        exact sem.moves ri.inst d.opInfo.reg o ho h v

end WellRenamed

end RenamedInst

end Olympia
