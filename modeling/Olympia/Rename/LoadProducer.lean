import Olympia.Rename.Flush

/-!
# The load producer flag

Every reference counter has a flag `producer_is_load`, which is written whenever an instruction
maps a register to it, and read when the sources of a load or store are renamed.  The instruction
that really produces the value of a register is the youngest surviving older writer, followed back
through eliminated moves (`realProducer`).

An eliminated move shares the register of its source and writes the flag with its own `isLoad`.
As long as this changes no flag (`KeepsFlag`), the flag of what the map table holds, or has held
for an instruction in flight, is that of the real producer (`LoadFlags`), also after flushes.
-/

namespace Olympia

/-! ## Producers -/

/-- The instruction that produces the value of a register, among instructions given youngest
first: a writer that is an eliminated move only hands on the value of its source. -/
def realProducer (p : RenameParams) : List RenamedInst → ArchReg → Option RenamedInst
  | [], _ => none
  | w :: older, r =>
    if w.inst.writes r then
      match moveSource p w r.1 with
      | some src => realProducer p older src.opInfo.reg
      | none => some w
    else realProducer p older r

/-- The value of a register after the instructions `older`, oldest first, was written by a load. -/
def producedByLoad (p : RenameParams) (older : List RenamedInst) (r : ArchReg) : Bool :=
  (realProducer p older.reverse r).any fun w => w.inst.isLoad

/-- An eliminated move writes the flag that the register of its source has anyway. -/
def KeepsFlag (p : RenameParams) (older : List RenamedInst) (ri : RenamedInst) : Prop :=
  ∀ d ∈ ri.dest, ∀ src, moveSource p ri d.opInfo.regFile = some src →
    ri.inst.isLoad = producedByLoad p older src.opInfo.reg

/-- Every eliminated move among the instructions keeps the flag. -/
def MovesKeepFlag (p : RenameParams) (log : List RenamedInst) : Prop :=
  ∀ older ri younger, log = older ++ ri :: younger → KeepsFlag p older ri

/-- The flag of a physical register. -/
def RenameTables.producerIsLoad (t : RenameTables) (f : RegFile) (q : ℕ) : Bool :=
  ((t.regfileComponents f).referenceCounter q).producerIsLoad

section Producers

variable {p : RenameParams} {older : List RenamedInst} {w : RenamedInst} {r : ArchReg}

theorem producedByLoad_of_not_writes (hw : w.inst.writes r = false) :
    producedByLoad p (older ++ [w]) r = producedByLoad p older r := by
  simp [producedByLoad, realProducer, hw]

theorem producedByLoad_of_move {src : Reg} (hw : w.inst.writes r = true)
    (hmove : moveSource p w r.1 = some src) :
    producedByLoad p (older ++ [w]) r = producedByLoad p older src.opInfo.reg := by
  simp [producedByLoad, realProducer, hw, hmove]

theorem producedByLoad_of_writes (hw : w.inst.writes r = true)
    (hmove : moveSource p w r.1 = none) :
    producedByLoad p (older ++ [w]) r = w.inst.isLoad := by
  simp [producedByLoad, realProducer, hw, hmove]

end Producers

/-! ## The table after one more instruction -/

section Concat

variable {p : RenameParams} {x0 : ℕ} {older : List RenamedInst} {w : RenamedInst} {r : ArchReg}

theorem tableAfter_concat (x0 : ℕ) (older : List RenamedInst) (w : RenamedInst) :
    tableAfter x0 (older ++ [w]) = Journal.redo (tableAfter x0 older) w.journal := by
  simp [tableAfter, Journal.redoAll]

theorem tableAfter_concat_of_dest (hw : w.WellRenamed p (tableAfter x0 older)) {d : Reg}
    (hd : d ∈ w.dest) : tableAfter x0 (older ++ [w]) d.opInfo.reg = d.physReg := by
  rw [tableAfter_concat]
  exact Journal.redo_of_mem hw.distinctKeys (List.mem_map_of_mem hd)

theorem tableAfter_concat_of_ne (h : ∀ d ∈ w.dest, d.opInfo.reg ≠ r) :
    tableAfter x0 (older ++ [w]) r = tableAfter x0 older r := by
  rw [tableAfter_concat]
  refine Journal.redo_of_forall_ne fun e he => ?_
  obtain ⟨d, hd, rfl⟩ := List.mem_map.mp he
  exact h d hd

theorem RenamedInst.WellRenamed.writes_iff_dest {m : ArchReg → ℕ} (hw : w.WellRenamed p m) :
    w.inst.writes r = true ↔ ∃ d ∈ w.dest, d.opInfo.reg = r := by
  rw [hw.writes_iff]
  simp [RenamedInst.destPrf]

/-- The source of an eliminated move was read from the map table. -/
theorem RenamedInst.WellRenamed.moveSource {m : ArchReg → ℕ} (hw : w.WellRenamed p m)
    {f : RegFile} {src : Reg} (hmove : Olympia.moveSource p w f = some src) :
    src.opInfo.regFile = f ∧ src.physReg = m src.opInfo.reg ∧
      src.opInfo.fieldValue ∈ archRegs src.opInfo.regFile := by
  unfold Olympia.moveSource at hmove
  split at hmove
  · obtain ⟨hr, hfile⟩ := List.mem_filter.mp (List.mem_of_mem_head? hmove)
    rw [hw.sources.src_eq] at hr
    obtain ⟨o, ho, rfl⟩ := List.mem_map.mp hr
    obtain ⟨ho, hkeep⟩ := List.mem_filter.mp ho
    have hx0 : o.isX0 = false := by simpa using ((Bool.and_eq_true _ _).mp hkeep).1
    exact ⟨of_decide_eq_true hfile, rfl,
      o.fieldValue_mem_archRegs (w.inst.srcs_lt o ho) hx0⟩
  · cases hmove

/-- An instruction that is eliminated to a source takes no register of that file from the free
list. -/
def TakesOrShares (p : RenameParams) (w : RenamedInst) : Prop :=
  ∀ f src, moveSource p w f = some src → w.destMask f = ∅

end Concat

/-! ## What renaming does to the flags -/

section Renaming

variable {p : RenameParams} {t t' : RenameTables} {ri ri' : RenamedInst}

/-- A reference to a register of one file writes one flag. -/
theorem producerIsLoad_of_reference {g : RegFile} {prf : ℕ} {i : Inst} {c : RegfileComponents}
    (ht : t'.regfileComponents = Function.update t.regfileComponents g c)
    (hc : c.referenceCounter =
      ((t.regfileComponents g).reference prf i).referenceCounter) (f : RegFile) (q : ℕ) :
    t'.producerIsLoad f q = if g = f ∧ prf = q then i.isLoad else t.producerIsLoad f q := by
  unfold RenameTables.producerIsLoad
  rw [ht]
  by_cases hf : g = f
  · subst hf
    rw [Function.update_self, hc]
    by_cases hq : prf = q
    · simp [RegfileComponents.reference, hq]
    · simp [RegfileComponents.reference, hq, Ne.symm hq]
  · simp [hf, Ne.symm hf]

/-- The flags of the registers in `ds` are `b`, the others are those of `t`. -/
def FlagsSet (t : RenameTables) (ds : List Reg) (b : Bool) (t' : RenameTables) : Prop :=
  ∀ f q, t'.producerIsLoad f q =
    if ∃ d ∈ ds, d.opInfo.regFile = f ∧ d.physReg = q then b else t.producerIsLoad f q

/-- One more register of the file of its operand. -/
theorem FlagsSet.concat {t₀ : RenameTables} {ds : List Reg} {b : Bool} {d : Reg}
    (H : FlagsSet t₀ ds b t)
    (hone : ∀ f q, t'.producerIsLoad f q =
      if d.opInfo.regFile = f ∧ d.physReg = q then b else t.producerIsLoad f q) :
    FlagsSet t₀ (ds ++ [d]) b t' := by
  intro f q
  rw [hone, H f q]
  by_cases hd : d.opInfo.regFile = f ∧ d.physReg = q
  · rw [if_pos hd, if_pos ⟨d, List.mem_append_right _ List.mem_cons_self, hd⟩]
  · rw [if_neg hd]
    refine if_congr ?_ rfl rfl
    simp [hd]

theorem renameDest_flags {t₀ : RenameTables} {o : OpInfo} {b : Bool} (hb : ri.inst.isLoad = b)
    (H : FlagsSet t₀ ri.dest b t) (h : renameDest p (t, ri) o = .ok (t', ri')) :
    ri'.inst.isLoad = b ∧ FlagsSet t₀ ri'.dest b t' := by
  rcases renameDest_cases h with
    ⟨-, rfl, rfl⟩ | ⟨-, r, -, rfl, rfl⟩ | ⟨-, front, rest, -, -, rfl, rfl⟩
  · exact ⟨hb, H⟩
  · refine ⟨hb, FlagsSet.concat H ?_⟩
    rw [← hb]
    exact producerIsLoad_of_reference rfl rfl
  · refine ⟨hb, FlagsSet.concat H ?_⟩
    rw [← hb]
    exact producerIsLoad_of_reference rfl rfl

theorem renameDests_flags (hnew : ri.dest = []) (h : renameDests p t ri = .ok (t', ri')) :
    FlagsSet t ri'.dest ri.inst.isLoad t' := by
  refine (Run.foldlM_ok_preserves (f := renameDest p)
    (I := fun st => st.2.inst.isLoad = ri.inst.isLoad ∧
      FlagsSet t st.2.dest ri.inst.isLoad st.1) ?_ ⟨rfl, ?_⟩ h).2
  · rintro o ⟨t₁, ri₁⟩ ⟨t₂, ri₂⟩ ⟨hb, H⟩ hone
    exact renameDest_flags hb H hone
  · intro f q
    simp [hnew]

/-- The sources of a load or store read the flags. -/
theorem renameSources_hasLoadProducer (t : RenameTables) (i : Inst) :
    (renameSources t { inst := i }).hasLoadProducer = (i.isLoadStoreInst &&
      i.srcs.any fun o => !o.isX0 && t.producerIsLoad o.regFile (t.mapTable o.reg)) := by
  have hone : ∀ (ri : RenamedInst) (o : OpInfo), (renameSource t ri o).inst = ri.inst ∧
      (renameSource t ri o).hasLoadProducer = (ri.hasLoadProducer || (ri.inst.isLoadStoreInst &&
        (!o.isX0 && t.producerIsLoad o.regFile (t.mapTable o.reg)))) := by
    intro ri o
    unfold renameSource
    cases hx0 : o.isX0
    · dsimp only
      rw [if_neg (by simp)]
      split
      · exact ⟨rfl, by simp [RenamedInst.setDataRegister, RenameTables.producerIsLoad]⟩
      · exact ⟨rfl, by simp [RenamedInst.addSrcRegister, RenameTables.producerIsLoad]⟩
    · dsimp only
      rw [if_pos rfl]
      split
      · exact ⟨rfl, by simp [RenamedInst.setDataRegister]⟩
      · exact ⟨rfl, by simp⟩
  have hfold : ∀ (l : List OpInfo) (ri : RenamedInst),
      (l.foldl (renameSource t) ri).hasLoadProducer = (ri.hasLoadProducer ||
        (ri.inst.isLoadStoreInst &&
          l.any fun o => !o.isX0 && t.producerIsLoad o.regFile (t.mapTable o.reg))) := by
    intro l
    induction l with
    | nil => simp
    | cons o l ih =>
      intro ri
      obtain ⟨hinst, hflag⟩ := hone ri o
      rw [List.foldl_cons, ih, hinst, hflag, List.any_cons, Bool.and_or_distrib_left,
        Bool.or_assoc]
  unfold renameSources
  rw [hfold]
  simp

/-- What renaming an instruction does to the flags and what it reads from them. -/
theorem renameInst_flags {i : Inst} {x0 : ℕ} {h : List RenamedInst} (H : TablesInv p x0 h t)
    (hren : renameInst p t i = .ok (t', ri)) :
    FlagsSet t ri.dest ri.inst.isLoad t' ∧
      ri.hasLoadProducer = (ri.inst.isLoadStoreInst &&
        ri.inst.srcs.any fun o => !o.isX0 && t.producerIsLoad o.regFile (t.mapTable o.reg)) := by
  have hinst := (H.renameInst_spec hren).2.2.1
  unfold renameInst at hren
  obtain ⟨⟨t₁, ri₁⟩, hdests, hpush⟩ := Run.bind_eq_ok.mp hren
  obtain ⟨rfl, rfl⟩ := Prod.mk.inj (Except.ok.inj hpush)
  obtain ⟨-, hinst₀⟩ := renameSources_recorded t i
  have hstart := H.renameInst_start i
  have D := DestsInv.of_renameDests (by rw [hinst₀]; exact hstart) hdests
  have hflags := renameDests_flags (renameSources_dest t { inst := i }).1 hdests
  rw [hinst₀, ← hinst] at hflags
  refine ⟨hflags, ?_⟩
  have hsame : ri₁.hasLoadProducer = (renameSources t { inst := i }).hasLoadProducer := by
    rw [D.frame]
  rw [hsame, renameSources_hasLoadProducer, hinst]

end Renaming

/-! ## Giving references back -/

section Reclaiming

variable {t t' : RenameTables} {d : Reg}

/-- The flags are the same. -/
def SameFlags (t t' : RenameTables) : Prop := ∀ f q, t'.producerIsLoad f q = t.producerIsLoad f q

theorem SameFlags.trans {t₁ : RenameTables} (h : SameFlags t t₁) (h' : SameFlags t₁ t') :
    SameFlags t t' := fun f q => (h' f q).trans (h f q)

/-- A reference less leaves the flag. -/
theorem sameFlags_of_reclaim {g : RegFile} {prf : ℕ} {c : RegfileComponents}
    (hc : (t.regfileComponents g).reclaim prf = .ok c)
    (ht : t'.regfileComponents = Function.update t.regfileComponents g c) : SameFlags t t' := by
  intro f q
  unfold RegfileComponents.reclaim at hc
  dsimp only at hc
  split at hc
  · cases hc
  · obtain rfl := Except.ok.inj hc
    unfold RenameTables.producerIsLoad
    rw [ht]
    by_cases hf : f = g
    · subst hf
      by_cases hq : q = prf
      · simp [hq]
      · simp [hq]
    · simp [hf]

theorem reclaimRename_sameFlags (h : reclaimRename t d = .ok t') : SameFlags t t' := by
  unfold reclaimRename at h
  split at h
  · obtain rfl := Except.ok.inj h
    exact fun _ _ => rfl
  · obtain ⟨-, -, h⟩ := Run.bind_eq_ok.mp h
    obtain ⟨c, hc, h⟩ := Run.bind_eq_ok.mp h
    obtain rfl := Except.ok.inj h
    exact sameFlags_of_reclaim hc rfl

theorem restoreDest_sameFlags (h : restoreDest t d = .ok t') : SameFlags t t' := by
  unfold restoreDest at h
  split at h
  · obtain rfl := Except.ok.inj h
    exact fun _ _ => rfl
  · obtain ⟨c, hc, h⟩ := Run.bind_eq_ok.mp h
    obtain rfl := Except.ok.inj h
    exact sameFlags_of_reclaim hc rfl

theorem retireInst_sameFlags {status : RenamedInst → InstStatus} {ri : RenamedInst}
    (h : retireInst status t ri = .ok t') : SameFlags t t' := by
  obtain ⟨-, -, h⟩ := Run.bind_eq_ok.mp h
  obtain ⟨t₁, hloop, h⟩ := Run.bind_eq_ok.mp h
  have hsame : SameFlags t t₁ := Run.foldlM_ok_preserves (I := SameFlags t)
    (fun _ _ _ hI hone => hI.trans (reclaimRename_sameFlags hone)) (fun _ _ => rfl) hloop
  split at h
  · cases h
  · obtain ⟨-, -, h⟩ := Run.bind_eq_ok.mp h
    obtain rfl := Except.ok.inj h
    exact hsame

theorem flushWalk_sameFlags {c : FlushingCriteria} {rq : List RenamedInst}
    (h : flushWalk c rq t = .ok t') : SameFlags t t' := by
  induction rq generalizing t with
  | nil =>
    obtain rfl := Except.ok.inj h
    exact fun _ _ => rfl
  | cons ri older ih =>
    unfold flushWalk at h
    split at h
    · obtain ⟨t₁, hloop, h⟩ := Run.bind_eq_ok.mp h
      have hsame : SameFlags t t₁ := Run.foldlM_ok_preserves (I := SameFlags t)
        (fun _ _ _ hI hone => hI.trans (restoreDest_sameFlags hone)) (fun _ _ => rfl) hloop
      have hrest : SameFlags { t₁ with instQueue := older.reverse } t' := ih h
      exact hsame.trans hrest
    · obtain rfl := Except.ok.inj h
      exact fun _ _ => rfl

end Reclaiming

/-! ## The invariant -/

/-- The flags of what the map table holds, or held when an instruction in flight was renamed,
are those of the real producers; and every survivor has recorded what it read from them. -/
structure LoadFlags (p : RenameParams) (x0 : ℕ) (h : List RenamedInst) (t : RenameTables) :
    Prop where
  flag : ∀ older younger, t.instQueue = older ++ younger → ∀ f, ∀ a ∈ archRegs f,
    t.producerIsLoad f (tableAfter x0 (h ++ older) (f, a)) = producedByLoad p (h ++ older) (f, a)
  recorded : ∀ older ri younger, h ++ t.instQueue = older ++ ri :: younger →
    ri.hasLoadProducer = (ri.inst.isLoadStoreInst &&
      ri.inst.srcs.any fun o => !o.isX0 && producedByLoad p older o.reg)

namespace LoadFlags

variable {p : RenameParams} {x0 : ℕ} {h : List RenamedInst} {t t' : RenameTables}
  {ri : RenamedInst}

theorem init (p : RenameParams) (x0 : ℕ) :
    LoadFlags p x0 [] (RenameState.init p x0).toRenameTables where
  flag older younger heq f a ha := by
    have hnil : ([] : List RenamedInst) = older ++ younger := heq
    obtain ⟨rfl, -⟩ := List.append_eq_nil_iff.mp hnil.symm
    rfl
  recorded older ri younger heq := by
    have hnil : ([] : List RenamedInst) = older ++ ri :: younger := heq
    simp at hnil

/-- The same survivors, or fewer, of which more are history. -/
theorem of_sameFlags (L : LoadFlags p x0 h t) (grp rest : List RenamedInst)
    (hq : t.instQueue = grp ++ t'.instQueue ++ rest) (hflags : SameFlags t t') :
    LoadFlags p x0 (h ++ grp) t' where
  flag older younger hsplit f a ha := by
    rw [hflags, List.append_assoc]
    refine L.flag (grp ++ older) (younger ++ rest) ?_ f a ha
    rw [hq, hsplit]
    simp only [List.append_assoc]
  recorded older ri younger hsplit := by
    refine L.recorded older ri (younger ++ rest) ?_
    rw [hq, ← List.append_assoc, ← List.append_assoc, hsplit]
    simp only [List.append_assoc, List.cons_append]

/-- The flag of what the map table holds. -/
theorem current (H : TablesInv p x0 h t) (L : LoadFlags p x0 h t) {o : OpInfo}
    (ho : o.fieldValue ∈ archRegs o.regFile) :
    t.producerIsLoad o.regFile (t.mapTable o.reg) =
      producedByLoad p (h ++ t.instQueue) o.reg := by
  rw [H.mapTable_eq]
  exact L.flag t.instQueue [] (List.append_nil _).symm o.regFile o.fieldValue ho

/-- Renaming an instruction that keeps the flag leaves the flags of all referenced registers. -/
theorem referenced (H : TablesInv p x0 h t) (L : LoadFlags p x0 h t) {i : Inst}
    (hren : renameInst p t i = .ok (t', ri)) (K : KeepsFlag p (h ++ t.instQueue) ri)
    {f : RegFile} {q : ℕ} (hq : q ∈ refs t.mapTable (inFlight t.instQueue) f) :
    t'.producerIsLoad f q = t.producerIsLoad f q := by
  obtain ⟨H', hqueue, -, hfree, -⟩ := H.renameInst_spec hren
  have hwell : ri.WellRenamed p (tableAfter x0 (h ++ t.instQueue)) :=
    H'.wellRenamed (h ++ t.instQueue) ri [] (by rw [hqueue, List.append_assoc])
  rw [(renameInst_flags H hren).1 f q]
  by_cases hd : ∃ d ∈ ri.dest, d.opInfo.regFile = f ∧ d.physReg = q
  · rw [if_pos hd]
    obtain ⟨d, hd, rfl, rfl⟩ := hd
    rcases hwell.origin d hd with hpop | ⟨src, hmove, hphys⟩
    · -- what comes from the free list is not referenced
      exact absurd hq ((H.balanced _).not_mem_refs (hfree _ _ hpop))
    · obtain ⟨hfile, hread, harch⟩ := hwell.moveSource hmove
      have hcurrent := L.current H harch
      rw [H.mapTable_eq, ← hread, hfile] at hcurrent
      rw [K d hd src hmove, hphys]
      exact hcurrent.symm
  · rw [if_neg hd]

theorem renameInst (H : TablesInv p x0 h t) (L : LoadFlags p x0 h t) {i : Inst}
    (hren : Olympia.renameInst p t i = .ok (t', ri)) (K : KeepsFlag p (h ++ t.instQueue) ri) :
    LoadFlags p x0 h t' := by
  obtain ⟨H', hqueue, -⟩ := H.renameInst_spec hren
  obtain ⟨hflags, hrecorded⟩ := renameInst_flags H hren
  have hwell : ri.WellRenamed p (tableAfter x0 (h ++ t.instQueue)) :=
    H'.wellRenamed (h ++ t.instQueue) ri [] (by rw [hqueue, List.append_assoc])
  have hpast : ∀ older younger, t.instQueue = older ++ younger → ∀ f, ∀ a ∈ archRegs f,
      t'.producerIsLoad f (tableAfter x0 (h ++ older) (f, a)) =
        producedByLoad p (h ++ older) (f, a) := by
    intro older younger hsplit f a ha
    rw [L.referenced H hren K (H.mem_refs_of_past hsplit ha)]
    exact L.flag older younger hsplit f a ha
  constructor
  · intro older younger hsplit f a ha
    rw [hqueue] at hsplit
    rcases List.eq_nil_or_concat younger with rfl | ⟨front, last, rfl⟩
    · -- the registers after the new instruction
      obtain rfl : t.instQueue ++ [ri] = older := by simpa using hsplit
      rw [← List.append_assoc]
      by_cases hwrites : ri.inst.writes (f, a) = true
      · obtain ⟨d, hd, hreg⟩ := hwell.writes_iff_dest.mp hwrites
        have hfile : d.opInfo.regFile = f := congrArg Prod.fst hreg
        rw [← hreg, tableAfter_concat_of_dest hwell hd, hflags f d.physReg,
          if_pos ⟨d, hd, hfile, rfl⟩, hreg]
        cases hmove : moveSource p ri f with
        | none => exact (producedByLoad_of_writes hwrites hmove).symm
        | some src =>
          rw [producedByLoad_of_move hwrites hmove]
          exact K d hd src (by rw [hfile]; exact hmove)
      · rw [tableAfter_concat_of_ne fun d hd heq =>
            hwrites (hwell.writes_iff_dest.mpr ⟨d, hd, heq⟩),
          producedByLoad_of_not_writes (by simpa using hwrites)]
        exact hpast t.instQueue [] (List.append_nil _).symm f a ha
    · rw [List.concat_eq_append, ← List.append_assoc] at hsplit
      exact hpast older front (List.append_inj' hsplit rfl).1 f a ha
  · intro older rj younger hsplit
    rw [hqueue, ← List.append_assoc] at hsplit
    rcases List.eq_nil_or_concat younger with rfl | ⟨front, last, rfl⟩
    · obtain ⟨rfl, hlast⟩ := List.append_inj' hsplit rfl
      obtain rfl : ri = rj := by simpa using hlast
      rw [hrecorded]
      congr 1
      rw [Bool.eq_iff_iff, List.any_eq_true, List.any_eq_true]
      refine exists_congr fun o => and_congr_right fun ho => ?_
      cases hx0 : o.isX0
      · rw [L.current H (o.fieldValue_mem_archRegs (ri.inst.srcs_lt o ho) hx0)]
      · simp
    · have hassoc : older ++ rj :: (front ++ [last]) = (older ++ rj :: front) ++ [last] := by simp
      rw [List.concat_eq_append, hassoc] at hsplit
      exact L.recorded older rj front (List.append_inj' hsplit rfl).1

/-- Renaming instructions one after the other appends them to the queue. -/
theorem renames_append :
    ∀ (l : List Inst) {t t' : RenameTables}, TablesInv p x0 h t →
      (l.map TableOp.rename).foldlM (RenameTables.step p) t = .ok t' →
      ∃ new, t'.instQueue = t.instQueue ++ new ∧ ∀ ri ∈ new, ∃ t₁ t₂ i,
        TablesInv p x0 h t₁ ∧ Olympia.renameInst p t₁ i = .ok (t₂, ri)
  | [], t, t', _, hrun => by
    obtain rfl : t = t' := Except.ok.inj hrun
    exact ⟨[], (List.append_nil _).symm, fun _ hri => absurd hri List.not_mem_nil⟩
  | i :: l, t, t', H, hrun => by
    rw [List.map_cons, List.foldlM_cons] at hrun
    obtain ⟨t₁, hstep, hrest⟩ := Run.bind_eq_ok.mp hrun
    obtain ⟨⟨t₂, ri⟩, hren, hret⟩ := Run.bind_eq_ok.mp hstep
    obtain rfl : t₂ = t₁ := Except.ok.inj hret
    obtain ⟨H₂, hqueue, -⟩ := H.renameInst_spec hren
    obtain ⟨new, hnew, hall⟩ := renames_append l H₂ hrest
    refine ⟨ri :: new, by rw [hnew, hqueue, List.append_assoc]; rfl, ?_⟩
    exact List.forall_mem_cons.mpr ⟨⟨t, t₂, i, H, hren⟩, hall⟩

theorem renames :
    ∀ (l : List Inst) {t t' : RenameTables}, TablesInv p x0 h t → LoadFlags p x0 h t →
      (l.map TableOp.rename).foldlM (RenameTables.step p) t = .ok t' →
      MovesKeepFlag p (h ++ t'.instQueue) → LoadFlags p x0 h t'
  | [], t, t', _, L, hrun, _ => by
    obtain rfl : t = t' := Except.ok.inj hrun
    exact L
  | i :: l, t, t', H, L, hrun, K => by
    rw [List.map_cons, List.foldlM_cons] at hrun
    obtain ⟨t₁, hstep, hrest⟩ := Run.bind_eq_ok.mp hrun
    obtain ⟨⟨t₂, ri⟩, hren, hret⟩ := Run.bind_eq_ok.mp hstep
    obtain rfl : t₂ = t₁ := Except.ok.inj hret
    obtain ⟨H₂, hqueue, -⟩ := H.renameInst_spec hren
    obtain ⟨new, hnew, -⟩ := renames_append l H₂ hrest
    have Kri : KeepsFlag p (h ++ t.instQueue) ri := by
      refine K (h ++ t.instQueue) ri new ?_
      rw [hnew, hqueue]
      simp only [List.append_assoc, List.cons_append, List.nil_append]
    exact renames l H₂ (L.renameInst H hren Kri) hrest K

end LoadFlags

/-! ## Steps of the unit -/

section Steps

variable {p : RenameParams} {x0 : ℕ} {h : List RenamedInst} {s s' : RenameState} {op : RenameOp}

/-- A step renames instructions one after the other, or retires old entries of the queue or
removes young ones; then it leaves the flags. -/
theorem RenameState.renames_or_reclaims (H : TablesInv p x0 h s.toRenameTables)
    (hstep : s.step p op = .ok s') :
    (s.retiredBy op = [] ∧ ∃ l : List Inst,
      (l.map TableOp.rename).foldlM (RenameTables.step p) s.toRenameTables
        = .ok s'.toRenameTables) ∨
    ((∃ rest, s.instQueue = s.retiredBy op ++ s'.instQueue ++ rest) ∧
      SameFlags s.toRenameTables s'.toRenameTables) := by
  cases op with
  | decoded insts =>
    obtain ⟨-, -, hpush⟩ := Run.bind_eq_ok.mp hstep
    obtain rfl : _ = s' := Except.ok.inj hpush
    exact .inl ⟨rfl, [], rfl⟩
  | dispatchCredits credits =>
    obtain rfl : _ = s' := Except.ok.inj hstep
    exact .inl ⟨rfl, [], rfl⟩
  | rename =>
    obtain ⟨stall, hsched⟩ := scheduleRenaming_fst (p := p) s
    have htables : (scheduleRenaming p s).1.toRenameTables = s.toRenameTables := by rw [hsched]
    unfold RenameState.step at hstep
    dsimp only at hstep
    split at hstep
    · obtain ⟨⟨s₁, out⟩, hren, hret⟩ := Run.bind_eq_ok.mp hstep
      obtain rfl : s₁ = s' := Except.ok.inj hret
      obtain ⟨l, hl⟩ := renameInstructions_tables hren
      rw [htables] at hl
      exact .inl ⟨rfl, l, hl⟩
    · obtain rfl : _ = s' := Except.ok.inj hstep
      exact .inl ⟨rfl, [], by rw [htables]; rfl⟩
  | ack n =>
    obtain ⟨t, ht, -, hqueue, -⟩ := TablesInv.retireMany_spec (fun _ => .retired)
      (s.instQueue.take n) H (List.take_append_drop n _).symm fun _ _ => rfl
    obtain ⟨t', ht', hret⟩ := Run.bind_eq_ok.mp hstep
    obtain rfl : t = t' := Except.ok.inj (ht.symm.trans ht')
    obtain rfl : _ = s' := Except.ok.inj hret
    refine .inr ⟨⟨[], ?_⟩, ?_⟩
    · rw [hqueue, List.append_nil]
      exact (List.take_append_drop n _).symm
    · exact Run.foldlM_ok_preserves (I := SameFlags s.toRenameTables)
        (fun _ _ _ hI hone => hI.trans (retireInst_sameFlags hone)) (fun _ _ => rfl) ht
  | flush c =>
    obtain ⟨t, ht, -, hqueue, -⟩ := H.flushTables_spec c
    obtain ⟨⟨s₁, credits⟩, hflush, hret⟩ := Run.bind_eq_ok.mp hstep
    obtain ⟨t', ht', hret'⟩ := Run.bind_eq_ok.mp hflush
    obtain rfl : t = t' := Except.ok.inj (ht.symm.trans ht')
    obtain rfl : _ = s₁ := congrArg Prod.fst (Except.ok.inj hret')
    obtain rfl : _ = s' := Except.ok.inj hret
    obtain ⟨rest, hrest⟩ := List.rdropWhile_prefix (fun ri => c.includedInFlush ri.inst)
      (l := s.instQueue)
    refine .inr ⟨⟨rest, ?_⟩, flushWalk_sameFlags ht⟩
    rw [hqueue]
    exact hrest.symm

/-- Every step of the unit keeps the invariant, if the eliminated moves it leaves in the queue
keep the flag. -/
theorem LoadFlags.step (H : TablesInv p x0 h s.toRenameTables)
    (L : LoadFlags p x0 h s.toRenameTables) (hstep : s.step p op = .ok s')
    (K : MovesKeepFlag p (h ++ s.retiredBy op ++ s'.instQueue)) :
    LoadFlags p x0 (h ++ s.retiredBy op) s'.toRenameTables := by
  rcases RenameState.renames_or_reclaims H hstep with ⟨hnone, l, hl⟩ | ⟨⟨rest, hsplit⟩, hflags⟩
  · rw [hnone, List.append_nil] at K ⊢
    exact LoadFlags.renames l H L hl K
  · exact L.of_sameFlags (s.retiredBy op) rest hsplit hflags

end Steps

/-- In every run whose eliminated moves keep the flag: a load or store has the mark of a load
producer exactly if a source of it, other than `x0`, has a value whose real producer is a load. -/
theorem load_producer_exact (p : RenameParams) (x0 : ℕ) {l : List RenameOp}
    {h : List RenamedInst} {s : RenameState}
    (hmoves : ∀ hs op hs', Run.Takes (Run.traced (RenameState.step p) RenameState.retiredBy)
        ([], RenameState.init p x0) l hs op →
      Run.traced (RenameState.step p) RenameState.retiredBy hs op = .ok hs' →
      MovesKeepFlag p (hs'.1 ++ hs'.2.instQueue))
    (hs : Run.Visits (Run.traced (RenameState.step p) RenameState.retiredBy)
      ([], RenameState.init p x0) l (h, s)) :
    ∀ older ri younger, h ++ s.instQueue = older ++ ri :: younger →
      ri.inst.isLoadStoreInst = true →
      (ri.hasLoadProducer = true ↔
        ∃ o ∈ ri.inst.srcs, o.isX0 = false ∧ producedByLoad p older o.reg = true) := by
  have Hboth : TablesInv p x0 h s.toRenameTables ∧ LoadFlags p x0 h s.toRenameTables := by
    refine hs.invariant (I := fun hs => TablesInv p x0 hs.1 hs.2.toRenameTables ∧
      LoadFlags p x0 hs.1 hs.2.toRenameTables) ⟨tablesInv_init p x0, .init p x0⟩ ?_
    rintro op hs hs' ⟨H, L⟩ htakes hstep
    have K := hmoves hs op hs' htakes hstep
    obtain ⟨hstep, hhist⟩ := Run.traced_eq_ok.mp hstep
    rw [hhist] at K ⊢
    exact ⟨RenameState.step_inv H hstep, L.step H hstep K⟩
  intro older ri younger hsplit hls
  rw [Hboth.2.recorded older ri younger hsplit, hls, Bool.true_and, List.any_eq_true]
  refine exists_congr fun o => and_congr_right fun _ => ?_
  simp

/-- A test of `MovesKeepFlag`. -/
def movesKeepFlagTest (p : RenameParams) (log : List RenamedInst) : Bool :=
  (List.range log.length).all fun n => (log[n]?).all fun ri => ri.dest.all fun d =>
    (moveSource p ri d.opInfo.regFile).all fun src =>
      ri.inst.isLoad == producedByLoad p (log.take n) src.opInfo.reg

theorem movesKeepFlag_of_test {p : RenameParams} {log : List RenamedInst}
    (h : movesKeepFlagTest p log = true) : MovesKeepFlag p log := by
  intro older ri younger hsplit d hd src hmove
  have hat := List.all_eq_true.mp h older.length (by simp [hsplit])
  rw [hsplit, List.getElem?_append_right le_rfl, Nat.sub_self, List.getElem?_cons_zero,
    Option.all_some, List.take_left] at hat
  have hdest := List.all_eq_true.mp hat d hd
  rw [hmove, Option.all_some] at hdest
  exact eq_of_beq hdest

/-- `ld x3, 0(x1)`, `mv x4, x1` and `ld x5, 0(x3)`. -/
def loadInsts : List Inst :=
  [{ uniqueId := 1
     pipe := .lsu
     isLoad := true
     srcs := [⟨1, .rs1, .integer⟩]
     dests := [⟨3, .rd, .integer⟩]
     srcs_lt := OpInfo.single_lt (nat_lit 1) .rs1
     dests_lt := OpInfo.single_lt (nat_lit 3) .rd
     dests_distinct := OpInfo.single_distinct (nat_lit 3) .rd },
   { uniqueId := 2
     srcs := [⟨1, .rs1, .integer⟩]
     dests := [⟨4, .rd, .integer⟩]
     isMove := true
     srcs_lt := OpInfo.single_lt (nat_lit 1) .rs1
     dests_lt := OpInfo.single_lt (nat_lit 4) .rd
     dests_distinct := OpInfo.single_distinct (nat_lit 4) .rd },
   { uniqueId := 3
     pipe := .lsu
     isLoad := true
     srcs := [⟨3, .rs1, .integer⟩]
     dests := [⟨5, .rd, .integer⟩]
     srcs_lt := OpInfo.single_lt (nat_lit 3) .rs1
     dests_lt := OpInfo.single_lt (nat_lit 5) .rd
     dests_distinct := OpInfo.single_distinct (nat_lit 5) .rd }]

/-- The instructions are renamed in one group. -/
def renameOnce (insts : List Inst) : List RenameOp :=
  [.decoded insts, .dispatchCredits 4, .rename]

theorem load_producer_exact_sample :
    ∃ h s older ri, Run.Visits
        (Run.traced (RenameState.step { moveElimination := true }) RenameState.retiredBy)
        ([], RenameState.init { moveElimination := true } 0) (renameOnce loadInsts) (h, s) ∧
      h ++ s.instQueue = older ++ [ri] ∧ ri.hasLoadProducer = true ∧
      ∃ o ∈ ri.inst.srcs, o.isX0 = false ∧
        producedByLoad { moveElimination := true } older o.reg = true := by
  have hall : Run.along
      (Run.traced (RenameState.step { moveElimination := true }) RenameState.retiredBy)
      (fun hs op =>
        match Run.traced (RenameState.step { moveElimination := true }) RenameState.retiredBy
          hs op with
        | .ok hs' => movesKeepFlagTest { moveElimination := true } (hs'.1 ++ hs'.2.instQueue)
        | .error _ => true)
      ([], RenameState.init { moveElimination := true } 0) (renameOnce loadInsts) = true := by
    decide +kernel
  have heval : ((renameOnce loadInsts).foldlM
      (Run.traced (RenameState.step { moveElimination := true }) RenameState.retiredBy)
      ([], RenameState.init { moveElimination := true } 0)).toOption.map (fun hs =>
        ((hs.1 ++ hs.2.instQueue).getLast?).map fun ri =>
          (ri.inst.isLoadStoreInst, ri.hasLoadProducer)) = some (some (true, true)) := by
    decide +kernel
  obtain ⟨⟨h, s⟩, hs, hval⟩ := Run.ok_of_eval heval
  obtain ⟨ri, hlast, hval⟩ := Option.map_eq_some_iff.mp hval
  obtain ⟨hls, hmark⟩ := Prod.mk.inj hval
  obtain ⟨older, hsplit⟩ := List.getLast?_eq_some_iff.mp hlast
  have hexact := load_producer_exact { moveElimination := true } 0
    (by
      intro hs op hs' htakes hstep
      have htest := Run.Takes.of_along hall htakes
      rw [hstep] at htest
      exact movesKeepFlag_of_test htest)
    (.last hs) older ri [] hsplit hls
  exact ⟨h, s, older, ri, .last hs, hsplit, hmark, hexact.mp hmark⟩

/-- `ld x3, 0(x1)`, `mv x4, x3` and `ld x5, 0(x4)`. -/
def movedLoadInsts : List Inst :=
  [{ uniqueId := 1
     pipe := .lsu
     isLoad := true
     srcs := [⟨1, .rs1, .integer⟩]
     dests := [⟨3, .rd, .integer⟩]
     srcs_lt := OpInfo.single_lt (nat_lit 1) .rs1
     dests_lt := OpInfo.single_lt (nat_lit 3) .rd
     dests_distinct := OpInfo.single_distinct (nat_lit 3) .rd },
   { uniqueId := 2
     srcs := [⟨3, .rs1, .integer⟩]
     dests := [⟨4, .rd, .integer⟩]
     isMove := true
     srcs_lt := OpInfo.single_lt (nat_lit 3) .rs1
     dests_lt := OpInfo.single_lt (nat_lit 4) .rd
     dests_distinct := OpInfo.single_distinct (nat_lit 4) .rd },
   { uniqueId := 3
     pipe := .lsu
     isLoad := true
     srcs := [⟨4, .rs1, .integer⟩]
     dests := [⟨5, .rd, .integer⟩]
     dests_lt := OpInfo.single_lt (nat_lit 5) .rd
     dests_distinct := OpInfo.single_distinct (nat_lit 5) .rd }]

/-- The second load has its address from the first one, through an eliminated move, and is not
marked. -/
theorem moved_load_not_marked :
    ∃ h s older ri, Run.Visits
        (Run.traced (RenameState.step { moveElimination := true }) RenameState.retiredBy)
        ([], RenameState.init { moveElimination := true } 0) (renameOnce movedLoadInsts) (h, s) ∧
      h ++ s.instQueue = older ++ [ri] ∧ ri.inst.isLoadStoreInst = true ∧
      ri.hasLoadProducer = false ∧
      ∃ o ∈ ri.inst.srcs, o.isX0 = false ∧
        producedByLoad { moveElimination := true } older o.reg = true := by
  have heval : ((renameOnce movedLoadInsts).foldlM
      (Run.traced (RenameState.step { moveElimination := true }) RenameState.retiredBy)
      ([], RenameState.init { moveElimination := true } 0)).toOption.map (fun hs =>
        ((hs.1 ++ hs.2.instQueue).getLast?).map fun ri =>
          (ri.inst.isLoadStoreInst, ri.hasLoadProducer, ri.inst.srcs.any fun o => !o.isX0 &&
            producedByLoad { moveElimination := true } (hs.1 ++ hs.2.instQueue).dropLast o.reg)) =
      some (some (true, false, true)) := by
    decide +kernel
  obtain ⟨⟨h, s⟩, hs, hval⟩ := Run.ok_of_eval heval
  obtain ⟨ri, hlast, hval⟩ := Option.map_eq_some_iff.mp hval
  obtain ⟨hls, hval⟩ := Prod.mk.inj hval
  obtain ⟨hmark, hproduced⟩ := Prod.mk.inj hval
  obtain ⟨older, hsplit⟩ := List.getLast?_eq_some_iff.mp hlast
  have hsplit : h ++ s.instQueue = older ++ [ri] := hsplit
  rw [hsplit, List.dropLast_concat] at hproduced
  obtain ⟨o, ho, hload⟩ := List.any_eq_true.mp hproduced
  obtain ⟨hx0, hload⟩ := (Bool.and_eq_true _ _).mp hload
  exact ⟨h, s, older, ri, .last hs, hsplit, hls, hmark, o, ho, by simpa using hx0, hload⟩

end Olympia
