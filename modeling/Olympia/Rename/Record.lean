import Olympia.Lib.Run
import Olympia.Lib.Journal
import Olympia.Rename.Accounting

/-!
# What Rename records on an instruction

`renameSources_` records the physical register of every source operand in a list or as the
data register, and in a bit mask; `SourcesRecorded` says exactly which, and
`renameSources_recorded` that it does.  `renameDests_` changes the tables and records on each
destination the architectural register, the physical register found there and the one put
there, so that a renamed instruction carries its own undo information.  `renameDest_cases` is
all that one iteration of that loop can do, and `DestsInv` is the invariant of the loop.
-/

namespace Olympia

/-! ## Sources -/

/-- A source operand that becomes the data register. -/
def Inst.isDataOperand (i : Inst) (o : OpInfo) : Bool :=
  (o.fieldId = .rs2 ∨ o.fieldId = .rs3) && i.isLoadStoreInst

/-- What is recorded for a source operand read from the map table `m`. -/
def readReg (m : ArchReg → ℕ) (o : OpInfo) : Reg := { physReg := m o.reg, opInfo := o }

namespace RenamedInst

/-- The operands `ops` of the instruction have been recorded as read from `m`. -/
structure SourcesRecorded (m : ArchReg → ℕ) (ops : List OpInfo) (ri : RenamedInst) : Prop where
  src_eq : ri.src = (ops.filter fun o => !o.isX0 && !ri.inst.isDataOperand o).map (readReg m)
  data_mem : ∀ r, ri.dataReg = some r → r.opInfo ∈ ops ∧
    (r.opInfo.isX0 = false → ri.inst.isDataOperand r.opInfo = true ∧ r = readReg m r.opInfo)
  srcMask_iff : ∀ f q, q ∈ ri.srcMask f ↔
    ∃ o ∈ ops, o.isX0 = false ∧ ri.inst.isDataOperand o = false ∧ o.regFile = f ∧ m o.reg = q
  dataMask_iff : ∀ f q, q ∈ ri.dataMask f ↔
    ∃ o ∈ ops, o.isX0 = false ∧ ri.inst.isDataOperand o = true ∧ o.regFile = f ∧ m o.reg = q

namespace SourcesRecorded

variable {m : ArchReg → ℕ} {ops : List OpInfo} {ri : RenamedInst} {o : OpInfo}

theorem start (i : Inst) : SourcesRecorded m [] { inst := i } :=
  ⟨rfl, by simp, by simp, by simp⟩

theorem setLoadProducer (h : SourcesRecorded m ops ri) (b : Bool) :
    SourcesRecorded m ops { ri with hasLoadProducer := b } :=
  ⟨h.src_eq, h.data_mem, h.srcMask_iff, h.dataMask_iff⟩

/-- A source `x0` is not renamed. -/
theorem skip (h : SourcesRecorded m ops ri) (hx0 : o.isX0 = true) :
    SourcesRecorded m (ops ++ [o]) ri where
  src_eq := by simp [h.src_eq, List.filter_append, hx0]
  data_mem r hr := by
    obtain ⟨hmem, hread⟩ := h.data_mem r hr
    exact ⟨by simp [hmem], hread⟩
  srcMask_iff f q := by
    rw [h.srcMask_iff]
    simp [or_and_right, exists_or, hx0]
  dataMask_iff f q := by
    rw [h.dataMask_iff]
    simp [or_and_right, exists_or, hx0]

/-- A source `x0` in the place of `rs2` is recorded as the data register. -/
theorem skipData (h : SourcesRecorded m ops ri) (hx0 : o.isX0 = true) (n : ℕ) :
    SourcesRecorded m (ops ++ [o]) (ri.setDataRegister ⟨n, o, noPrevDest⟩) where
  src_eq := (h.skip hx0).src_eq
  data_mem r hr := by
    obtain rfl : _ = r := Option.some.inj hr
    simp [hx0]
  srcMask_iff := (h.skip hx0).srcMask_iff
  dataMask_iff f q := by
    have hmask : (ri.setDataRegister ⟨n, o, noPrevDest⟩).dataMask = ri.dataMask := by
      simp [setDataRegister, hx0]
    rw [hmask]
    exact (h.skip hx0).dataMask_iff f q

theorem setData (h : SourcesRecorded m ops ri) (hx0 : o.isX0 = false)
    (hdata : ri.inst.isDataOperand o = true) :
    SourcesRecorded m (ops ++ [o]) (ri.setDataRegister (readReg m o)) where
  src_eq := by simp [setDataRegister, h.src_eq, List.filter_append, hdata]
  data_mem r hr := by
    obtain rfl : _ = r := Option.some.inj hr
    simp [readReg, setDataRegister, hdata]
  srcMask_iff f q := by
    show q ∈ ri.srcMask f ↔ _
    rw [h.srcMask_iff]
    simp [setDataRegister, or_and_right, exists_or, hdata]
  dataMask_iff f q := by
    by_cases hf : f = o.regFile
    · subst hf
      simp only [setDataRegister, readReg, hx0, Bool.false_eq_true, if_false,
        Function.update_self, Finset.mem_insert, h.dataMask_iff]
      simp only [List.mem_append, List.mem_singleton, or_and_right, exists_or,
        exists_eq_left, hx0, hdata, true_and]
      rw [or_comm]
      exact or_congr_right eq_comm
    · simp [setDataRegister, readReg, hx0, hf, h.dataMask_iff, or_and_right, exists_or,
        Ne.symm hf]

theorem addSrc (h : SourcesRecorded m ops ri) (hx0 : o.isX0 = false)
    (hdata : ri.inst.isDataOperand o = false) :
    SourcesRecorded m (ops ++ [o]) (ri.addSrcRegister (readReg m o)) where
  src_eq := by simp [addSrcRegister, h.src_eq, List.filter_append, hdata, hx0]
  data_mem r hr := by
    obtain ⟨hmem, hread⟩ := h.data_mem r hr
    exact ⟨by simp [hmem], hread⟩
  srcMask_iff f q := by
    by_cases hf : f = o.regFile
    · subst hf
      simp only [addSrcRegister, readReg, hx0, Bool.false_eq_true, if_false,
        Function.update_self, Finset.mem_insert, h.srcMask_iff]
      simp only [List.mem_append, List.mem_singleton, or_and_right, exists_or,
        exists_eq_left, hx0, hdata, true_and]
      rw [or_comm]
      exact or_congr_right eq_comm
    · simp [addSrcRegister, readReg, hx0, hf, h.srcMask_iff, or_and_right, exists_or,
        Ne.symm hf]
  dataMask_iff f q := by
    show q ∈ ri.dataMask f ↔ _
    rw [h.dataMask_iff]
    simp [addSrcRegister, or_and_right, exists_or, hdata]

/-- Every source in the lists has its bit in the mask. -/
theorem src_mem_srcMask {r : Reg} (h : SourcesRecorded m ops ri) (hr : r ∈ ri.src) :
    r.physReg ∈ ri.srcMask r.opInfo.regFile := by
  rw [h.src_eq] at hr
  obtain ⟨o, ho, rfl⟩ := List.mem_map.mp hr
  obtain ⟨hmem, hkeep⟩ := List.mem_filter.mp ho
  obtain ⟨hx0, hdata⟩ := (Bool.and_eq_true _ _).mp hkeep
  exact (h.srcMask_iff _ _).mpr
    ⟨o, hmem, by simpa using hx0, by simpa using hdata, rfl, rfl⟩

/-- The data register has its bit in the mask, unless it is `x0`. -/
theorem dataReg_mem_dataMask {r : Reg} (h : SourcesRecorded m ops ri)
    (hr : ri.dataReg = some r) (hx0 : r.opInfo.isX0 = false) :
    r.physReg ∈ ri.dataMask r.opInfo.regFile := by
  obtain ⟨hmem, hread⟩ := h.data_mem r hr
  obtain ⟨hdata, hphys⟩ := hread hx0
  refine (h.dataMask_iff _ _).mpr ⟨r.opInfo, hmem, hx0, hdata, rfl, ?_⟩
  rw [hphys]
  rfl

end SourcesRecorded

end RenamedInst

theorem renameSource_recorded {t : RenameTables} {ops : List OpInfo} {ri : RenamedInst}
    (h : ri.SourcesRecorded t.mapTable ops) (o : OpInfo) :
    (renameSource t ri o).SourcesRecorded t.mapTable (ops ++ [o]) ∧
      (renameSource t ri o).inst = ri.inst := by
  unfold renameSource
  by_cases hx0 : o.isX0 = true
  · simp only [hx0, if_true]
    split
    · exact ⟨h.skipData hx0 _, rfl⟩
    · exact ⟨h.skip hx0, rfl⟩
  · have hx0' : o.isX0 = false := by simpa using hx0
    simp only [hx0', Bool.false_eq_true, if_false]
    -- noting a load producer changes nothing that is recorded about the operands
    have hrec := h.setLoadProducer (ri.hasLoadProducer || (ri.inst.isLoadStoreInst &&
      ((t.regfileComponents o.regFile).referenceCounter (t.mapTable o.reg)).producerIsLoad))
    split
    · rename_i hdata
      refine ⟨hrec.setData hx0' ?_, rfl⟩
      simpa [Inst.isDataOperand] using hdata
    · rename_i hdata
      refine ⟨hrec.addSrc hx0' ?_, rfl⟩
      simpa [Inst.isDataOperand] using hdata

/-- `renameSources_` records every operand, read from the map table, and no destination. -/
theorem renameSources_recorded (t : RenameTables) (i : Inst) :
    (renameSources t { inst := i }).SourcesRecorded t.mapTable i.srcs ∧
      (renameSources t { inst := i }).inst = i := by
  have hfold : ∀ (l ops : List OpInfo) (ri : RenamedInst),
      ri.SourcesRecorded t.mapTable ops →
      (l.foldl (renameSource t) ri).SourcesRecorded t.mapTable (ops ++ l) ∧
        (l.foldl (renameSource t) ri).inst = ri.inst := by
    intro l
    induction l with
    | nil => exact fun ops ri h => ⟨by simpa using h, rfl⟩
    | cons o l ih =>
      intro ops ri h
      obtain ⟨hrec, hinst⟩ := renameSource_recorded h o
      obtain ⟨hrec', hinst'⟩ := ih (ops ++ [o]) _ hrec
      exact ⟨by simpa using hrec', hinst'.trans hinst⟩
  exact hfold i.srcs [] _ (.start i)

/-- `renameSources_` does not touch the destinations. -/
theorem renameSources_dest (t : RenameTables) (ri : RenamedInst) :
    (renameSources t ri).dest = ri.dest ∧ (renameSources t ri).destMask = ri.destMask := by
  have hstep : ∀ (ri : RenamedInst) (o : OpInfo),
      (renameSource t ri o).dest = ri.dest ∧ (renameSource t ri o).destMask = ri.destMask := by
    intro ri o
    unfold renameSource
    dsimp only
    split_ifs <;> exact ⟨rfl, rfl⟩
  have hfold : ∀ (l : List OpInfo) (ri : RenamedInst),
      (l.foldl (renameSource t) ri).dest = ri.dest ∧
        (l.foldl (renameSource t) ri).destMask = ri.destMask := by
    intro l
    induction l with
    | nil => exact fun ri => ⟨rfl, rfl⟩
    | cons o l ih =>
      intro ri
      obtain ⟨hdest, hmask⟩ := ih (renameSource t ri o)
      exact ⟨hdest.trans (hstep ri o).1, hmask.trans (hstep ri o).2⟩
  exact hfold _ ri

/-! ## Destinations -/

/-- A renamed destination as a change of the map table. -/
def Reg.journal (d : Reg) : JournalEntry ArchReg ℕ := ⟨d.opInfo.reg, d.prevDest, d.physReg⟩

/-- What an instruction did to the map table. -/
def RenamedInst.journal (ri : RenamedInst) : List (JournalEntry ArchReg ℕ) :=
  ri.dest.map Reg.journal

/-- The destinations of the instructions in flight. -/
def inFlight (q : List RenamedInst) : List Reg := q.flatMap RenamedInst.dest

/-- Where the register of a destination comes from: the free list, or an eliminated move's
source. -/
def RenamedInst.DestOrigin (p : RenameParams) (ri : RenamedInst) (d : Reg) : Prop :=
  d.physReg ∈ ri.destMask d.opInfo.regFile ∨
    ∃ r, moveSource p ri d.opInfo.regFile = some r ∧ d.physReg = r.physReg

/-- Everything a successful iteration of `renameDests_` can have done. -/
theorem renameDest_cases {p : RenameParams} {t t' : RenameTables} {ri ri' : RenamedInst}
    {o : OpInfo} (h : renameDest p (t, ri) o = .ok (t', ri')) :
    (o.isX0 = true ∧ t' = t ∧ ri' = ri) ∨
    (o.isX0 = false ∧ ∃ r, moveSource p ri o.regFile = some r ∧
      t' = { t with
        mapTable := Function.update t.mapTable o.reg r.physReg
        regfileComponents := Function.update t.regfileComponents o.regFile
          ((t.regfileComponents o.regFile).reference r.physReg ri.inst) } ∧
      ri' = { ri with targetROB := true }.addDestRegister
        ⟨r.physReg, o, t.mapTable o.reg⟩) ∨
    (o.isX0 = false ∧ ∃ front rest, moveSource p ri o.regFile = none ∧
      (t.regfileComponents o.regFile).freelist = front :: rest ∧
      t' = { t with
        mapTable := Function.update t.mapTable o.reg front
        regfileComponents := Function.update t.regfileComponents o.regFile
          { ({ t.regfileComponents o.regFile with freelist := rest }).reference front ri.inst with
            scoreboard := (t.regfileComponents o.regFile).scoreboard.clearBits
              (insert front (ri.destMask o.regFile)) } } ∧
      ri' = (ri.setDestRegisterBit ⟨front, o, t.mapTable o.reg⟩).addDestRegister
        ⟨front, o, t.mapTable o.reg⟩) := by
  unfold renameDest at h
  dsimp only at h
  by_cases hx0 : o.isX0 = true
  · rw [if_pos hx0] at h
    cases h
    exact .inl ⟨hx0, rfl, rfl⟩
  · rw [if_neg hx0] at h
    have hx0' : o.isX0 = false := by simpa using hx0
    rcases hfree : (t.regfileComponents o.regFile).freelist with _ | ⟨front, rest⟩
    · rw [hfree] at h
      cases h
    · rw [hfree] at h
      rcases hmove : moveSource p ri o.regFile with _ | r
      · simp only [hmove] at h
        split at h
        · cases h
        · cases h
          refine .inr (.inr ⟨hx0', front, rest, rfl, rfl, ?_, rfl⟩)
          simp [RegfileComponents.reference, RenamedInst.setDestRegisterBit,
            RenamedInst.addDestRegister]
      · simp only [hmove] at h
        split at h
        · cases h
        · cases h
          exact .inr (.inl ⟨hx0', r, rfl, rfl, rfl⟩)

/-- The state of the loop of `renameDests_` with the operands `rest` still to come, when it
started with the tables `t₀` and the instruction `ri₀`. -/
structure DestsInv (p : RenameParams) (t₀ : RenameTables) (ri₀ : RenamedInst)
    (rest : List OpInfo) (t : RenameTables) (ri : RenamedInst) : Prop where
  instQueue : t.instQueue = t₀.instQueue
  frame : ri = { ri₀ with dest := ri.dest, destMask := ri.destMask, targetROB := ri.targetROB }
  balanced : Balanced p t (ri.dest ++ inFlight t₀.instQueue)
  map_eq : t.mapTable = Journal.redo t₀.mapTable ri.journal
  records : ∀ d ∈ ri.dest, d.prevDest = t₀.mapTable d.opInfo.reg
  dests_eq : ri.dest.map Reg.opInfo ++ rest.filter (fun o => !o.isX0) =
    ri₀.inst.dests.filter fun o => !o.isX0
  origin : ∀ d ∈ ri.dest, ri.DestOrigin p d
  live : ∀ r ∈ ri₀.src, r.physReg ∈
    refs t.mapTable (ri.dest ++ inFlight t₀.instQueue) r.opInfo.regFile
  free_sub : ∀ f, ∀ q ∈ (t.regfileComponents f).freelist,
    q ∈ (t₀.regfileComponents f).freelist
  mask_free : ∀ f, ∀ q ∈ ri.destMask f, q ∈ (t₀.regfileComponents f).freelist
  mask_dest : ∀ f, ∀ q ∈ ri.destMask f, ∃ d ∈ ri.dest, d.opInfo.regFile = f ∧ d.physReg = q
  scoreboard : ∀ f q, (t.regfileComponents f).scoreboard q =
    if q ∈ ri.destMask f then false else (t₀.regfileComponents f).scoreboard q

namespace DestsInv

variable {p : RenameParams} {t₀ t t' : RenameTables} {ri₀ ri ri' : RenamedInst}
  {rest : List OpInfo} {o : OpInfo}

theorem mem_dests (h : DestsInv p t₀ ri₀ (o :: rest) t ri) (hx0 : o.isX0 = false) :
    o ∈ ri₀.inst.dests := by
  have hmem : o ∈ ri₀.inst.dests.filter fun o => !o.isX0 := by
    rw [← h.dests_eq]
    simp [hx0]
  exact List.mem_of_mem_filter hmem

theorem fieldValue_mem (h : DestsInv p t₀ ri₀ (o :: rest) t ri) (hx0 : o.isX0 = false) :
    o.fieldValue ∈ archRegs o.regFile :=
  o.fieldValue_mem_archRegs (ri₀.inst.dests_lt o (h.mem_dests hx0)) hx0

/-- No destination renamed so far is the one that comes next. -/
theorem key_ne (h : DestsInv p t₀ ri₀ (o :: rest) t ri) (hx0 : o.isX0 = false) :
    ∀ e ∈ ri.journal, e.key ≠ o.reg := by
  have hnodup := ri₀.inst.dests_distinct
  rw [← h.dests_eq, List.map_append, List.nodup_append] at hnodup
  intro e he
  obtain ⟨d, hd, rfl⟩ := List.mem_map.mp he
  refine hnodup.2.2 _ (List.mem_map_of_mem (List.mem_map_of_mem hd)) _ ?_
  exact List.mem_map_of_mem (by simp [hx0])

theorem map_next (h : DestsInv p t₀ ri₀ (o :: rest) t ri) (hx0 : o.isX0 = false) :
    t.mapTable o.reg = t₀.mapTable o.reg := by
  rw [h.map_eq]
  exact Journal.redo_of_forall_ne (h.key_ne hx0)

/-- What sharing and popping have in common: one more destination `d`, and the table entry of
its operand set. -/
theorem extend (h : DestsInv p t₀ ri₀ (o :: rest) t ri) (hx0 : o.isX0 = false) {d : Reg}
    (hd : d.opInfo = o) (hprev : d.prevDest = t.mapTable o.reg)
    (hqueue : t'.instQueue = t.instQueue)
    (hmap : t'.mapTable = Function.update t.mapTable o.reg d.physReg)
    (hbal : Balanced p t' (d :: (ri.dest ++ inFlight t₀.instQueue)))
    (hframe : ri' = { ri with
      dest := ri.dest ++ [d], destMask := ri'.destMask, targetROB := ri'.targetROB })
    (hnew : ri'.DestOrigin p d)
    (hmask : ∀ f, ∀ q ∈ ri.destMask f, q ∈ ri'.destMask f)
    (hmask_new : ∀ f, ∀ q ∈ ri'.destMask f, q ∈ ri.destMask f ∨
      f = o.regFile ∧ q = d.physReg ∧ q ∈ (t.regfileComponents f).freelist)
    (hfree : ∀ f, ∀ q ∈ (t'.regfileComponents f).freelist,
      q ∈ (t.regfileComponents f).freelist)
    (hsb : ∀ f q, (t'.regfileComponents f).scoreboard q =
      if q ∈ ri'.destMask f then false else (t.regfileComponents f).scoreboard q) :
    DestsInv p t₀ ri₀ rest t' ri' := by
  have hdest : ri'.dest = ri.dest ++ [d] := by rw [hframe]
  have hsrc : ri'.src = ri.src := by rw [hframe]
  have hinst : ri'.inst = ri.inst := by rw [hframe]
  have hperm : (d :: (ri.dest ++ inFlight t₀.instQueue)).Perm
      (ri'.dest ++ inFlight t₀.instQueue) := by
    rw [hdest, List.append_assoc]
    exact List.perm_middle.symm
  have hmove : ∀ f, moveSource p ri' f = moveSource p ri f := by
    intro f
    simp only [moveSource, RenamedInst.getSourceList, hsrc, hinst]
  constructor
  · exact hqueue.trans h.instQueue
  · rw [hframe, h.frame]
  · exact hbal.perm hperm
  · have hjournal : ri'.journal = ri.journal ++ [d.journal] := by
      simp [RenamedInst.journal, hdest]
    rw [hjournal, Journal.redo_append, ← h.map_eq, hmap, ← hd]
    rfl
  · intro d' hd'
    rw [hdest, List.mem_append, List.mem_singleton] at hd'
    rcases hd' with hd' | rfl
    · exact h.records d' hd'
    · rw [hprev, hd, h.map_next hx0]
  · rw [hdest, ← h.dests_eq]
    simp [hd, hx0]
  · intro d' hd'
    rw [hdest, List.mem_append, List.mem_singleton] at hd'
    rcases hd' with hd' | rfl
    · rcases h.origin d' hd' with hpop | ⟨r, hr, hphys⟩
      · exact .inl (hmask _ _ hpop)
      · exact .inr ⟨r, by rw [hmove]; exact hr, hphys⟩
    · exact hnew
  · intro r hr
    have hlive := h.live r hr
    subst hd
    rw [← refs_perm hperm, hmap, refs_rename (h.fieldValue_mem hx0) hprev]
    split
    · exact Multiset.mem_cons_of_mem hlive
    · exact hlive
  · exact fun f q hq => h.free_sub f q (hfree f q hq)
  · intro f q hq
    rcases hmask_new f q hq with hq | ⟨-, -, hq⟩
    · exact h.mask_free f q hq
    · exact h.free_sub f q hq
  · intro f q hq
    rw [hdest]
    rcases hmask_new f q hq with hq | ⟨hf, hq, -⟩
    · obtain ⟨d', hd', hfile, hphys⟩ := h.mask_dest f q hq
      exact ⟨d', by simp [hd'], hfile, hphys⟩
    · exact ⟨d, by simp, by rw [hd, hf], hq.symm⟩
  · intro f q
    rw [hsb, h.scoreboard]
    by_cases hq : q ∈ ri'.destMask f
    · simp [hq]
    · have hq' : q ∉ ri.destMask f := fun hmem => hq (hmask f q hmem)
      simp [hq, hq']

theorem step (h : DestsInv p t₀ ri₀ (o :: rest) t ri)
    (hstep : renameDest p (t, ri) o = .ok (t', ri')) : DestsInv p t₀ ri₀ rest t' ri' := by
  rcases renameDest_cases hstep with ⟨hx0, rfl, rfl⟩ | ⟨hx0, r, hmove, rfl, rfl⟩ |
    ⟨hx0, front, tail, hmove, hfree, rfl, rfl⟩
  · refine { h with dests_eq := ?_ }
    rw [← h.dests_eq]
    simp [hx0]
  · -- the source of an eliminated move is referenced, by the table or by what replaced it
    have hlive : r.physReg ∈ refs t.mapTable (ri.dest ++ inFlight t₀.instQueue) o.regFile := by
      unfold moveSource at hmove
      split at hmove
      · have hmem := List.mem_of_mem_head? hmove
        rw [h.frame] at hmem
        obtain ⟨hsrc, hfile⟩ := List.mem_filter.mp hmem
        have hfile' : r.opInfo.regFile = o.regFile := by simpa using hfile
        rw [← hfile']
        exact h.live r hsrc
      · cases hmove
    refine h.extend (d := ⟨r.physReg, o, t.mapTable o.reg⟩) hx0 rfl rfl rfl rfl ?_ rfl
      (.inr ⟨r, hmove, rfl⟩) (fun f q hq => hq) (fun f q hq => .inl hq) ?_ ?_
    · exact h.balanced.shareDest (d := ⟨r.physReg, o, t.mapTable o.reg⟩)
        (h.fieldValue_mem hx0) rfl hlive
    · intro f q hq
      by_cases hf : f = o.regFile
      · subst hf
        simpa [RegfileComponents.reference] using hq
      · simpa [hf] using hq
    · intro f q
      have hsb : (Function.update t.regfileComponents o.regFile
          ((t.regfileComponents o.regFile).reference r.physReg ri.inst) f).scoreboard q
          = (t.regfileComponents f).scoreboard q := by
        by_cases hf : f = o.regFile
        · subst hf
          simp [RegfileComponents.reference]
        · simp [hf]
      show _ = if q ∈ ri.destMask f then false else _
      rw [hsb, h.scoreboard]
      split <;> rfl
  · refine h.extend (d := ⟨front, o, t.mapTable o.reg⟩) hx0 rfl rfl rfl rfl ?_ rfl
      (.inl ?_) ?_ ?_ ?_ ?_
    · exact h.balanced.popDest (d := ⟨front, o, t.mapTable o.reg⟩)
        (h.fieldValue_mem hx0) rfl hfree
    · simp [RenamedInst.setDestRegisterBit, RenamedInst.addDestRegister]
    · intro f q hq
      by_cases hf : f = o.regFile
      · subst hf
        simp [RenamedInst.setDestRegisterBit, RenamedInst.addDestRegister, hq]
      · simp [RenamedInst.setDestRegisterBit, RenamedInst.addDestRegister, hf, hq]
    · intro f q hq
      by_cases hf : f = o.regFile
      · subst hf
        simp only [RenamedInst.setDestRegisterBit, RenamedInst.addDestRegister,
          Function.update_self, Finset.mem_insert] at hq
        rcases hq with rfl | hq
        · exact .inr ⟨rfl, rfl, by simp [hfree]⟩
        · exact .inl hq
      · exact .inl (by
          simpa [RenamedInst.setDestRegisterBit, RenamedInst.addDestRegister, hf] using hq)
    · intro f q hq
      by_cases hf : f = o.regFile
      · subst hf
        simp only [RegfileComponents.reference, Function.update_self] at hq
        simp [hfree, hq]
      · simpa [hf] using hq
    · intro f q
      by_cases hf : f = o.regFile
      · subst hf
        simp [RenamedInst.setDestRegisterBit, RenamedInst.addDestRegister,
          Scoreboard.clearBits]
      · simp only [RenamedInst.setDestRegisterBit, RenamedInst.addDestRegister, ne_eq, hf,
          not_false_eq_true, Function.update_of_ne]
        rw [h.scoreboard]
        split <;> rfl

/-- What `renameDests_` has done when it is through. -/
theorem of_renameDests (h : DestsInv p t₀ ri₀ ri.inst.dests t ri)
    (hren : renameDests p t ri = .ok (t', ri')) : DestsInv p t₀ ri₀ [] t' ri' :=
  Run.foldlM_ok_induct (I := fun l st => DestsInv p t₀ ri₀ l st.1 st.2)
    (fun _ _ _ _ hI hf => hI.step hf) h hren

end DestsInv

end Olympia
