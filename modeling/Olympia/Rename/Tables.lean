import Mathlib.Data.List.DropRight
import Olympia.Rename.Record

/-!
# The rename tables as a journal

A renamed instruction holds what it changed in `map_table_`, so `inst_queue_` is a journal of
the table, and retired instructions are the part of the journal that can no longer be taken
back.

`TablesInv` is the invariant of the tables.  Its argument `h` is the list of all instructions
retired so far; `h ++ inst_queue_` are the survivors: every instruction that was renamed and
not flushed, oldest first.

* `balanced`: counters and free lists account for the references;
* `chain`: the survivors lead from the initial map table to the current one;
* `wellRenamed`: each survivor was renamed against the table its elders left;
* `fresh`: what an instruction took from the free list is not read by an older one in flight.

`renameInst_spec`, `retireInst_spec` and `flushTables_spec` say that the three operations keep
it, and that the last two never fail on entries of `inst_queue_`.
-/

namespace Olympia

/-! ## The invariant of the tables -/

/-- The instruction was renamed when the map table was `m`. -/
structure RenamedInst.WellRenamed (p : RenameParams) (m : ArchReg → ℕ) (ri : RenamedInst) :
    Prop where
  sources : ri.SourcesRecorded m ri.inst.srcs
  dests_eq : ri.dest.map Reg.opInfo = ri.inst.dests.filter fun o => !o.isX0
  records : ∀ d ∈ ri.dest, d.prevDest = m d.opInfo.reg
  origin : ∀ d ∈ ri.dest, ri.DestOrigin p d
  mask_dest : ∀ f, ∀ q ∈ ri.destMask f, ∃ d ∈ ri.dest, d.opInfo.regFile = f ∧ d.physReg = q

namespace RenamedInst.WellRenamed

variable {p : RenameParams} {m : ArchReg → ℕ} {ri : RenamedInst} {d : Reg}

theorem isX0_eq_false (h : ri.WellRenamed p m) (hd : d ∈ ri.dest) : d.opInfo.isX0 = false := by
  have hmem : d.opInfo ∈ ri.inst.dests.filter fun o => !o.isX0 := by
    rw [← h.dests_eq]
    exact List.mem_map_of_mem hd
  simpa using (List.mem_filter.mp hmem).2

theorem fieldValue_mem (h : ri.WellRenamed p m) (hd : d ∈ ri.dest) :
    d.opInfo.fieldValue ∈ archRegs d.opInfo.regFile := by
  have hmem : d.opInfo ∈ ri.inst.dests.filter fun o => !o.isX0 := by
    rw [← h.dests_eq]
    exact List.mem_map_of_mem hd
  exact d.opInfo.fieldValue_mem_archRegs
    (ri.inst.dests_lt _ (List.mem_of_mem_filter hmem)) (h.isX0_eq_false hd)

theorem distinctKeys (h : ri.WellRenamed p m) : Journal.DistinctKeys ri.journal := by
  have hkeys : ri.journal.map JournalEntry.key = (ri.dest.map Reg.opInfo).map OpInfo.reg := by
    simp [journal, Function.comp_def, Reg.journal]
  unfold Journal.DistinctKeys
  rw [hkeys, h.dests_eq]
  exact ri.inst.dests_distinct

theorem journal_records (h : ri.WellRenamed p m) : Journal.Records m ri.journal := by
  refine ⟨h.distinctKeys, fun e he => ?_⟩
  obtain ⟨d, hd, rfl⟩ := List.mem_map.mp he
  exact h.records d hd

end RenamedInst.WellRenamed

/-- The map table the instructions `older` lead to from the initial one. -/
def tableAfter (x0 : ℕ) (older : List RenamedInst) : ArchReg → ℕ :=
  Journal.redoAll (setupMap x0) (older.map RenamedInst.journal)

structure TablesInv (p : RenameParams) (x0 : ℕ) (h : List RenamedInst) (t : RenameTables) :
    Prop where
  balanced : Balanced p t (inFlight t.instQueue)
  chain : Journal.Chain (setupMap x0) ((h ++ t.instQueue).map RenamedInst.journal) t.mapTable
  wellRenamed : ∀ older ri younger, h ++ t.instQueue = older ++ ri :: younger →
    ri.WellRenamed p (tableAfter x0 older)
  fresh : t.instQueue.Pairwise fun i j =>
    ∀ f, ∀ q ∈ j.destMask f, q ∉ i.srcMask f ∧ q ∉ i.dataMask f ∧ q ∉ i.destMask f

theorem tablesInv_init (p : RenameParams) (x0 : ℕ) :
    TablesInv p x0 [] (RenameState.init p x0).toRenameTables where
  balanced := balanced_init p x0
  chain := rfl
  wellRenamed older ri younger heq := by
    have hnil : ([] : List RenamedInst) = older ++ ri :: younger := heq
    simp at hnil
  fresh := List.Pairwise.nil

namespace TablesInv

variable {p : RenameParams} {x0 : ℕ} {h : List RenamedInst} {t t' : RenameTables}
  {ri : RenamedInst} {q : List RenamedInst} {f : RegFile} {r : ℕ}

/-- The survivors determine the map table. -/
theorem mapTable_eq (H : TablesInv p x0 h t) : t.mapTable = tableAfter x0 (h ++ t.instQueue) :=
  H.chain.eq_redoAll

theorem exists_wellRenamed (H : TablesInv p x0 h t) (hri : ri ∈ t.instQueue) :
    ∃ m, ri.WellRenamed p m := by
  obtain ⟨older, younger, hsplit⟩ := List.append_of_mem hri
  exact ⟨_, H.wellRenamed (h ++ older) ri younger (by rw [hsplit, List.append_assoc])⟩

/-- What stood in the map table when an instruction in flight was renamed, or after it, is
still referenced: it is still there, or the instruction that replaced it holds it. -/
theorem mem_refs_of_past {older younger : List RenamedInst} {a : ℕ} (H : TablesInv p x0 h t)
    (hsplit : t.instQueue = older ++ younger) (ha : a ∈ archRegs f) :
    tableAfter x0 (h ++ older) (f, a) ∈ refs t.mapTable (inFlight t.instQueue) f := by
  have hchain := H.chain
  rw [hsplit, ← List.append_assoc, List.map_append] at hchain
  obtain ⟨mid, hmid, hrest⟩ := Journal.Chain.append_iff.mp hchain
  have hmid' : mid = tableAfter x0 (h ++ older) := hmid.eq_redoAll
  subst hmid'
  rcases hrest.value_or_recorded (f, a) with hsame | ⟨g, hg, e, he, hkey, hold⟩
  · rw [← hsame]
    exact mem_refs_of_map ha
  · obtain ⟨j, hj, rfl⟩ := List.mem_map.mp hg
    obtain ⟨d, hd, rfl⟩ := List.mem_map.mp he
    have hfile : d.opInfo.regFile = f := congrArg Prod.fst hkey
    have hmem : d ∈ inFlight t.instQueue := by
      rw [hsplit]
      exact List.mem_flatMap.mpr ⟨j, by simp [hj], hd⟩
    rw [← hold, ← hfile]
    exact mem_refs_of_prevDest hmem

/-- What an instruction in flight reads is referenced. -/
theorem mem_refs_of_source (H : TablesInv p x0 h t) (hri : ri ∈ t.instQueue)
    (hr : r ∈ ri.srcMask f ∨ r ∈ ri.dataMask f) :
    r ∈ refs t.mapTable (inFlight t.instQueue) f := by
  obtain ⟨older, younger, hsplit⟩ := List.append_of_mem hri
  have hwell := H.wellRenamed (h ++ older) ri younger (by rw [hsplit, List.append_assoc])
  have hop : ∃ o ∈ ri.inst.srcs, o.isX0 = false ∧ o.regFile = f ∧
      tableAfter x0 (h ++ older) o.reg = r := by
    rcases hr with hr | hr
    · obtain ⟨o, ho, hx0, -, hfile, hread⟩ := (hwell.sources.srcMask_iff f r).mp hr
      exact ⟨o, ho, hx0, hfile, hread⟩
    · obtain ⟨o, ho, hx0, -, hfile, hread⟩ := (hwell.sources.dataMask_iff f r).mp hr
      exact ⟨o, ho, hx0, hfile, hread⟩
  obtain ⟨o, ho, hx0, rfl, rfl⟩ := hop
  exact H.mem_refs_of_past hsplit (o.fieldValue_mem_archRegs (ri.inst.srcs_lt o ho) hx0)

/-- What an instruction in flight writes is referenced. -/
theorem mem_refs_of_dest {d : Reg} (H : TablesInv p x0 h t) (hri : ri ∈ t.instQueue)
    (hd : d ∈ ri.dest) : d.physReg ∈ refs t.mapTable (inFlight t.instQueue) d.opInfo.regFile := by
  obtain ⟨older, younger, hsplit⟩ := List.append_of_mem hri
  have hwell := H.wellRenamed (h ++ older) ri younger (by rw [hsplit, List.append_assoc])
  have hafter : tableAfter x0 (h ++ (older ++ [ri])) d.opInfo.reg = d.physReg := by
    have hredo : tableAfter x0 (h ++ (older ++ [ri]))
        = Journal.redo (tableAfter x0 (h ++ older)) ri.journal := by
      simp [tableAfter, Journal.redoAll]
    rw [hredo]
    exact Journal.redo_of_mem hwell.distinctKeys (List.mem_map_of_mem hd)
  rw [← hafter]
  have hsplit' : t.instQueue = (older ++ [ri]) ++ younger := by
    rw [hsplit, List.append_assoc]
    rfl
  exact H.mem_refs_of_past hsplit' (hwell.fieldValue_mem hd)

/-! ## Renaming an instruction -/

theorem renameInst_start (H : TablesInv p x0 h t) (i : Inst) :
    DestsInv p t (renameSources t { inst := i }) i.dests t (renameSources t { inst := i }) := by
  obtain ⟨hdest, hmask⟩ := renameSources_dest t { inst := i }
  obtain ⟨hrec, hinst⟩ := renameSources_recorded t i
  constructor
  · rfl
  · rfl
  · rw [hdest]
    exact H.balanced
  · simp [RenamedInst.journal, hdest]
  · simp [hdest]
  · simp [hdest, hinst]
  · simp [hdest]
  · intro r hr
    rw [hrec.src_eq] at hr
    obtain ⟨o, ho, rfl⟩ := List.mem_map.mp hr
    obtain ⟨ho, hkeep⟩ := List.mem_filter.mp ho
    have hx0 : o.isX0 = false := by
      have := (Bool.and_eq_true _ _).mp hkeep
      simpa using this.1
    exact mem_refs_of_map (o.fieldValue_mem_archRegs (i.srcs_lt o ho) hx0)
  · exact fun f q hq => hq
  · simp [hmask]
  · simp [hmask]
  · simp [hmask]

/-- Renaming keeps the invariant and appends the instruction. -/
theorem renameInst_spec {i : Inst} (H : TablesInv p x0 h t)
    (hren : renameInst p t i = .ok (t', ri)) :
    TablesInv p x0 h t' ∧ t'.instQueue = t.instQueue ++ [ri] ∧ ri.inst = i ∧
      (∀ f, ∀ q ∈ ri.destMask f, q ∈ (t.regfileComponents f).freelist) ∧
      ∀ f q, (t'.regfileComponents f).scoreboard q =
        if q ∈ ri.destMask f then false else (t.regfileComponents f).scoreboard q := by
  unfold renameInst at hren
  obtain ⟨⟨t₁, ri₁⟩, hdests, hpush⟩ := Run.bind_eq_ok.mp hren
  obtain ⟨rfl, rfl⟩ := Prod.mk.inj (Except.ok.inj hpush)
  obtain ⟨hrec, hinst₀⟩ := renameSources_recorded t i
  have hstart := H.renameInst_start i
  rw [← hinst₀] at hstart
  have D := DestsInv.of_renameDests (by rw [hinst₀] at hstart ⊢; exact hstart) hdests
  have hinst : ri₁.inst = i := by rw [D.frame]; exact hinst₀
  have hwell : ri₁.WellRenamed p t.mapTable := by
    refine ⟨?_, ?_, D.records, D.origin, D.mask_dest⟩
    · have hrec' := hrec
      rw [hinst]
      rw [D.frame]
      exact ⟨hrec'.src_eq, hrec'.data_mem, hrec'.srcMask_iff, hrec'.dataMask_iff⟩
    · have heq := D.dests_eq
      rw [hinst, ← hinst₀]
      simpa using heq
  refine ⟨⟨?_, ?_, ?_, ?_⟩, ?_, hinst, D.mask_free, D.scoreboard⟩
  · have hperm : (ri₁.dest ++ inFlight t.instQueue).Perm
        (inFlight (t₁.instQueue ++ [ri₁])) := by
      rw [D.instQueue]
      simpa [inFlight] using List.perm_append_comm
    exact D.balanced.perm hperm
  · have hsnoc := H.chain.snoc (g := ri₁.journal) hwell.journal_records
    rw [← D.map_eq] at hsnoc
    simpa [D.instQueue] using hsnoc
  · intro older ri younger hsplit
    have hsplit' : (h ++ t.instQueue) ++ [ri₁] = older ++ ri :: younger := by
      simpa [D.instQueue] using hsplit
    rcases List.eq_nil_or_concat younger with rfl | ⟨front, last, rfl⟩
    · obtain ⟨rfl, hlast⟩ := List.append_inj' hsplit' rfl
      obtain rfl : ri₁ = ri := by simpa using hlast
      rw [← H.mapTable_eq]
      exact hwell
    · have hinit : h ++ t.instQueue = older ++ ri :: front := by
        have hassoc : older ++ ri :: (front ++ [last]) = (older ++ ri :: front) ++ [last] := by
          simp
        rw [List.concat_eq_append, hassoc] at hsplit'
        exact (List.append_inj' hsplit' rfl).1
      exact H.wellRenamed older ri front hinit
  · show (t₁.instQueue ++ [ri₁]).Pairwise _
    rw [D.instQueue, List.pairwise_append]
    refine ⟨H.fresh, List.pairwise_singleton _ _, ?_⟩
    intro j hj k hk f r hr
    obtain rfl : k = ri₁ := by simpa using hk
    have hfree := D.mask_free f r hr
    have hnot := (H.balanced f).not_mem_refs hfree
    refine ⟨fun hsrc => hnot (H.mem_refs_of_source hj (.inl hsrc)),
      fun hdata => hnot (H.mem_refs_of_source hj (.inr hdata)), fun hdest => hnot ?_⟩
    obtain ⟨m, hj'⟩ := H.exists_wellRenamed hj
    obtain ⟨d, hd, rfl, rfl⟩ := hj'.mask_dest f r hdest
    exact H.mem_refs_of_dest hj hd
  · rw [D.instQueue]

/-- Renaming adds no reference but to what it takes from the free list. -/
theorem renameInst_refs {i : Inst} (H : TablesInv p x0 h t)
    (hren : renameInst p t i = .ok (t', ri)) (f : RegFile) :
    ∀ q ∈ refs t'.mapTable (inFlight t'.instQueue) f,
      q ∈ refs t.mapTable (inFlight t.instQueue) f ∨ q ∈ ri.destMask f := by
  obtain ⟨H', hq', -, -, -⟩ := H.renameInst_spec hren
  have hmap : t'.mapTable = Journal.redo t.mapTable ri.journal := by
    rw [H'.mapTable_eq, hq', H.mapTable_eq, ← List.append_assoc]
    simp [tableAfter, Journal.redoAll]
  have hwell : ri.WellRenamed p t.mapTable := by
    rw [H.mapTable_eq]
    exact H'.wellRenamed (h ++ t.instQueue) ri [] (by rw [hq', List.append_assoc])
  have hread : ∀ o ∈ ri.inst.srcs, o.isX0 = false →
      t.mapTable o.reg ∈ refs t.mapTable (inFlight t.instQueue) o.regFile := fun o ho hx0 =>
    mem_refs_of_map (o.fieldValue_mem_archRegs (ri.inst.srcs_lt o ho) hx0)
  intro q hq
  rcases mem_refs_iff.mp hq with ⟨a, ha, rfl⟩ | ⟨d, hd, rfl, rfl⟩
  · by_cases hkey : ∃ d ∈ ri.dest, d.opInfo.reg = (f, a)
    · obtain ⟨d, hd, hreg⟩ := hkey
      obtain rfl : d.opInfo.regFile = f := congrArg Prod.fst hreg
      have hval : t'.mapTable (d.opInfo.regFile, a) = d.physReg := by
        rw [hmap, ← hreg]
        exact Journal.redo_of_mem hwell.distinctKeys (List.mem_map_of_mem hd)
      rw [hval]
      rcases hwell.origin d hd with hpop | ⟨r, hmove, hphys⟩
      · exact .inr hpop
      · -- an eliminated move refers to what its source was read from
        refine .inl ?_
        rw [hphys]
        unfold moveSource at hmove
        split at hmove
        · obtain ⟨hr, hfile⟩ := List.mem_filter.mp (List.mem_of_mem_head? hmove)
          rw [hwell.sources.src_eq] at hr
          obtain ⟨o, ho, rfl⟩ := List.mem_map.mp hr
          obtain ⟨ho, hkeep⟩ := List.mem_filter.mp ho
          have hx0 : o.isX0 = false := by simpa using ((Bool.and_eq_true _ _).mp hkeep).1
          have hfile' : o.regFile = d.opInfo.regFile := of_decide_eq_true hfile
          rw [← hfile']
          exact hread o ho hx0
        · cases hmove
    · have hval : t'.mapTable (f, a) = t.mapTable (f, a) := by
        rw [hmap]
        refine Journal.redo_of_forall_ne fun e he heq => hkey ?_
        obtain ⟨d, hd, rfl⟩ := List.mem_map.mp he
        exact ⟨d, hd, heq⟩
      rw [hval]
      exact .inl (mem_refs_of_map ha)
  · rw [hq', inFlight, List.flatMap_append, List.mem_append] at hd
    rcases hd with hd | hd
    · exact .inl (mem_refs_of_prevDest hd)
    · have hd : d ∈ ri.dest := by simpa using hd
      rw [hwell.records d hd]
      exact .inl (mem_refs_of_map (hwell.fieldValue_mem hd))

/-- With a part of `inst_queue_` from its front there are no more references. -/
theorem refs_of_prefix {younger : List RenamedInst} (H : TablesInv p x0 h t)
    (H' : TablesInv p x0 h t') (hsplit : t.instQueue = t'.instQueue ++ younger) (f : RegFile) :
    ∀ q ∈ refs t'.mapTable (inFlight t'.instQueue) f,
      q ∈ refs t.mapTable (inFlight t.instQueue) f := by
  intro q hq
  rcases mem_refs_iff.mp hq with ⟨a, ha, rfl⟩ | ⟨d, hd, rfl, rfl⟩
  · rw [H'.mapTable_eq]
    exact H.mem_refs_of_past hsplit ha
  · refine mem_refs_of_prevDest ?_
    rw [hsplit, inFlight, List.flatMap_append]
    exact List.mem_append_left _ hd

/-- A unit writes a scoreboard. -/
theorem setScoreboards (H : TablesInv p x0 h t) (sb : Scoreboards) :
    TablesInv p x0 h (t.setScoreboards sb) where
  balanced f := H.balanced f
  chain := H.chain
  wellRenamed := H.wellRenamed
  fresh := H.fresh

/-! ## Retiring an instruction -/

/-- Retiring the oldest entry of `inst_queue_` succeeds; the entry becomes history. -/
theorem retireInst_spec (H : TablesInv p x0 h t) (status : RenamedInst → InstStatus)
    (hq : t.instQueue = ri :: q) (hstatus : status ri = .retired) :
    ∃ t', retireInst status t ri = .ok t' ∧ TablesInv p x0 (h ++ [ri]) t' ∧
      t'.instQueue = q ∧ t'.mapTable = t.mapTable ∧
      ∀ f, (t'.regfileComponents f).scoreboard = (t.regfileComponents f).scoreboard := by
  have hmem : ri ∈ t.instQueue := by simp [hq]
  obtain ⟨m, hwell⟩ := H.exists_wellRenamed hmem
  have hloop := Run.foldlM_ok_exists (f := reclaimRename)
    (I := fun l s => Balanced p s (l ++ inFlight q) ∧ (∀ d ∈ l, d.opInfo.isX0 = false) ∧
      s.mapTable = t.mapTable ∧ s.instQueue = t.instQueue ∧
      ∀ f, (s.regfileComponents f).scoreboard = (t.regfileComponents f).scoreboard)
    (fun d l s hI => by
      obtain ⟨hbal, hx0, hmap, hqueue, hsb⟩ := hI
      obtain ⟨s', hs', hbal', hmap', hqueue', hsb'⟩ :=
        Balanced.reclaimRename (L := l ++ inFlight q) hbal (hx0 d (by simp))
      exact ⟨s', hs', hbal', fun d' hd' => hx0 d' (by simp [hd']), hmap'.trans hmap,
        hqueue'.trans hqueue, fun f => (hsb' f).trans (hsb f)⟩)
    (l := ri.destsByFile) (s := t)
  obtain ⟨s, hs, hbal, -, hmap, hqueue, hsb⟩ := hloop ⟨by
      have hbal := H.balanced
      rw [hq] at hbal
      exact hbal.perm (List.Perm.append_right _ ri.destsByFile_perm.symm),
    fun d hd => hwell.isX0_eq_false (ri.destsByFile_perm.mem_iff.mp hd), rfl, rfl, fun _ => rfl⟩
  refine ⟨{ s with instQueue := q }, ?_, ⟨?_, ?_, ?_, ?_⟩, rfl, hmap, hsb⟩
  · unfold retireInst
    rw [hstatus, Run.bind_eq_ok]
    refine ⟨(), by simp, ?_⟩
    rw [Run.bind_eq_ok]
    refine ⟨s, hs, ?_⟩
    rw [hqueue, hq]
    simp [spartaAssert, bind, Except.bind, pure, Except.pure]
  · exact hbal
  · have hchain := H.chain
    rw [hq] at hchain
    rw [hmap]
    simpa using hchain
  · intro older j younger hsplit
    exact H.wellRenamed older j younger (by rw [hq, ← hsplit]; simp)
  · have hfresh := H.fresh
    rw [hq] at hfresh
    exact (List.pairwise_cons.mp hfresh).2

/-! ## Flushing -/

/-- Taking the youngest entry of `inst_queue_` back succeeds. -/
theorem restore_spec (H : TablesInv p x0 h t) (hq : t.instQueue = q ++ [ri]) :
    ∃ t', ri.destsByFile.foldlM restoreDest t = .ok t' ∧
      TablesInv p x0 h { t' with instQueue := q } ∧
      ∀ f, (t'.regfileComponents f).scoreboard = (t.regfileComponents f).scoreboard := by
  have hwell := H.wellRenamed (h ++ q) ri [] (by rw [hq, List.append_assoc])
  have hchain := H.chain
  rw [hq, ← List.append_assoc, List.map_append] at hchain
  have hlast : ∀ d ∈ ri.dest, t.mapTable d.opInfo.reg = d.physReg := fun d hd =>
    hchain.last_new d.journal (List.mem_map_of_mem hd)
  have hkeys : Journal.DistinctKeys (ri.destsByFile.map Reg.journal) :=
    ((ri.destsByFile_perm.symm.map Reg.journal).map JournalEntry.key).nodup_iff.mp
      hwell.distinctKeys
  -- the destinations still to come keep their entries, because no two have the same key
  have hloop := Run.foldlM_ok_exists (f := restoreDest)
    (I := fun l s => Balanced p s (l ++ inFlight q) ∧
      (∀ d ∈ l, d ∈ ri.dest ∧ s.mapTable d.opInfo.reg = d.physReg) ∧
      Journal.DistinctKeys (l.map Reg.journal) ∧
      Journal.undo s.mapTable (l.map Reg.journal)
        = Journal.undo t.mapTable (ri.destsByFile.map Reg.journal) ∧
      ∀ f, (s.regfileComponents f).scoreboard = (t.regfileComponents f).scoreboard)
    (fun d l s hI => by
      obtain ⟨hbal, hmap, hdistinct, hundo, hsb⟩ := hI
      obtain ⟨hd, hphys⟩ := hmap d (by simp)
      obtain ⟨hhead, htail⟩ := List.nodup_cons.mp
        (show (d.opInfo.reg :: (l.map Reg.journal).map JournalEntry.key).Nodup from hdistinct)
      obtain ⟨s', hs', hbal', hmap', -, hsb'⟩ := Balanced.restoreDest (L := l ++ inFlight q)
        hbal (hwell.isX0_eq_false hd) (hwell.fieldValue_mem hd) hphys
      refine ⟨s', hs', hbal', fun d' hd' => ?_, htail, ?_, fun f => (hsb' f).trans (hsb f)⟩
      · obtain ⟨hmem, hphys'⟩ := hmap d' (by simp [hd'])
        refine ⟨hmem, ?_⟩
        have hne : d'.opInfo.reg ≠ d.opInfo.reg := by
          intro heq
          refine hhead (List.mem_map.mpr ⟨d'.journal, List.mem_map_of_mem hd', heq⟩)
        rw [hmap', Function.update_of_ne hne, hphys']
      · rw [← hundo, hmap']
        rfl)
    (l := ri.destsByFile) (s := t)
  obtain ⟨s, hs, hbal, -, -, hundo, hsb⟩ := hloop ⟨by
      have hbal := H.balanced
      rw [hq] at hbal
      refine hbal.perm ?_
      have hperm : (inFlight (q ++ [ri])).Perm (ri.dest ++ inFlight q) := by
        simpa [inFlight] using List.perm_append_comm
      exact hperm.trans (List.Perm.append_right _ ri.destsByFile_perm.symm),
    fun d hd => ⟨ri.destsByFile_perm.mem_iff.mp hd, hlast d (ri.destsByFile_perm.mem_iff.mp hd)⟩,
    hkeys, rfl, fun _ => rfl⟩
  have hmap : s.mapTable = Journal.undo t.mapTable ri.journal := by
    have hperm : Journal.undo t.mapTable (ri.destsByFile.map Reg.journal)
        = Journal.undo t.mapTable ri.journal :=
      Journal.undo_perm hkeys (ri.destsByFile_perm.map Reg.journal)
    rw [← hperm, ← hundo]
    rfl
  refine ⟨s, hs, ⟨hbal, ?_, ?_, ?_⟩, hsb⟩
  · show Journal.Chain _ _ s.mapTable
    rw [hmap]
    exact hchain.undo_last
  · intro older j younger hsplit
    have hsplit' : h ++ q = older ++ j :: younger := hsplit
    refine H.wellRenamed older j (younger ++ [ri]) ?_
    rw [hq, ← List.append_assoc, hsplit']
    simp
  · have hfresh := H.fresh
    rw [hq] at hfresh
    exact (List.pairwise_append.mp hfresh).1

theorem flushWalk_spec (c : FlushingCriteria) :
    ∀ (rq : List RenamedInst) {t : RenameTables}, TablesInv p x0 h t →
      t.instQueue = rq.reverse →
      ∃ t', flushWalk c rq t = .ok t' ∧ TablesInv p x0 h t' ∧
        t'.instQueue = (rq.dropWhile fun ri => c.includedInFlush ri.inst).reverse ∧
        ∀ f, (t'.regfileComponents f).scoreboard = (t.regfileComponents f).scoreboard
  | [], t, H, hq => ⟨t, rfl, H, hq, fun _ => rfl⟩
  | ri :: older, t, H, hq => by
    unfold flushWalk
    by_cases hinc : c.includedInFlush ri.inst = true
    · obtain ⟨s, hs, Hs, hsb⟩ := H.restore_spec (hq.trans List.reverse_cons)
      obtain ⟨t', ht', H', hq', hsb'⟩ := flushWalk_spec c older Hs rfl
      refine ⟨t', ?_, H', ?_, fun f => (hsb' f).trans (hsb f)⟩
      · rw [if_pos hinc, Run.bind_eq_ok]
        exact ⟨s, hs, ht'⟩
      · rw [hq', List.dropWhile_cons, if_pos hinc]
    · refine ⟨t, if_neg hinc, H, ?_, fun _ => rfl⟩
      rw [hq, List.dropWhile_cons, if_neg hinc]

/-- A flush succeeds and removes the longest suffix of `inst_queue_` it includes. -/
theorem flushTables_spec (H : TablesInv p x0 h t) (c : FlushingCriteria) :
    ∃ t', flushTables c t = .ok t' ∧ TablesInv p x0 h t' ∧
      t'.instQueue = t.instQueue.rdropWhile (fun ri => c.includedInFlush ri.inst) ∧
      ∀ f, (t'.regfileComponents f).scoreboard = (t.regfileComponents f).scoreboard :=
  flushWalk_spec c t.instQueue.reverse H (by simp)

end TablesInv

end Olympia
