import Olympia.Rename.Runs

/-!
# A flush undoes renaming exactly

Renaming and retiring act on the tables one instruction at a time: `renameInstructions_`
renames the instructions of its group one after the other, and `getAckFromROB_` retires those
of its group in order.  `TableOp` are these single steps, and `RenameState.step_tables` says
that the unit does nothing else to its tables between two flushes.

`flush_undoes_renaming` compares two runs from a reachable state: one renames further
instructions, with retirements of older ones in between, and flushes them; the other only
retires.  The invariant determines the tables from the survivors, the counters and the free
registers from the tables and the queue, so it is enough that both runs end with the same
survivors.
-/

namespace Olympia

/-! ## Single steps on the tables -/

/-- Rename one instruction, or retire the oldest one in flight. -/
inductive TableOp where
  | rename (i : Inst)
  | retire

namespace TableOp

/-- The instructions a list of steps renames. -/
def renamed : List TableOp → List Inst
  | [] => []
  | rename i :: l => i :: renamed l
  | retire :: l => renamed l

/-- The retirements among the steps. -/
def retirements : List TableOp → List TableOp
  | [] => []
  | rename _ :: l => retirements l
  | retire :: l => retire :: retirements l

end TableOp

/-- One step.  Without an instruction in flight there is nothing to retire. -/
def RenameTables.step (p : RenameParams) (t : RenameTables) : TableOp →
    Except Assertion RenameTables
  | .rename i => do
    let (t, _) ← renameInst p t i
    return t
  | .retire => (t.instQueue.take 1).foldlM (retireInst fun _ => .retired) t

/-- The loop of `renameInstructions_` is a run of single renamings. -/
theorem renameLoop_tables {p : RenameParams} :
    ∀ (n : ℕ) {s s' : RenameState} {insts insts' : List RenamedInst} {left : ℕ},
      renameLoop p n s insts = .ok (s', insts', left) →
      ∃ l : List Inst, (l.map TableOp.rename).foldlM (RenameTables.step p) s.toRenameTables
        = .ok s'.toRenameTables
  | 0, s, s', insts, insts', left, hloop => by
    obtain ⟨rfl, -, -⟩ : s = s' ∧ insts = insts' ∧ 0 = left := by
      simpa [renameLoop] using hloop
    exact ⟨[], rfl⟩
  | n + 1, s, s', insts, insts', left, hloop => by
    unfold renameLoop at hloop
    split at hloop
    · cases hloop
    · rename_i i rest huop
      split at hloop
      · obtain ⟨rfl, -, -⟩ : _ = s' ∧ insts = insts' ∧ n + 1 = left := by
          simpa using hloop
        exact ⟨[], rfl⟩
      · obtain ⟨⟨t, ri⟩, hren, hrest⟩ := Run.bind_eq_ok.mp hloop
        obtain ⟨l, hl⟩ := renameLoop_tables n hrest
        refine ⟨i :: l, ?_⟩
        rw [List.map_cons, List.foldlM_cons, Run.bind_eq_ok]
        refine ⟨t, Run.bind_eq_ok.mpr ⟨_, hren, rfl⟩, ?_⟩
        rw [← hl]
        split <;> rfl

theorem renameInstructions_tables {p : RenameParams} {s s' : RenameState} {out : RenameOut}
    (hren : renameInstructions p s = .ok (s', out)) :
    ∃ l : List Inst, (l.map TableOp.rename).foldlM (RenameTables.step p) s.toRenameTables
      = .ok s'.toRenameTables := by
  unfold renameInstructions at hren
  obtain ⟨-, -, hren⟩ := Run.bind_eq_ok.mp hren
  obtain ⟨⟨s₁, insts, left⟩, hloop, hren⟩ := Run.bind_eq_ok.mp hren
  obtain ⟨l, hl⟩ := renameLoop_tables _ hloop
  have htables : s'.toRenameTables = s₁.toRenameTables := by
    dsimp only at hren
    split at hren
    · obtain ⟨-, -, hren⟩ := Run.bind_eq_ok.mp hren
      obtain ⟨-, -, hren⟩ := Run.bind_eq_ok.mp hren
      obtain rfl := congrArg Prod.fst (Except.ok.inj hren)
      rfl
    · obtain rfl := congrArg Prod.fst (Except.ok.inj hren)
      rfl
  exact ⟨l, by rw [htables, ← hl]⟩

/-- Retiring a group of the oldest entries is retiring the oldest entry again and again. -/
theorem TablesInv.retireMany_tables {p : RenameParams} {x0 : ℕ} {q : List RenamedInst} :
    ∀ (grp : List RenamedInst) {h : List RenamedInst} {t t' : RenameTables},
      TablesInv p x0 h t → t.instQueue = grp ++ q →
      grp.foldlM (retireInst fun _ => .retired) t = .ok t' →
      (List.replicate grp.length TableOp.retire).foldlM (RenameTables.step p) t = .ok t'
  | [], h, t, t', _, _, hrun => hrun
  | ri :: grp, h, t, t', H, hq, hrun => by
    obtain ⟨t₁, ht₁, H₁, hq₁, -⟩ := H.retireInst_spec (fun _ => .retired) (q := grp ++ q) hq rfl
    rw [List.foldlM_cons, ht₁] at hrun
    rw [List.length_cons, List.replicate_succ, List.foldlM_cons, Run.bind_eq_ok]
    refine ⟨t₁, ?_, retireMany_tables grp H₁ hq₁ hrun⟩
    simp [RenameTables.step, hq, ht₁]

/-- Between flushes the unit renames and retires single instructions, and nothing else
happens to its tables. -/
theorem RenameState.step_tables {p : RenameParams} {x0 : ℕ} {h : List RenamedInst}
    {s s' : RenameState} {op : RenameOp} (H : TablesInv p x0 h s.toRenameTables)
    (hop : ∀ c, op ≠ .flush c) (hstep : s.step p op = .ok s') :
    ∃ l : List TableOp, l.foldlM (RenameTables.step p) s.toRenameTables
      = .ok s'.toRenameTables := by
  cases op with
  | decoded insts =>
    obtain ⟨-, -, hpush⟩ := Run.bind_eq_ok.mp hstep
    obtain rfl : _ = s' := Except.ok.inj hpush
    exact ⟨[], rfl⟩
  | dispatchCredits credits =>
    obtain rfl : _ = s' := Except.ok.inj hstep
    exact ⟨[], rfl⟩
  | rename =>
    obtain ⟨stall, hsched⟩ := scheduleRenaming_fst (p := p) s
    have htables : (scheduleRenaming p s).1.toRenameTables = s.toRenameTables := by
      rw [hsched]
    unfold RenameState.step at hstep
    dsimp only at hstep
    split at hstep
    · obtain ⟨⟨s₁, out⟩, hren, hret⟩ := Run.bind_eq_ok.mp hstep
      obtain rfl : s₁ = s' := Except.ok.inj hret
      obtain ⟨l, hl⟩ := renameInstructions_tables hren
      exact ⟨l.map .rename, by rw [← htables, hl]⟩
    · obtain rfl : _ = s' := Except.ok.inj hstep
      exact ⟨[], by rw [htables]; rfl⟩
  | ack n =>
    obtain ⟨t, ht, hret⟩ := Run.bind_eq_ok.mp hstep
    obtain rfl : _ = s' := Except.ok.inj hret
    exact ⟨_, H.retireMany_tables (s.instQueue.take n) (List.take_append_drop n _).symm ht⟩
  | flush c => exact absurd rfl (hop c)

/-! ## Two runs with the same survivors -/

section Compare

variable {p : RenameParams} {x0 : ℕ}

/-- Tables with the same history and the same queue agree on everything but the order of the
free lists, the producers and the scoreboards. -/
theorem TablesInv.agree {h : List RenamedInst} {t t' : RenameTables}
    (H : TablesInv p x0 h t) (H' : TablesInv p x0 h t') (hq : t.instQueue = t'.instQueue) :
    t.mapTable = t'.mapTable ∧
      (∀ f r, ((t.regfileComponents f).referenceCounter r).cnt =
        ((t'.regfileComponents f).referenceCounter r).cnt) ∧
      ∀ f, (t.regfileComponents f).freelist.Perm (t'.regfileComponents f).freelist := by
  have hmap : t.mapTable = t'.mapTable := by
    rw [H.mapTable_eq, H'.mapTable_eq, hq]
  have hbal : Balanced p t' (inFlight t'.instQueue) := H'.balanced
  have hexact : ∀ f, Pool.Exact (prfs p f) (t'.regfileComponents f).pool
      (refs t.mapTable (inFlight t.instQueue) f) := by
    intro f
    rw [hmap, hq]
    exact H'.balanced f
  exact ⟨hmap, fun f r => (H.balanced f).cnt_eq_of_refs (hexact f) r,
    fun f => (H.balanced f).free_perm (hexact f)⟩

/-- Single steps keep the invariant. -/
theorem tables_run_inv :
    ∀ (l : List TableOp) {h : List RenamedInst} {t t' : RenameTables},
      TablesInv p x0 h t → l.foldlM (RenameTables.step p) t = .ok t' →
      ∃ h', TablesInv p x0 h' t'
  | [], h, t, t', H, hrun => by
    obtain rfl : t = t' := Except.ok.inj hrun
    exact ⟨h, H⟩
  | .rename i :: l, h, t, t', H, hrun => by
    rw [List.foldlM_cons] at hrun
    obtain ⟨t₁, hstep, hrest⟩ := Run.bind_eq_ok.mp hrun
    obtain ⟨⟨t₂, ri⟩, hren, hret⟩ := Run.bind_eq_ok.mp hstep
    obtain rfl : t₂ = t₁ := Except.ok.inj hret
    exact tables_run_inv l (H.renameInst_spec hren).1 hrest
  | .retire :: l, h, t, t', H, hrun => by
    rw [List.foldlM_cons] at hrun
    obtain ⟨t₁, hstep, hrest⟩ := Run.bind_eq_ok.mp hrun
    obtain ⟨t₂, ht₂, H₂, -⟩ := TablesInv.retireMany_spec (fun _ => .retired)
      (t.instQueue.take 1) H (List.take_append_drop 1 _).symm fun _ _ => rfl
    obtain rfl : t₂ = t₁ := Except.ok.inj (ht₂.symm.trans hstep)
    exact tables_run_inv l H₂ hrest

/-- Taking a suffix that satisfies a predicate away stops at a prefix that does not. -/
theorem rdropWhile_append_eq {α : Type*} {P : α → Bool} {front back : List α}
    (hback : ∀ a ∈ back, P a = true) (hfront : ∀ a ∈ front, P a = false) :
    (front ++ back).rdropWhile P = front := by
  unfold List.rdropWhile
  rw [List.reverse_append, List.dropWhile_append_of_pos (by simpa using hback)]
  rcases List.eq_nil_or_concat front with rfl | ⟨rest, a, rfl⟩
  · rfl
  · have ha : P a = false := hfront a (by simp)
    simp [ha]

/-- A run of single steps, and the same run without its renamings, started with the same
history and the second queue a prefix of the first: as long as only instructions of the
shorter queue retire, this stays so. -/
theorem run_without_renamings :
    ∀ (l : List TableOp) {h : List RenamedInst} {t t' u : RenameTables}
      {young : List RenamedInst},
      TablesInv p x0 h t → TablesInv p x0 h u → t.instQueue = u.instQueue ++ young →
      (TableOp.retirements l).length ≤ u.instQueue.length →
      l.foldlM (RenameTables.step p) t = .ok t' →
      ∃ h' u' young', (TableOp.retirements l).foldlM (RenameTables.step p) u = .ok u' ∧
        TablesInv p x0 h' t' ∧ TablesInv p x0 h' u' ∧
        t'.instQueue = u'.instQueue ++ young' ∧
        young'.map RenamedInst.inst = young.map RenamedInst.inst ++ TableOp.renamed l
  | [], h, t, t', u, young, H, Hu, hq, _, hrun => by
    obtain rfl : t = t' := Except.ok.inj hrun
    exact ⟨h, u, young, rfl, H, Hu, hq, by simp [TableOp.renamed]⟩
  | .rename i :: l, h, t, t', u, young, H, Hu, hq, hold, hrun => by
    rw [List.foldlM_cons] at hrun
    obtain ⟨t₁, hstep, hrest⟩ := Run.bind_eq_ok.mp hrun
    obtain ⟨⟨t₂, ri⟩, hren, hret⟩ := Run.bind_eq_ok.mp hstep
    obtain rfl : t₂ = t₁ := Except.ok.inj hret
    obtain ⟨H₂, hq₂, hinst, -⟩ := H.renameInst_spec hren
    obtain ⟨h', u', young', hu', H', Hu', hq', hyoung⟩ :=
      run_without_renamings l H₂ Hu (hq₂.trans (by rw [hq, List.append_assoc])) hold hrest
    exact ⟨h', u', young', hu', H', Hu', hq', by simp [hyoung, hinst, TableOp.renamed]⟩
  | .retire :: l, h, t, t', u, young, H, Hu, hq, hold, hrun => by
    rw [List.foldlM_cons] at hrun
    obtain ⟨t₁, hstep, hrest⟩ := Run.bind_eq_ok.mp hrun
    -- the shorter queue is not empty, so both runs retire its oldest entry
    obtain ⟨ri, q, hu⟩ : ∃ ri q, u.instQueue = ri :: q := by
      refine List.exists_cons_of_ne_nil fun hnil => ?_
      simp [TableOp.retirements, hnil] at hold
    have hretire : ∀ {t : RenameTables} {q : List RenamedInst}, TablesInv p x0 h t →
        t.instQueue = ri :: q → ∃ t', t.step p .retire = .ok t' ∧
          TablesInv p x0 (h ++ [ri]) t' ∧ t'.instQueue = q := by
      intro t q H hq
      obtain ⟨t', ht', H', hq', -⟩ := TablesInv.retireMany_spec (fun _ => .retired)
        [ri] (q := q) H hq fun _ _ => rfl
      refine ⟨t', ?_, H', hq'⟩
      rw [← ht']
      simp [RenameTables.step, hq]
    obtain ⟨t₂, ht₂, H₂, hq₂⟩ := hretire H (q := q ++ young) (by rw [hq, hu]; rfl)
    obtain ⟨u₂, hu₂, Hu₂, hqu₂⟩ := hretire Hu hu
    obtain rfl : t₂ = t₁ := Except.ok.inj (ht₂.symm.trans hstep)
    obtain ⟨h', u', young', hu', H', Hu', hq', hyoung⟩ :=
      run_without_renamings l H₂ Hu₂ (by rw [hq₂, hqu₂])
        (by simpa [TableOp.retirements, hu, hqu₂] using hold) hrest
    refine ⟨h', u', young', ?_, H', Hu', hq', hyoung⟩
    rw [TableOp.retirements, List.foldlM_cons, Run.bind_eq_ok]
    exact ⟨u₂, hu₂, hu'⟩

/-- From a reachable state, let the steps `l1` rename some instructions and the steps `l2` the
instructions `S2`, with retirements along the way, those of `l2` only of instructions older
than `S2`, and flush exactly `S2`.  The map table, the queue, every reference count and the
free registers are those of the run of `l1` and the retirements of `l2`, which never sees
`S2`. -/
theorem flush_undoes_renaming {s : RenameState}
    (hs : Run.Reachable (RenameState.step p) (RenameState.init p x0) s)
    {S2 : List Inst} {l1 l2 : List TableOp} (hS2 : TableOp.renamed l2 = S2)
    {t1 t2 : RenameTables}
    (h1 : l1.foldlM (RenameTables.step p) s.toRenameTables = .ok t1)
    (h2 : l2.foldlM (RenameTables.step p) t1 = .ok t2)
    (hold : (TableOp.retirements l2).length ≤ t1.instQueue.length)
    {c : FlushingCriteria} (hin : ∀ i ∈ S2, c.includedInFlush i = true)
    (hout : ∀ ri ∈ t2.instQueue.take (t2.instQueue.length - S2.length),
      c.includedInFlush ri.inst = false) :
    ∃ s' credits ref,
      handleFlush { s with toRenameTables := t2 } c = .ok (s', credits) ∧
      (l1 ++ TableOp.retirements l2).foldlM (RenameTables.step p) s.toRenameTables = .ok ref ∧
      s'.mapTable = ref.mapTable ∧ s'.instQueue = ref.instQueue ∧
      (∀ f r, ((s'.regfileComponents f).referenceCounter r).cnt =
        ((ref.regfileComponents f).referenceCounter r).cnt) ∧
      ∀ f, (s'.regfileComponents f).freelist.Perm (ref.regfileComponents f).freelist := by
  obtain ⟨h, H⟩ := RenameState.reachable_inv hs
  obtain ⟨h₁, H₁⟩ := tables_run_inv l1 H h1
  obtain ⟨h₂, ref, young, href, H₂, Href, hq, hyoung⟩ :=
    run_without_renamings l2 H₁ H₁ (List.append_nil _).symm hold h2
  have hyoung' : young.map RenamedInst.inst = S2 := by simpa [hS2] using hyoung
  have hlen : young.length = S2.length := by rw [← hyoung', List.length_map]
  -- the flush takes all of the young instructions and stops at the first older one
  have hdrop : t2.instQueue.rdropWhile (fun ri => c.includedInFlush ri.inst)
      = ref.instQueue := by
    have htake : t2.instQueue.take (t2.instQueue.length - S2.length) = ref.instQueue := by
      rw [hq, ← hlen]
      simp
    rw [htake] at hout
    rw [hq]
    refine rdropWhile_append_eq (fun ri hri => ?_) hout
    refine hin ri.inst ?_
    rw [← hyoung']
    exact List.mem_map_of_mem hri
  obtain ⟨t3, ht3, H₃, hq₃, -⟩ := H₂.flushTables_spec c
  rw [hdrop] at hq₃
  obtain ⟨hmap, hcnt, hfree⟩ := H₃.agree Href hq₃
  refine ⟨_, _, ref, Run.bind_eq_ok.mpr ⟨t3, ht3, rfl⟩, ?_, hmap, hq₃, hcnt, hfree⟩
  rw [List.foldlM_append, Run.bind_eq_ok]
  exact ⟨t1, h1, href⟩

end Compare

/-- Rename the sample, then a third instruction while the first retires, and flush the third. -/
theorem flush_undoes_renaming_sample :
    ∃ t1 t2 s' credits ref,
      [TableOp.rename { uniqueId := 3, dests := [⟨4, .rd, .integer⟩] }, .retire].foldlM
        (RenameTables.step { moveElimination := true }) t1 = .ok t2 ∧
      handleFlush
        { RenameState.init { moveElimination := true } 0 with toRenameTables := t2 }
        ⟨.misprediction, false, 2⟩ = .ok (s', credits) ∧
      (sampleInsts.map TableOp.rename ++ [TableOp.retire]).foldlM
        (RenameTables.step { moveElimination := true })
        (RenameState.init { moveElimination := true } 0).toRenameTables = .ok ref ∧
      s'.mapTable = ref.mapTable ∧ s'.instQueue = ref.instQueue := by
  have hrun : ∃ t1 t2,
      (sampleInsts.map TableOp.rename).foldlM (RenameTables.step { moveElimination := true })
        (RenameState.init { moveElimination := true } 0).toRenameTables = .ok t1 ∧
      [TableOp.rename { uniqueId := 3, dests := [⟨4, .rd, .integer⟩] }, .retire].foldlM
        (RenameTables.step { moveElimination := true }) t1 = .ok t2 ∧
      t1.instQueue.length = 2 ∧
      (t2.instQueue.take 1).map (fun ri => ri.inst.uniqueId) = [2] ∧ t2.instQueue.length = 2 :=
    ⟨_, _, rfl, rfl, rfl, rfl, rfl⟩
  obtain ⟨t1, t2, h1, h2, hlen1, hold2, hlen2⟩ := hrun
  obtain ⟨s', credits, ref, hflush, href, hmap, hq, -⟩ :=
    flush_undoes_renaming (p := { moveElimination := true })
      (Run.Reachable.refl _ (RenameState.init { moveElimination := true } 0))
      (c := ⟨.misprediction, false, 2⟩) rfl h1 h2
      (by rw [hlen1]; decide) (by decide)
      (by
        intro ri hri
        have hid : ri.inst.uniqueId ∈
            (t2.instQueue.take 1).map (fun ri => ri.inst.uniqueId) := by
          rw [hlen2] at hri
          exact List.mem_map_of_mem hri
        rw [hold2, List.mem_singleton] at hid
        simp [FlushingCriteria.includedInFlush, FlushingCriteria.includesId, hid])
  exact ⟨t1, t2, s', credits, ref, h2, hflush, href, hmap, hq⟩

end Olympia
