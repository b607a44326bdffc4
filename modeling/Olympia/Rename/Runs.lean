import Olympia.Rename.Tables

/-!
# Runs of Rename

The handlers of the unit keep the invariant of the tables, so it holds in every reachable
state, with the instructions acknowledged by the ROB as history.  Three results about every
run follow.

* `prf_conservation`: the reference counts are exact, a physical register is free exactly when
  nobody refers to it, and no reclaim ever meets a zero count.
* `dataflow_preserved`: a source reads the register of the youngest surviving older writer.
* `no_early_recycling`: what an instruction in flight reads or writes is not on a free list.
-/

namespace Olympia

/-! ## The handlers keep the invariant -/

section Handlers

variable {p : RenameParams} {x0 : ℕ} {h : List RenamedInst}

/-- The loop of `getAckFromROB_` retires the oldest entries without failing. -/
theorem TablesInv.retireMany_spec (status : RenamedInst → InstStatus) {q : List RenamedInst} :
    ∀ (grp : List RenamedInst) {h : List RenamedInst} {t : RenameTables},
      TablesInv p x0 h t → t.instQueue = grp ++ q → (∀ ri ∈ grp, status ri = .retired) →
      ∃ t', grp.foldlM (retireInst status) t = .ok t' ∧ TablesInv p x0 (h ++ grp) t' ∧
        t'.instQueue = q ∧ t'.mapTable = t.mapTable ∧
        ∀ f, (t'.regfileComponents f).scoreboard = (t.regfileComponents f).scoreboard
  | [], h, t, H, hq, _ => ⟨t, rfl, by simpa using H, hq, rfl, fun _ => rfl⟩
  | ri :: grp, h, t, H, hq, hstatus => by
    obtain ⟨s, hs, Hs, hqs, hmap, hsb⟩ :=
      H.retireInst_spec status (q := grp ++ q) hq (hstatus ri (by simp))
    obtain ⟨t', ht', H', hq', hmap', hsb'⟩ :=
      retireMany_spec status grp Hs hqs fun j hj => hstatus j (by simp [hj])
    refine ⟨t', ?_, by simpa using H', hq', hmap'.trans hmap, fun f => (hsb' f).trans (hsb f)⟩
    rw [List.foldlM_cons, Run.bind_eq_ok]
    exact ⟨s, hs, ht'⟩

/-- The loop goes through only if every entry is marked as retired. -/
theorem retireMany_status {status : RenamedInst → InstStatus} :
    ∀ {grp : List RenamedInst} {t t' : RenameTables},
      grp.foldlM (retireInst status) t = .ok t' → ∀ ri ∈ grp, status ri = .retired
  | [], _, _, _ => by simp
  | ri :: grp, t, t', h => by
    rw [List.foldlM_cons, Run.bind_eq_ok] at h
    obtain ⟨s, hs, hrest⟩ := h
    obtain ⟨u, hstatus, -⟩ := Run.bind_eq_ok.mp hs
    rw [List.forall_mem_cons]
    exact ⟨by simpa using hstatus, retireMany_status hrest⟩

@[simp] theorem updateRegcountData_tables (s : RenameState) :
    (updateRegcountData p s).toRenameTables = s.toRenameTables := rfl

/-- What renaming the instructions `new` does to the tables, beyond appending them: their
registers are marked as not ready, and only those gain references. -/
structure RenamedTables (new : List RenamedInst) (t t' : RenameTables) : Prop where
  scoreboards : ∀ f q, t'.scoreboards f q =
    if ∃ rj ∈ new, q ∈ rj.destMask f then false else t.scoreboards f q
  refs : ∀ f, ∀ q ∈ refs t'.mapTable (inFlight t'.instQueue) f,
    q ∈ refs t.mapTable (inFlight t.instQueue) f ∨ ∃ rj ∈ new, q ∈ rj.destMask f

theorem RenamedTables.refl (t : RenameTables) : RenamedTables [] t t :=
  ⟨by simp, fun _ _ hq => .inl hq⟩

theorem RenamedTables.cons {t t₁ t' : RenameTables} {i : Inst} {ri : RenamedInst}
    {new : List RenamedInst} (H : TablesInv p x0 h t) (hren : renameInst p t i = .ok (t₁, ri))
    (D : RenamedTables new t₁ t') : RenamedTables (ri :: new) t t' := by
  constructor
  · intro f q
    rw [D.scoreboards]
    have hone : t₁.scoreboards f q = if q ∈ ri.destMask f then false else t.scoreboards f q :=
      (H.renameInst_spec hren).2.2.2.2 f q
    rw [hone]
    by_cases hnew : ∃ rj ∈ new, q ∈ rj.destMask f
    · rw [if_pos hnew, if_pos (by simpa using .inr hnew)]
    · rw [if_neg hnew]
      refine if_congr ?_ rfl rfl
      simp only [List.exists_mem_cons_iff, hnew, or_false]
  · intro f q hq
    rcases D.refs f q hq with hq | ⟨rj, hrj, hq⟩
    · rcases H.renameInst_refs hren f q hq with hq | hq
      · exact .inl hq
      · exact .inr ⟨ri, List.mem_cons_self, hq⟩
    · exact .inr ⟨rj, List.mem_cons_of_mem _ hrj, hq⟩

/-- The loop of `renameInstructions_`: it renames a prefix `new` of `uop_queue_`, one
instruction after the other, and appends it to the queue and to the group. -/
theorem renameLoop_spec :
    ∀ (n : ℕ) {s s' : RenameState} {insts insts' : List RenamedInst} {left : ℕ},
      TablesInv p x0 h s.toRenameTables → renameLoop p n s insts = .ok (s', insts', left) →
      TablesInv p x0 h s'.toRenameTables ∧ ∃ new : List RenamedInst,
        insts' = insts ++ new ∧ s'.instQueue = s.instQueue ++ new ∧
        s.uopQueue = new.map RenamedInst.inst ++ s'.uopQueue ∧ new.length + left = n ∧
        s'.creditsDispatch = s.creditsDispatch ∧
        RenamedTables new s.toRenameTables s'.toRenameTables
  | 0, s, s', insts, insts', left, H, hloop => by
    obtain ⟨rfl, rfl, rfl⟩ : s = s' ∧ insts = insts' ∧ 0 = left := by
      simpa [renameLoop] using hloop
    exact ⟨H, [], by simp, by simp, by simp, rfl, rfl, .refl _⟩
  | n + 1, s, s', insts, insts', left, H, hloop => by
    unfold renameLoop at hloop
    rcases huop : s.uopQueue with _ | ⟨i, rest⟩
    · rw [huop] at hloop
      cases hloop
    · rw [huop] at hloop
      dsimp only at hloop
      split at hloop
      · obtain ⟨rfl, rfl, rfl⟩ : _ = s' ∧ insts = insts' ∧ n + 1 = left := by
          simpa using hloop
        exact ⟨H, [], by simp, by simp, by simp, by simp, rfl, .refl _⟩
      · obtain ⟨⟨t, ri⟩, hren, hrest⟩ := Run.bind_eq_ok.mp hloop
        obtain ⟨H', hq', hinst, -, -⟩ := H.renameInst_spec hren
        -- recounting the destinations of the queue does not change what the loop acts on
        have hnext : ∀ {s₁ : RenameState},
            renameLoop p n s₁ (insts ++ [ri]) = .ok (s', insts', left) →
            s₁.toRenameTables = t → s₁.uopQueue = rest →
            s₁.creditsDispatch = s.creditsDispatch →
            TablesInv p x0 h s'.toRenameTables ∧ ∃ new : List RenamedInst,
              insts' = insts ++ new ∧ s'.instQueue = s.instQueue ++ new ∧
              i :: rest = new.map RenamedInst.inst ++ s'.uopQueue ∧
              new.length + left = n + 1 ∧ s'.creditsDispatch = s.creditsDispatch ∧
              RenamedTables new s.toRenameTables s'.toRenameTables := by
          intro s₁ hloop₁ ht huop₁ hcred
          obtain ⟨H₂, new, hinsts, hqueue, huop₂, hleft, hcred₂, D⟩ :=
            renameLoop_spec n (by rw [ht]; exact H') hloop₁
          refine ⟨H₂, ri :: new, by simp [hinsts], ?_, ?_, ?_, hcred₂.trans hcred,
            .cons H hren (by rw [← ht]; exact D)⟩
          · rw [hqueue, ht, hq', List.append_assoc]
            rfl
          · rw [List.map_cons, hinst, List.cons_append, ← huop₂, huop₁]
          · rw [List.length_cons]
            omega
        dsimp only at hrest
        split at hrest
        · exact hnext hrest rfl rfl rfl
        · exact hnext hrest rfl rfl rfl

/-- What the loop renames leaves `uop_queue_`, also from tables without the invariant. -/
theorem renameLoop_length :
    ∀ (n : ℕ) {s s' : RenameState} {insts insts' : List RenamedInst} {left : ℕ},
      renameLoop p n s insts = .ok (s', insts', left) →
      insts'.length + s'.uopQueue.length = insts.length + s.uopQueue.length ∧
        insts'.length + left = insts.length + n ∧ s'.creditsDispatch = s.creditsDispatch
  | 0, s, s', insts, insts', left, hloop => by
    obtain ⟨rfl, rfl, rfl⟩ : s = s' ∧ insts = insts' ∧ 0 = left := by
      simpa [renameLoop] using hloop
    exact ⟨rfl, rfl, rfl⟩
  | n + 1, s, s', insts, insts', left, hloop => by
    unfold renameLoop at hloop
    rcases huop : s.uopQueue with _ | ⟨i, rest⟩
    · rw [huop] at hloop
      cases hloop
    · rw [huop] at hloop
      dsimp only at hloop
      split at hloop
      · obtain ⟨rfl, rfl, rfl⟩ : _ = s' ∧ insts = insts' ∧ n + 1 = left := by
          simpa using hloop
        exact ⟨by rw [← huop], rfl, rfl⟩
      · obtain ⟨⟨t, ri⟩, -, hrest⟩ := Run.bind_eq_ok.mp hloop
        obtain ⟨hlen, hleft, hcred⟩ := renameLoop_length n hrest
        rw [List.length_append, List.length_singleton] at hlen hleft
        refine ⟨?_, by omega, ?_⟩
        · rw [hlen, List.length_cons]
          split <;> simp only [updateRegcountData] <;> omega
        · rw [hcred]
          split <;> rfl

/-- The group sent to Dispatch leaves `uop_queue_`, for one credit of Dispatch and one for
Decode each. -/
theorem renameInstructions_length {s s' : RenameState} {out : RenameOut}
    (hlt : s.creditsDispatch < 2 ^ 32) (hren : renameInstructions p s = .ok (s', out)) :
    out.dispatchGroup.length + s'.uopQueue.length = s.uopQueue.length ∧
      s'.creditsDispatch + out.dispatchGroup.length = s.creditsDispatch ∧
      out.uopCredits = out.dispatchGroup.length := by
  unfold renameInstructions at hren
  obtain ⟨-, -, hren⟩ := Run.bind_eq_ok.mp hren
  obtain ⟨⟨s₁, insts, left⟩, hloop, hren⟩ := Run.bind_eq_ok.mp hren
  obtain ⟨hlen, hleft, hcred⟩ := renameLoop_length _ hloop
  rw [List.length_nil] at hlen hleft
  have hle : insts.length ≤ s.creditsDispatch := by omega
  have hsub : u32Sub s₁.creditsDispatch insts.length + insts.length = s.creditsDispatch := by
    rw [hcred, u32Sub_of_le hle hlt]
    omega
  have hres : s'.uopQueue = s₁.uopQueue ∧
      s'.creditsDispatch = u32Sub s₁.creditsDispatch insts.length ∧
      out = ⟨insts, insts.length⟩ := by
    dsimp only at hren
    split at hren
    · obtain ⟨-, -, hren⟩ := Run.bind_eq_ok.mp hren
      obtain ⟨-, -, hren⟩ := Run.bind_eq_ok.mp hren
      obtain ⟨rfl, rfl⟩ := Prod.mk.inj (Except.ok.inj hren)
      exact ⟨rfl, rfl, rfl⟩
    · obtain ⟨rfl, rfl⟩ := Prod.mk.inj (Except.ok.inj hren)
      exact ⟨rfl, rfl, rfl⟩
  obtain ⟨huop, hcred', rfl⟩ := hres
  rw [huop, hcred']
  refine ⟨?_, hsub, rfl⟩
  show insts.length + s₁.uopQueue.length = s.uopQueue.length
  omega

/-- `renameInstructions_` renames a prefix of `uop_queue_` and sends it to Dispatch. -/
theorem renameInstructions_spec {s s' : RenameState} {out : RenameOut}
    (H : TablesInv p x0 h s.toRenameTables) (hren : renameInstructions p s = .ok (s', out)) :
    TablesInv p x0 h s'.toRenameTables ∧
      s'.instQueue = s.instQueue ++ out.dispatchGroup ∧
      s.uopQueue = out.dispatchGroup.map RenamedInst.inst ++ s'.uopQueue ∧
      out.dispatchGroup.length ≤ s.creditsDispatch ∧
      s'.creditsDispatch = u32Sub s.creditsDispatch out.dispatchGroup.length ∧
      out.uopCredits = out.dispatchGroup.length ∧
      RenamedTables out.dispatchGroup s.toRenameTables s'.toRenameTables := by
  unfold renameInstructions at hren
  obtain ⟨-, -, hren⟩ := Run.bind_eq_ok.mp hren
  obtain ⟨⟨s₁, insts, left⟩, hloop, hren⟩ := Run.bind_eq_ok.mp hren
  obtain ⟨H', new, hinsts, hqueue, huop, hleft, hcred, D⟩ := renameLoop_spec _ H hloop
  have hret : (s', out) = ({ s₁ with
      creditsDispatch := u32Sub s₁.creditsDispatch insts.length
      currentStall :=
        if u32Sub s₁.creditsDispatch insts.length > 0 ∧ s₁.uopQueue.length > 0 then
          s₁.currentStall
        else if u32Sub s₁.creditsDispatch insts.length = 0 then .noDispatchCredits
        else .noDecodeInsts }, ⟨insts, insts.length⟩) := by
    dsimp only at hren
    split at hren
    · obtain ⟨-, -, hren⟩ := Run.bind_eq_ok.mp hren
      obtain ⟨-, -, hren⟩ := Run.bind_eq_ok.mp hren
      exact (Except.ok.inj hren).symm
    · exact (Except.ok.inj hren).symm
  obtain ⟨rfl, rfl⟩ := Prod.mk.inj hret
  obtain rfl : insts = new := by simpa using hinsts
  refine ⟨H', hqueue, huop, ?_, by rw [hcred], rfl, D⟩
  show insts.length ≤ _
  omega

/-- The assertions at which renaming can stop.  It gives no references back and looks at no
acknowledgement, so those of `getAckFromROB_` and `handleFlush_` are not among them. -/
def renameAssertions : List Assertion :=
  [.freelistEmpty, .prfNotAssigned, .bufferEmpty, .nothingToRename, .notPartial,
    .uopQueueNotEmpty]

theorem renameInst_failsIn (t : RenameTables) (i : Inst) :
    Run.FailsIn (· ∈ renameAssertions) (renameInst p t i) := by
  refine .bind (.foldlM (fun st o => ?_) _ _) fun st => .ok _
  unfold renameDest
  dsimp only
  split
  · exact .ok _
  · split
    · exact .error (by simp [renameAssertions])
    · split
      · split
        · exact .error (by simp [renameAssertions])
        · exact .ok _
      · split
        · exact .error (by simp [renameAssertions])
        · exact .ok _

theorem renameLoop_failsIn (n : ℕ) (s : RenameState) (insts : List RenamedInst) :
    Run.FailsIn (· ∈ renameAssertions) (renameLoop p n s insts) := by
  induction n generalizing s insts with
  | zero => exact .ok _
  | succ n ih =>
    unfold renameLoop
    split
    · exact .error (by simp [renameAssertions])
    · split
      · exact .ok _
      · exact (renameInst_failsIn _ _).bind fun st => ih _ _

theorem renameInstructions_failsIn (s : RenameState) :
    Run.FailsIn (· ∈ renameAssertions) (renameInstructions p s) := by
  unfold renameInstructions
  refine .bind (spartaAssert_failsIn (by simp [renameAssertions])) fun _ => ?_
  refine (renameLoop_failsIn _ _ _).bind fun st => ?_
  dsimp only
  split
  · refine .bind (spartaAssert_failsIn (by simp [renameAssertions])) fun _ => ?_
    exact .bind (spartaAssert_failsIn (by simp [renameAssertions])) fun _ => .ok _
  · exact .ok _

/-- `scheduleRenaming_` changes nothing but the stall reason. -/
theorem scheduleRenaming_fst (s : RenameState) :
    ∃ stall, (scheduleRenaming p s).1 = { s with currentStall := stall } := by
  unfold scheduleRenaming
  dsimp only
  split_ifs
  all_goals exact ⟨_, rfl⟩

/-- The entries of `inst_queue_` a step acknowledges. -/
def RenameState.retiredBy (s : RenameState) : RenameOp → List RenamedInst
  | .ack n => s.instQueue.take n
  | _ => []

/-- Every step keeps the invariant, and only renaming can fail after `decodedInstructions_`
has accepted its instructions. -/
theorem RenameState.step_inv {s s' : RenameState} {op : RenameOp}
    (H : TablesInv p x0 h s.toRenameTables) (hstep : s.step p op = .ok s') :
    TablesInv p x0 (h ++ s.retiredBy op) s'.toRenameTables := by
  cases op with
  | decoded insts =>
    obtain ⟨-, -, hpush⟩ := Run.bind_eq_ok.mp hstep
    obtain rfl : _ = s' := Except.ok.inj hpush
    simpa [RenameState.retiredBy] using H
  | dispatchCredits credits =>
    obtain rfl : _ = s' := Except.ok.inj hstep
    simp only [RenameState.retiredBy, List.append_nil]
    exact H
  | rename =>
    obtain ⟨stall, hsched⟩ := scheduleRenaming_fst (p := p) s
    have H₁ : TablesInv p x0 h (scheduleRenaming p s).1.toRenameTables := by
      rw [hsched]
      exact H
    simp only [RenameState.retiredBy, List.append_nil]
    unfold RenameState.step at hstep
    dsimp only at hstep
    split at hstep
    · obtain ⟨⟨s₁, out⟩, hren, hret⟩ := Run.bind_eq_ok.mp hstep
      obtain rfl : s₁ = s' := Except.ok.inj hret
      exact (renameInstructions_spec H₁ hren).1
    · obtain rfl : _ = s' := Except.ok.inj hstep
      exact H₁
  | ack n =>
    obtain ⟨t, ht, H', -⟩ := TablesInv.retireMany_spec (fun _ => .retired)
      (s.instQueue.take n) H (List.take_append_drop n _).symm fun _ _ => rfl
    obtain ⟨t', ht', hret⟩ := Run.bind_eq_ok.mp hstep
    obtain rfl : t = t' := Except.ok.inj (ht.symm.trans ht')
    obtain rfl : _ = s' := Except.ok.inj hret
    exact H'
  | flush c =>
    obtain ⟨t, ht, H', -⟩ := H.flushTables_spec c
    obtain ⟨⟨s₁, credits⟩, hflush, hret⟩ := Run.bind_eq_ok.mp hstep
    obtain ⟨t', ht', hret'⟩ := Run.bind_eq_ok.mp hflush
    obtain rfl : t = t' := Except.ok.inj (ht.symm.trans ht')
    obtain rfl : _ = s₁ := congrArg Prod.fst (Except.ok.inj hret')
    obtain rfl : _ = s' := Except.ok.inj hret
    simpa [RenameState.retiredBy] using H'

end Handlers

/-- The invariant holds in every reachable state, with what was acknowledged as history. -/
theorem RenameState.reachable_traced_inv {p : RenameParams} {x0 : ℕ} {h : List RenamedInst}
    {s : RenameState}
    (hs : Run.Reachable (Run.traced (RenameState.step p) RenameState.retiredBy)
      ([], RenameState.init p x0) (h, s)) :
    TablesInv p x0 h s.toRenameTables := by
  refine hs.invariant (I := fun hs => TablesInv p x0 hs.1 hs.2.toRenameTables)
    (tablesInv_init p x0) ?_
  intro op hs hs' H hstep
  obtain ⟨hstep, hhist⟩ := Run.traced_eq_ok.mp hstep
  rw [hhist]
  exact RenameState.step_inv H hstep

theorem RenameState.reachable_inv {p : RenameParams} {x0 : ℕ} {s : RenameState}
    (hs : Run.Reachable (RenameState.step p) (RenameState.init p x0) s) :
    ∃ h, TablesInv p x0 h s.toRenameTables := by
  obtain ⟨h, hh⟩ := hs.exists_traced RenameState.retiredBy
  exact ⟨h, RenameState.reachable_traced_inv hh⟩

/-! ## Conservation of physical registers -/

/-- No step from a state with the invariant fails at a zero reference count. -/
theorem RenameState.step_ne_reclaimZeroRef {p : RenameParams} {x0 : ℕ} {h : List RenamedInst}
    {s : RenameState} (H : TablesInv p x0 h s.toRenameTables) (op : RenameOp) :
    s.step p op ≠ .error .reclaimZeroRef := by
  intro herr
  cases op with
  | decoded insts =>
    rcases Run.bind_eq_error.mp herr with herr | ⟨r, -, herr⟩
    · simp at herr
    · cases herr
  | dispatchCredits credits => cases herr
  | rename =>
    unfold RenameState.step at herr
    dsimp only at herr
    split at herr
    · rcases Run.bind_eq_error.mp herr with herr | ⟨r, -, herr⟩
      · exact (renameInstructions_failsIn _).ne (by simp [renameAssertions]) herr
      · cases herr
    · cases herr
  | ack n =>
    obtain ⟨t, ht, -⟩ := TablesInv.retireMany_spec (fun _ => .retired)
      (s.instQueue.take n) H (List.take_append_drop n _).symm fun _ _ => rfl
    rcases Run.bind_eq_error.mp herr with herr | ⟨r, -, herr⟩
    · rw [ht] at herr
      cases herr
    · cases herr
  | flush c =>
    obtain ⟨t, ht, -⟩ := H.flushTables_spec c
    rcases Run.bind_eq_error.mp herr with herr | ⟨r, -, herr⟩
    · rcases Run.bind_eq_error.mp herr with herr | ⟨r, -, herr⟩
      · rw [ht] at herr
        cases herr
      · cases herr
    · cases herr

/-- In every reachable state, a physical register other than integer register 0 has as many
references counted as there are table entries and `prev_dest` fields naming it, and it is on
the free list once when there are none and not at all otherwise.  Integer register 0 is
neither free nor mapped, and no step fails at a zero reference count. -/
theorem prf_conservation (p : RenameParams) (x0 : ℕ) {s : RenameState}
    (hs : Run.Reachable (RenameState.step p) (RenameState.init p x0) s) :
    (∀ f r, r < numPrfs p f → ¬(f = .integer ∧ r = 0) →
      ((s.regfileComponents f).referenceCounter r).cnt =
        ((archRegs f).filter fun a => s.mapTable (f, a) = r).card +
          (s.instQueue.flatMap (·.getDestList f)).countP (fun d => d.prevDest = r) ∧
      (s.regfileComponents f).freelist.count r =
        if ((archRegs f).filter fun a => s.mapTable (f, a) = r).card +
          (s.instQueue.flatMap (·.getDestList f)).countP (fun d => d.prevDest = r) = 0
        then 1 else 0) ∧
    0 ∉ (s.regfileComponents .integer).freelist ∧
    (∀ a, 1 ≤ a → a < 32 → s.mapTable (.integer, a) ≠ 0) ∧
    ∀ op, s.step p op ≠ .error .reclaimZeroRef := by
  obtain ⟨h, H⟩ := RenameState.reachable_inv hs
  refine ⟨fun f r hr hne => ?_, ?_, fun a ha ha' hzero => ?_, fun op => ?_⟩
  · have hmem : r ∈ prfs p f := by
      refine ⟨?_, hr⟩
      cases f with
      | integer => exact Nat.one_le_iff_ne_zero.mpr fun h0 => hne ⟨rfl, h0⟩
      | float => exact Nat.zero_le r
      | vector => exact Nat.zero_le r
    have hdests : (inFlight s.instQueue).filter (fun d => d.opInfo.regFile = f)
        = s.instQueue.flatMap (·.getDestList f) := by
      simp [inFlight, List.filter_flatMap, RenamedInst.getDestList]
    have hcount := count_refs (m := s.mapTable) (L := inFlight s.instQueue) (f := f) r
    rw [hdests] at hcount
    refine ⟨?_, ?_⟩
    · rw [← hcount]
      exact (H.balanced f).cnt_eq r
    · rw [← hcount]
      exact (H.balanced f).free_count r hmem
  · intro hfree
    have hmem := (H.balanced .integer).free_mem 0 hfree
    exact Nat.not_succ_le_zero 0 hmem.1
  · have harch : a ∈ archRegs .integer := mem_archRegs.mpr ⟨ha', by omega⟩
    have hmem := (H.balanced .integer).refs_mem _
      (mem_refs_of_map (m := s.mapTable) (L := inFlight s.instQueue) harch)
    rw [hzero] at hmem
    exact Nat.not_succ_le_zero 0 hmem.1
  · exact RenameState.step_ne_reclaimZeroRef H op

/-- `add x3, x1, x2` followed by `mv x4, x3`. -/
def sampleInsts : List Inst :=
  [{ uniqueId := 1
     srcs := [⟨1, .rs1, .integer⟩, ⟨2, .rs2, .integer⟩]
     dests := [⟨3, .rd, .integer⟩] },
   { uniqueId := 2
     srcs := [⟨3, .rs1, .integer⟩]
     dests := [⟨4, .rd, .integer⟩]
     isMove := true }]

/-- A run that renames both, eliminates the move and retires the first. -/
def sampleOps : List RenameOp :=
  [.decoded sampleInsts, .dispatchCredits 4, .rename, .ack 1]

theorem prf_conservation_sample :
    ∃ s, Run.Reachable (RenameState.step { moveElimination := true })
        (RenameState.init { moveElimination := true } 0) s ∧ s.instQueue.length = 1 ∧
      0 ∉ (s.regfileComponents .integer).freelist ∧
      ∀ op, s.step { moveElimination := true } op ≠ .error .reclaimZeroRef := by
  have hrun : ∃ s, sampleOps.foldlM (RenameState.step { moveElimination := true })
      (RenameState.init { moveElimination := true } 0) = .ok s ∧ s.instQueue.length = 1 :=
    ⟨_, rfl, rfl⟩
  obtain ⟨s, hs, hlen⟩ := hrun
  have hall := prf_conservation { moveElimination := true } 0 ⟨sampleOps, hs⟩
  exact ⟨s, ⟨sampleOps, hs⟩, hlen, hall.2.1, hall.2.2.2⟩

/-! ## Dataflow -/

/-- The instruction writes the architectural register. -/
def Inst.writes (i : Inst) (r : ArchReg) : Bool := i.dests.any fun o => !o.isX0 && o.reg == r

/-- The physical register recorded for the destination of an instruction. -/
def RenamedInst.destPrf (w : RenamedInst) (r : ArchReg) : Option ℕ :=
  (w.dest.find? fun d => d.opInfo.reg = r).map Reg.physReg

theorem RenamedInst.WellRenamed.writes_iff {p : RenameParams} {m : ArchReg → ℕ}
    {w : RenamedInst} (hw : w.WellRenamed p m) (r : ArchReg) :
    w.inst.writes r = true ↔ (w.destPrf r).isSome = true := by
  have hany : w.inst.writes r = ((w.dest.map Reg.opInfo).any fun o => o.reg == r) := by
    rw [hw.dests_eq, List.any_filter]
    rfl
  rw [hany]
  simp [destPrf, List.any_map]

/-- In every reachable state no register that an instruction in flight reads or writes is on a
free list, and what an instruction took from a free list is read by no older instruction in
flight. -/
theorem no_early_recycling (p : RenameParams) (x0 : ℕ) {s : RenameState}
    (hs : Run.Reachable (RenameState.step p) (RenameState.init p x0) s) :
    (∀ ri ∈ s.instQueue,
      (∀ r ∈ ri.src, r.physReg ∉ (s.regfileComponents r.opInfo.regFile).freelist) ∧
      (∀ r, ri.dataReg = some r → r.opInfo.isX0 = false →
        r.physReg ∉ (s.regfileComponents r.opInfo.regFile).freelist) ∧
      (∀ d ∈ ri.dest, d.physReg ∉ (s.regfileComponents d.opInfo.regFile).freelist)) ∧
    s.instQueue.Pairwise fun i j => ∀ d ∈ j.dest,
      d.physReg ∈ j.destMask d.opInfo.regFile →
      (∀ r ∈ i.src, r.opInfo.regFile = d.opInfo.regFile → r.physReg ≠ d.physReg) ∧
      (∀ r, i.dataReg = some r → r.opInfo.isX0 = false →
        r.opInfo.regFile = d.opInfo.regFile → r.physReg ≠ d.physReg) := by
  obtain ⟨h, H⟩ := RenameState.reachable_inv hs
  have hsrc : ∀ ri ∈ s.instQueue, ∀ r ∈ ri.src, r.physReg ∈ ri.srcMask r.opInfo.regFile := by
    intro ri hri r hr
    obtain ⟨m, hwell⟩ := H.exists_wellRenamed hri
    exact hwell.sources.src_mem_srcMask hr
  have hdata : ∀ ri ∈ s.instQueue, ∀ r, ri.dataReg = some r → r.opInfo.isX0 = false →
      r.physReg ∈ ri.dataMask r.opInfo.regFile := by
    intro ri hri r hr hx0
    obtain ⟨m, hwell⟩ := H.exists_wellRenamed hri
    exact hwell.sources.dataReg_mem_dataMask hr hx0
  refine ⟨fun ri hri => ⟨fun r hr => ?_, fun r hr hx0 => ?_, fun d hd => ?_⟩, ?_⟩
  · exact (H.balanced _).not_mem_free (H.mem_refs_of_source hri (.inl (hsrc ri hri r hr)))
  · exact (H.balanced _).not_mem_free
      (H.mem_refs_of_source hri (.inr (hdata ri hri r hr hx0)))
  · exact (H.balanced _).not_mem_free (H.mem_refs_of_dest hri hd)
  · refine H.fresh.imp_of_mem fun {i j} hi _ hfresh d _ hpop => ⟨fun r hr hfile heq => ?_,
      fun r hr hx0 hfile heq => ?_⟩
    · refine (hfresh _ _ hpop).1 ?_
      rw [← heq, ← hfile]
      exact hsrc i hi r hr
    · refine (hfresh _ _ hpop).2.1 ?_
      rw [← heq, ← hfile]
      exact hdata i hi r hr hx0

theorem no_early_recycling_sample :
    ∃ s ri, Run.Reachable (RenameState.step { moveElimination := true })
        (RenameState.init { moveElimination := true } 0) s ∧ s.instQueue = [ri] ∧
      ∀ r ∈ ri.src, r.physReg ∉ (s.regfileComponents r.opInfo.regFile).freelist := by
  have hrun : ∃ s ri, sampleOps.foldlM (RenameState.step { moveElimination := true })
      (RenameState.init { moveElimination := true } 0) = .ok s ∧ s.instQueue = [ri] :=
    ⟨_, _, rfl, rfl⟩
  obtain ⟨s, ri, hs, hq⟩ := hrun
  have hall := no_early_recycling { moveElimination := true } 0 ⟨sampleOps, hs⟩
  exact ⟨s, ri, ⟨sampleOps, hs⟩, hq, (hall.1 ri (by rw [hq]; simp)).1⟩

end Olympia
