import Olympia.Rename.Runs

/-!
# The registers that Rename asks for

Before it renames, Rename compares the free lists with `uop_queue_regcount_data_`: the
destinations of the first instruction of `uop_queue_` with partial rename, and of the whole queue
without.  The count is cached, and taken again when instructions arrive and, with partial rename,
after each instruction that is renamed.  `CountsExact` says that it is right whenever there is
something in the queue.

An instruction takes at most one register from the free list for each destination, so after the
test the free lists last (`renameInst_ok`).  With partial rename the loop makes the test for each
instruction; without, it relies on the one made for the whole queue.
-/

namespace Olympia

/-- How many registers of a file the admission test asks for. -/
def neededRegs (p : RenameParams) (uops : List Inst) (f : RegFile) : ℕ :=
  ((if p.partialRename then uops.take 1 else uops).map fun i => countDests i f).sum

variable {p : RenameParams} {x0 : ℕ} {h : List RenamedInst}

/-- The cached count is that of the queue, unless this is empty. -/
def CountsExact (p : RenameParams) (s : RenameState) : Prop :=
  s.uopQueue ≠ [] → ∀ f, s.regCounts f = neededRegs p s.uopQueue f

/-- The test passes when no free list is shorter than the count. -/
theorem enoughRenames_iff {s : RenameState} : (enoughRenames s).1 = true ↔
    ∀ f, s.regCounts f ≤ (s.regfileComponents f).freelist.length := by
  unfold enoughRenames
  split
  · rename_i f hfind
    have hlt : (s.regfileComponents f).freelist.length < s.regCounts f := by
      simpa using List.find?_some hfind
    simp only [Bool.false_eq_true, false_iff, not_forall, not_le]
    exact ⟨f, hlt⟩
  · rename_i hnone
    simp only [true_iff]
    intro f
    simpa using List.find?_eq_none.mp hnone f (RegFile.mem_all f)

/-! ## One instruction -/

/-- The destination needs a rename in the register file. -/
def OpInfo.needs (o : OpInfo) (f : RegFile) : Bool := !o.isX0 && o.regFile == f

/-- A free list has a register for a destination that needs one. -/
theorem renameDest_ok {t₀ t : RenameTables} {ri₀ ri : RenamedInst} {o : OpInfo}
    {rest : List OpInfo} (D : DestsInv p t₀ ri₀ (o :: rest) t ri)
    (hfree : o.isX0 = false → (t.regfileComponents o.regFile).freelist ≠ []) :
    ∃ st, renameDest p (t, ri) o = .ok st := by
  unfold renameDest
  dsimp only
  split
  · exact ⟨_, rfl⟩
  · rename_i hx0
    split
    · rename_i hnil
      exact absurd hnil (hfree (by simpa using hx0))
    · rename_i front tail hcons
      split
      · rename_i src hsrc
        have hprf : src.physReg ≠ noPrevDest := by
          have hmem : src ∈ ri.src ∧ src.opInfo.regFile = o.regFile := by
            unfold moveSource at hsrc
            split at hsrc
            · obtain ⟨hmem, hfile⟩ := List.mem_filter.mp (List.mem_of_mem_head? hsrc)
              exact ⟨hmem, of_decide_eq_true hfile⟩
            · cases hsrc
          rw [D.frame] at hmem
          exact ne_noPrevDest_of_mem_prfs ((D.balanced _).refs_mem _ (D.live src hmem.1))
        rw [if_neg hprf]
        exact ⟨_, rfl⟩
      · have hprf : front ≠ noPrevDest := by
          refine ne_noPrevDest_of_mem_prfs ((D.balanced o.regFile).free_mem front ?_)
          show front ∈ (t.regfileComponents o.regFile).freelist
          rw [hcons]
          exact List.mem_cons_self
        rw [if_neg hprf]
        exact ⟨_, rfl⟩

/-- It takes at most one register, from its own register file. -/
theorem renameDest_freelist {t t' : RenameTables} {ri ri' : RenamedInst} {o : OpInfo}
    (hren : renameDest p (t, ri) o = .ok (t', ri')) (f : RegFile) :
    (t.regfileComponents f).freelist.length ≤
      (t'.regfileComponents f).freelist.length + if o.needs f then 1 else 0 := by
  rcases renameDest_cases hren with
    ⟨-, rfl, -⟩ | ⟨-, r, -, rfl, -⟩ | ⟨hx0, front, rest, -, hfree, rfl, -⟩
  · exact Nat.le_add_right _ _
  · refine Nat.le_add_right_of_le ?_
    by_cases hf : f = o.regFile
    · subst hf
      simp [RegfileComponents.reference]
    · simp [Function.update_of_ne hf]
  · by_cases hf : f = o.regFile
    · subst hf
      simp [RegfileComponents.reference, hfree, OpInfo.needs, hx0]
    · refine Nat.le_add_right_of_le ?_
      simp [Function.update_of_ne hf]

/-- All destinations can be renamed when the free lists have as many registers as they need. -/
theorem renameDests_ok {t₀ : RenameTables} {ri₀ : RenamedInst} :
    ∀ (dests : List OpInfo) {t : RenameTables} {ri : RenamedInst},
      DestsInv p t₀ ri₀ dests t ri →
      (∀ f, dests.countP (OpInfo.needs · f) ≤ (t.regfileComponents f).freelist.length) →
      ∃ st, dests.foldlM (renameDest p) (t, ri) = .ok st ∧ ∀ f,
        (t.regfileComponents f).freelist.length ≤
          (st.1.regfileComponents f).freelist.length + dests.countP (OpInfo.needs · f)
  | [], t, ri, _, _ => ⟨(t, ri), rfl, fun f => Nat.le_add_right _ _⟩
  | o :: dests, t, ri, D, henough => by
    have hfree : o.isX0 = false → (t.regfileComponents o.regFile).freelist ≠ [] := by
      intro hx0 hnil
      have hpos := henough o.regFile
      rw [List.countP_cons_of_pos (by simp [OpInfo.needs, hx0]), hnil] at hpos
      cases hpos
    obtain ⟨⟨t₁, ri₁⟩, hdest⟩ := renameDest_ok D hfree
    have hlen := renameDest_freelist hdest
    have hcount : ∀ f, (o :: dests).countP (OpInfo.needs · f) =
        dests.countP (OpInfo.needs · f) + if o.needs f then 1 else 0 := fun f => by
      rw [List.countP_cons]
    obtain ⟨st, hst, hfinal⟩ := renameDests_ok dests (D.step hdest) fun f => by
      have hl := hlen f
      have he := henough f
      rw [hcount] at he
      omega
    refine ⟨st, ?_, fun f => ?_⟩
    · rw [List.foldlM_cons, hdest]
      exact hst
    · have hl := hlen f
      have hf := hfinal f
      rw [hcount]
      omega

/-- Renaming an instruction succeeds when the free lists have a register for each destination, and
takes no more than that. -/
theorem renameInst_ok {t : RenameTables} {i : Inst} (H : TablesInv p x0 h t)
    (henough : ∀ f, countDests i f ≤ (t.regfileComponents f).freelist.length) :
    ∃ t' ri, renameInst p t i = .ok (t', ri) ∧ ∀ f,
      (t.regfileComponents f).freelist.length ≤
        (t'.regfileComponents f).freelist.length + countDests i f := by
  obtain ⟨⟨t₁, ri⟩, hdests, hlen⟩ := renameDests_ok i.dests (H.renameInst_start i) henough
  refine ⟨{ t₁ with instQueue := t₁.instQueue ++ [ri] }, ri, ?_, hlen⟩
  unfold renameInst renameDests
  rw [(renameSources_recorded t i).2, hdests]
  rfl

/-! ## The loop -/

/-- The state of the loop behind one instruction. -/
def renameNext (p : RenameParams) (s : RenameState) (t : RenameTables) (rest : List Inst) :
    RenameState :=
  let s := { s with toRenameTables := t, uopQueue := rest }
  if p.partialRename ∧ rest ≠ [] then updateRegcountData p s else s

/-- The states in which the loop comes to an instruction. -/
def loopStates (p : RenameParams) : ℕ → RenameState → List RenameState
  | 0, _ => []
  | n + 1, s =>
    s :: match s.uopQueue with
      | [] => []
      | i :: rest =>
        if p.partialRename ∧ (enoughRenames s).1 = false then []
        else
          match renameInst p s.toRenameTables i with
          | .error _ => []
          | .ok (t, _) => loopStates p n (renameNext p s t rest)

variable {s s' : RenameState}

@[simp] theorem renameNext_toRenameTables (t : RenameTables) (rest : List Inst) :
    (renameNext p s t rest).toRenameTables = t := by
  unfold renameNext
  dsimp only
  split <;> rfl

@[simp] theorem renameNext_uopQueue (t : RenameTables) (rest : List Inst) :
    (renameNext p s t rest).uopQueue = rest := by
  unfold renameNext
  dsimp only
  split <;> rfl

/-- The loop goes on with the next instruction when the test passes, or is not made. -/
theorem renameLoop_cons {n : ℕ} {i : Inst} {rest : List Inst} {t : RenameTables}
    {ri : RenamedInst} {insts : List RenamedInst} (huop : s.uopQueue = i :: rest)
    (hgo : ¬(p.partialRename = true ∧ (enoughRenames s).1 = false))
    (hren : renameInst p s.toRenameTables i = .ok (t, ri)) :
    renameLoop p (n + 1) s insts = renameLoop p n (renameNext p s t rest) (insts ++ [ri]) := by
  rw [renameLoop, huop]
  dsimp only
  rw [if_neg hgo, hren]
  rfl

/-- With partial rename the count is taken again for the next instruction. -/
theorem countsExact_renameNext (hpart : p.partialRename = true) (t : RenameTables)
    (rest : List Inst) : CountsExact p (renameNext p s t rest) := by
  intro hne f
  rw [renameNext_uopQueue] at hne ⊢
  unfold renameNext
  rw [if_pos ⟨hpart, hne⟩]
  rfl

/-- What is needed for the front is needed for the queue. -/
theorem countDests_le_neededRegs (p : RenameParams) (i : Inst) (rest : List Inst) (f : RegFile) :
    countDests i f ≤ neededRegs p (i :: rest) f := by
  unfold neededRegs
  split
  · simp
  · simp

/-- What the loop relies on: with partial rename the count is right, so that the test can be made
for each instruction, and without the test has passed for the whole queue. -/
structure Supplied (p : RenameParams) (s : RenameState) : Prop where
  partly : p.partialRename = true → CountsExact p s
  whole : p.partialRename = false →
    ∀ f, neededRegs p s.uopQueue f ≤ (s.regfileComponents f).freelist.length

theorem Supplied.enough {i : Inst} {rest : List Inst} (S : Supplied p s)
    (huop : s.uopQueue = i :: rest)
    (hgo : ¬(p.partialRename = true ∧ (enoughRenames s).1 = false)) (f : RegFile) :
    countDests i f ≤ (s.regfileComponents f).freelist.length := by
  have hne : s.uopQueue ≠ [] := by
    rw [huop]
    exact List.cons_ne_nil _ _
  refine (countDests_le_neededRegs p i rest f).trans ?_
  rw [← huop]
  cases hpart : p.partialRename with
  | false => exact S.whole hpart f
  | true =>
    have htest : (enoughRenames s).1 = true := by simpa [hpart] using hgo
    rw [← S.partly hpart hne f]
    exact enoughRenames_iff.mp htest f

theorem Supplied.next {i : Inst} {rest : List Inst} {t : RenameTables} (S : Supplied p s)
    (huop : s.uopQueue = i :: rest)
    (hlen : ∀ f, (s.regfileComponents f).freelist.length ≤
      (t.regfileComponents f).freelist.length + countDests i f) :
    Supplied p (renameNext p s t rest) where
  partly hpart := countsExact_renameNext hpart t rest
  whole hpart f := by
    have hsum : neededRegs p s.uopQueue f = countDests i f + neededRegs p rest f := by
      simp [neededRegs, hpart, huop]
    have hwhole := S.whole hpart f
    have hl := hlen f
    rw [renameNext_uopQueue, renameNext_toRenameTables]
    omega

/-- With enough in the queue, the loop succeeds. -/
theorem renameLoop_ok : ∀ (n : ℕ) {s : RenameState} (insts : List RenamedInst),
    TablesInv p x0 h s.toRenameTables → Supplied p s → n ≤ s.uopQueue.length →
    ∃ r, renameLoop p n s insts = .ok r
  | 0, s, insts, _, _, _ => ⟨_, rfl⟩
  | n + 1, s, insts, H, S, hn => by
    rcases huop : s.uopQueue with _ | ⟨i, rest⟩
    · rw [huop] at hn
      cases hn
    · by_cases hgo : p.partialRename = true ∧ (enoughRenames s).1 = false
      · rw [renameLoop, huop]
        dsimp only
        rw [if_pos hgo]
        exact ⟨_, rfl⟩
      · obtain ⟨t, ri, hren, hlen⟩ := renameInst_ok H (S.enough huop hgo)
        rw [renameLoop_cons huop hgo hren]
        apply renameLoop_ok n
        · rw [renameNext_toRenameTables]
          exact (H.renameInst_spec hren).1
        · exact S.next huop hlen
        · rw [renameNext_uopQueue]
          rw [huop] at hn
          exact Nat.le_of_succ_le_succ hn

/-- With partial rename, every state in which the loop makes its test has a right count, and if
the test fails there the loop ends with the tables and the queue of that state. -/
theorem loopStates_spec (hpart : p.partialRename = true) :
    ∀ (n : ℕ) {s : RenameState} (insts : List RenamedInst),
      CountsExact p s → n ≤ s.uopQueue.length → ∀ t ∈ loopStates p n s,
        t.uopQueue ≠ [] ∧ CountsExact p t ∧ ((enoughRenames t).1 = false →
          ∃ insts' left, renameLoop p n s insts =
            .ok ({ t with currentStall := (enoughRenames t).2 }, insts', left))
  | 0, s, insts, _, _, t, ht => by cases ht
  | n + 1, s, insts, hcount, hn, t, ht => by
    rcases huop : s.uopQueue with _ | ⟨i, rest⟩
    · rw [huop] at hn
      cases hn
    · have hne : s.uopQueue ≠ [] := by
        rw [huop]
        exact List.cons_ne_nil _ _
      unfold loopStates at ht
      rw [huop] at ht
      rcases List.mem_cons.mp ht with rfl | ht
      · refine ⟨hne, hcount, fun hfail => ⟨insts, n + 1, ?_⟩⟩
        rw [renameLoop, huop]
        dsimp only
        rw [if_pos ⟨hpart, hfail⟩]
      · dsimp only at ht
        split at ht
        · cases ht
        · rename_i hgo
          split at ht
          · cases ht
          · rename_i t₁ ri hren
            rw [renameLoop_cons huop hgo hren]
            refine loopStates_spec hpart n _ (countsExact_renameNext hpart t₁ rest) ?_ t ht
            rw [renameNext_uopQueue]
            rw [huop] at hn
            exact Nat.le_of_succ_le_succ hn

/-! ## Reachable states -/

/-- How many instructions a session renames at most. -/
def numToRename (p : RenameParams) (s : RenameState) : ℕ :=
  min s.creditsDispatch (min s.uopQueue.length p.numToRename)

/-- `have_dispatch_credits` of `scheduleRenaming_`. -/
def haveDispatchCredits (p : RenameParams) (s : RenameState) : Bool :=
  if p.partialRename then decide (0 < s.creditsDispatch)
  else decide (s.uopQueue.length ≤ s.creditsDispatch)

/-- The states in which `enoughRenames_` is evaluated, from `scheduleRenaming_` to the end of
`renameInstructions_`. -/
def RenameState.evaluations (p : RenameParams) (s : RenameState) : List RenameState :=
  if s.uopQueue ≠ [] ∧ haveDispatchCredits p s = true then
    s :: if p.partialRename = true ∧ (enoughRenames s).1 = true then
        loopStates p (numToRename p s) (scheduleRenaming p s).1
      else []
  else []

/-- `renameInstructions_` succeeds when its loop does and its assertions hold. -/
theorem renameInstructions_of_loop {s₁ : RenameState} {insts : List RenamedInst} {left : ℕ}
    (hpos : 0 < numToRename p s)
    (hloop : renameLoop p (numToRename p s) s [] = .ok (s₁, insts, left))
    (hclose : p.partialRename = false → left = 0 ∧ s₁.uopQueue = []) :
    ∃ s' out, renameInstructions p s = .ok (s', out) ∧ out.dispatchGroup = insts ∧
      s'.toRenameTables = s₁.toRenameTables ∧ s'.uopQueue = s₁.uopQueue := by
  unfold renameInstructions
  unfold numToRename at hpos hloop
  simp only [hpos, decide_true, spartaAssert, if_true, bind, Except.bind, hloop]
  split
  · rename_i hpart
    obtain ⟨rfl, hempty⟩ := hclose hpart
    simp only [hempty, decide_true, if_true]
    exact ⟨_, _, rfl, rfl, rfl, rfl⟩
  · exact ⟨_, _, rfl, rfl, rfl, rfl⟩

/-- The assertions of `renameInstructions_` around its loop. -/
def closingAssertions : List Assertion := [.nothingToRename, .notPartial, .uopQueueNotEmpty]

/-- A session whose loop succeeds can only fail at them. -/
theorem renameInstructions_closing {r : RenameState × List RenamedInst × ℕ}
    (hloop : renameLoop p (numToRename p s) s [] = .ok r) :
    Run.FailsIn (· ∈ closingAssertions) (renameInstructions p s) := by
  unfold renameInstructions
  refine .bind (spartaAssert_failsIn (by simp [closingAssertions])) fun _ => ?_
  refine .bind (.of_eq_ok hloop) fun st => ?_
  dsimp only
  split
  · refine .bind (spartaAssert_failsIn (by simp [closingAssertions])) fun _ => ?_
    exact .bind (spartaAssert_failsIn (by simp [closingAssertions])) fun _ => .ok _
  · exact .ok _

/-- What a session that succeeds has done is what its loop has. -/
theorem loop_of_renameInstructions {out : RenameOut}
    (hren : renameInstructions p s = .ok (s', out)) :
    ∃ s₁ left, renameLoop p (numToRename p s) s [] = .ok (s₁, out.dispatchGroup, left) ∧
      (p.partialRename = false → s₁.uopQueue = []) ∧
      s'.toRenameTables = s₁.toRenameTables ∧ s'.uopQueue = s₁.uopQueue ∧
      s'.regCounts = s₁.regCounts := by
  unfold renameInstructions at hren
  obtain ⟨-, -, hren⟩ := Run.bind_eq_ok.mp hren
  obtain ⟨⟨s₁, insts, left⟩, hloop, hren⟩ := Run.bind_eq_ok.mp hren
  dsimp only at hren
  split at hren
  · obtain ⟨-, -, hren⟩ := Run.bind_eq_ok.mp hren
    obtain ⟨u, hempty, hren⟩ := Run.bind_eq_ok.mp hren
    obtain ⟨rfl, rfl⟩ := Prod.mk.inj (Except.ok.inj hren)
    exact ⟨s₁, left, hloop, fun _ => of_decide_eq_true (spartaAssert_eq_ok.mp hempty), rfl, rfl,
      rfl⟩
  · rename_i hpart
    obtain ⟨rfl, rfl⟩ := Prod.mk.inj (Except.ok.inj hren)
    exact ⟨s₁, left, hloop, fun hnot => absurd hnot hpart, rfl, rfl, rfl⟩

/-- With partial rename the loop leaves a right count. -/
theorem renameLoop_countsExact (hpart : p.partialRename = true) :
    ∀ (n : ℕ) {s s' : RenameState} {insts insts' : List RenamedInst} {left : ℕ},
      CountsExact p s → renameLoop p n s insts = .ok (s', insts', left) → CountsExact p s'
  | 0, s, s', insts, insts', left, hcount, hloop => by
    obtain ⟨rfl, -, -⟩ : s = s' ∧ insts = insts' ∧ 0 = left := by
      simpa [renameLoop] using hloop
    exact hcount
  | n + 1, s, s', insts, insts', left, hcount, hloop => by
    rcases huop : s.uopQueue with _ | ⟨i, rest⟩
    · rw [renameLoop, huop] at hloop
      cases hloop
    · by_cases hgo : p.partialRename = true ∧ (enoughRenames s).1 = false
      · rw [renameLoop, huop] at hloop
        dsimp only at hloop
        rw [if_pos hgo] at hloop
        obtain ⟨rfl, -⟩ := Prod.mk.inj (Except.ok.inj hloop)
        intro hne f
        rw [← huop] at hne ⊢
        exact hcount hne f
      · rcases hren : renameInst p s.toRenameTables i with e | ⟨t, ri⟩
        · rw [renameLoop, huop] at hloop
          dsimp only at hloop
          rw [if_neg hgo, hren] at hloop
          cases hloop
        · rw [renameLoop_cons huop hgo hren] at hloop
          exact renameLoop_countsExact hpart n (countsExact_renameNext hpart t rest) hloop

/-- `scheduleRenaming_` schedules a session when there are instructions, credits and registers. -/
theorem scheduleRenaming_snd : (scheduleRenaming p s).2 = true ↔
    s.uopQueue ≠ [] ∧ haveDispatchCredits p s = true ∧ (enoughRenames s).1 = true := by
  have hcredits : (scheduleRenaming p s).2 =
      if s.uopQueue.length = 0 then false
      else if haveDispatchCredits p s then (enoughRenames s).1 else false := by
    unfold scheduleRenaming
    dsimp only
    split
    · rfl
    · unfold haveDispatchCredits
      split
      · exact apply_ite Prod.snd _ _ _
      · exact apply_ite Prod.snd _ _ _
  rw [hcredits]
  split
  · rename_i hzero
    simp [List.length_eq_zero_iff.mp hzero]
  · rename_i hne
    have hne : s.uopQueue ≠ [] := fun hnil => hne (by rw [hnil]; rfl)
    split
    · rename_i hcred
      simp [hne, hcred]
    · rename_i hcred
      simp [hcred]

/-- What a session that is scheduled relies on. -/
theorem supplied_of_scheduled (hcount : CountsExact p s) (hgo : (scheduleRenaming p s).2 = true) :
    Supplied p (scheduleRenaming p s).1 := by
  obtain ⟨stall, hsched⟩ := scheduleRenaming_fst (p := p) s
  obtain ⟨hne, -, henough⟩ := scheduleRenaming_snd.mp hgo
  rw [hsched]
  refine ⟨fun _ => hcount, fun _ f => ?_⟩
  show neededRegs p s.uopQueue f ≤ _
  rw [← hcount hne f]
  exact enoughRenames_iff.mp henough f

namespace RenameState

theorem countsExact_step {op : RenameOp} (hcount : CountsExact p s)
    (hstep : s.step p op = .ok s') : CountsExact p s' := by
  cases op with
  | decoded insts =>
    obtain ⟨-, -, hpush⟩ := Run.bind_eq_ok.mp hstep
    obtain rfl := Except.ok.inj hpush
    exact fun _ f => rfl
  | dispatchCredits credits =>
    obtain rfl := Except.ok.inj hstep
    exact hcount
  | rename =>
    obtain ⟨stall, hsched⟩ := scheduleRenaming_fst (p := p) s
    have hcount₁ : CountsExact p (scheduleRenaming p s).1 := by
      rw [hsched]
      exact hcount
    unfold step at hstep
    dsimp only at hstep
    split at hstep
    · obtain ⟨⟨s₁, out⟩, hren, hret⟩ := Run.bind_eq_ok.mp hstep
      obtain rfl := Except.ok.inj hret
      obtain ⟨s₂, left, hloop, hempty, -, huop, hregs⟩ := loop_of_renameInstructions hren
      intro hne f
      cases hpart : p.partialRename with
      | false =>
        rw [huop, hempty hpart] at hne
        exact absurd rfl hne
      | true =>
        rw [huop] at hne
        rw [hregs, huop]
        exact renameLoop_countsExact hpart _ hcount₁ hloop hne f
    · obtain rfl := Except.ok.inj hstep
      exact hcount₁
  | ack n =>
    obtain ⟨t, -, hret⟩ := Run.bind_eq_ok.mp hstep
    obtain rfl := Except.ok.inj hret
    exact hcount
  | flush c =>
    obtain ⟨⟨s₁, credits⟩, hflush, hret⟩ := Run.bind_eq_ok.mp hstep
    obtain ⟨t, -, hflush⟩ := Run.bind_eq_ok.mp hflush
    obtain ⟨rfl, -⟩ := Prod.mk.inj (Except.ok.inj hflush)
    obtain rfl := Except.ok.inj hret
    exact fun hne => absurd rfl hne

theorem reachable_countsExact (hs : Run.Reachable (step p) (init p x0) s) : CountsExact p s :=
  hs.invariant (fun hne => absurd rfl hne) fun _ _ _ hcount hstep => countsExact_step hcount hstep

/-- No step finds a free list empty. -/
theorem step_ne_freelistEmpty (H : TablesInv p x0 h s.toRenameTables) (hcount : CountsExact p s)
    (op : RenameOp) : s.step p op ≠ .error .freelistEmpty := by
  intro herr
  cases op with
  | decoded insts =>
    rcases Run.bind_eq_error.mp herr with herr | ⟨r, -, herr⟩
    · simp at herr
    · cases herr
  | dispatchCredits credits => cases herr
  | rename =>
    obtain ⟨stall, hsched⟩ := scheduleRenaming_fst (p := p) s
    unfold step at herr
    dsimp only at herr
    split at herr
    · rename_i hgo
      have H₁ : TablesInv p x0 h (scheduleRenaming p s).1.toRenameTables := by
        rw [hsched]
        exact H
      obtain ⟨r, hloop⟩ := renameLoop_ok (numToRename p (scheduleRenaming p s).1) [] H₁
        (supplied_of_scheduled hcount hgo) ((min_le_right _ _).trans (min_le_left _ _))
      rcases Run.bind_eq_error.mp herr with herr | ⟨st, -, herr⟩
      · exact (renameInstructions_closing hloop).ne (by simp [closingAssertions]) herr
      · cases herr
    · cases herr
  | ack n =>
    obtain ⟨t, ht, -⟩ := TablesInv.retireMany_spec (fun _ => .retired)
      (s.instQueue.take n) H (List.take_append_drop n _).symm fun _ _ => rfl
    rcases Run.bind_eq_error.mp herr with herr | ⟨r, -, herr⟩
    · rw [ht] at herr
      cases herr
    · cases herr
  | flush c =>
    obtain ⟨t, ht, -⟩ := H.flushTables_spec c
    rcases Run.bind_eq_error.mp herr with herr | ⟨r, -, herr⟩
    · rcases Run.bind_eq_error.mp herr with herr | ⟨r, -, herr⟩
      · rw [ht] at herr
        cases herr
      · cases herr
    · cases herr

/-- In each state in which `enoughRenames_` is evaluated the count is right, and if the test fails
there the session changes nothing more. -/
theorem evaluations_spec (hcount : CountsExact p s) {t : RenameState}
    (ht : t ∈ s.evaluations p) :
    t.uopQueue ≠ [] ∧ CountsExact p t ∧ ((enoughRenames t).1 = false →
      ∃ s', s.step p .rename = .ok s' ∧ s'.toRenameTables = t.toRenameTables ∧
        s'.uopQueue = t.uopQueue) := by
  obtain ⟨stall, hsched⟩ := scheduleRenaming_fst (p := p) s
  unfold evaluations at ht
  split at ht
  · rename_i hsome
    obtain ⟨hne, hcred⟩ := hsome
    rcases List.mem_cons.mp ht with rfl | ht
    · refine ⟨hne, hcount, fun hfail => ⟨(scheduleRenaming p t).1, ?_, ?_⟩⟩
      · have hnot : ¬(scheduleRenaming p t).2 = true := by
          rw [scheduleRenaming_snd, hfail]
          simp
        unfold step
        dsimp only
        rw [if_neg hnot]
      · rw [hsched]
        exact ⟨rfl, rfl⟩
    · split at ht
      · rename_i hgo
        obtain ⟨hpart, henough⟩ := hgo
        have hcount₁ : CountsExact p (scheduleRenaming p s).1 := by
          rw [hsched]
          exact hcount
        have hlen : numToRename p s ≤ (scheduleRenaming p s).1.uopQueue.length := by
          rw [hsched]
          exact (min_le_right _ _).trans (min_le_left _ _)
        obtain ⟨htne, htcount, hend⟩ := loopStates_spec hpart _ [] hcount₁ hlen t ht
        refine ⟨htne, htcount, fun hfail => ?_⟩
        obtain ⟨insts, left, hloop⟩ := hend hfail
        have hnum : numToRename p (scheduleRenaming p s).1 = numToRename p s := by
          rw [hsched]
          rfl
        have hpos : 0 < numToRename p s := by
          refine Nat.pos_of_ne_zero fun hzero => ?_
          rw [hzero] at ht
          cases ht
        obtain ⟨s', out, hren, -, htables, huop⟩ := renameInstructions_of_loop
          (by rw [hnum]; exact hpos) (by rw [hnum]; exact hloop) fun hnot => by
            rw [hpart] at hnot
            cases hnot
        refine ⟨s', ?_, htables, huop⟩
        unfold step
        dsimp only
        rw [if_pos (scheduleRenaming_snd.mpr ⟨hne, hcred, henough⟩), hren]
        rfl
      · cases ht
  · cases ht

end RenameState

/-- Rename never runs out of registers in the middle: in a reachable state no step finds the free
list of a destination empty.  Whenever `enoughRenames_` is evaluated there is an instruction in the
queue and the count is the one of the first (partial rename) or of all (otherwise), and when it
fails, neither the tables nor the queue change any more. -/
theorem rename_never_runs_out (p : RenameParams) (x0 : ℕ) {s : RenameState}
    (hs : Run.Reachable (RenameState.step p) (RenameState.init p x0) s) :
    (∀ op, s.step p op ≠ .error .freelistEmpty) ∧
      ∀ t ∈ s.evaluations p, t.uopQueue ≠ [] ∧
        (∀ f, t.regCounts f = neededRegs p t.uopQueue f) ∧
        ((enoughRenames t).1 = false → ∃ s', s.step p .rename = .ok s' ∧
          s'.toRenameTables = t.toRenameTables ∧ s'.uopQueue = t.uopQueue) := by
  obtain ⟨h, H⟩ := RenameState.reachable_inv hs
  have hcount := RenameState.reachable_countsExact hs
  constructor
  · exact RenameState.step_ne_freelistEmpty H hcount
  · intro t ht
    obtain ⟨hne, hcountt, hfail⟩ := RenameState.evaluations_spec hcount ht
    exact ⟨hne, hcountt hne, hfail⟩

/-- Five instructions that write `x1`. -/
def fiveWriters : List Inst :=
  (List.range 5).map fun i => { uniqueId := i, dests := [⟨1, .rd, .integer⟩] }

/-- Each register file has three registers more than the map table uses at first. -/
def fewPrfs : RenameParams where
  numRenames := fun _ => 35
  numRenames_lt := fun _ => by decide

/-- Three are renamed, and the test fails for the fourth. -/
theorem rename_never_runs_out_sample :
    ∃ s, [RenameOp.decoded fiveWriters, .dispatchCredits 10].foldlM (RenameState.step fewPrfs)
        (RenameState.init fewPrfs 0) = .ok s ∧
      (s.evaluations fewPrfs).map (fun t => (t.uopQueue.length, (enoughRenames t).1)) =
        [(5, true), (5, true), (4, true), (3, true), (2, false)] ∧
      ∀ op, s.step fewPrfs op ≠ .error .freelistEmpty := by
  have heval : ([RenameOp.decoded fiveWriters, .dispatchCredits 10].foldlM
      (RenameState.step fewPrfs) (RenameState.init fewPrfs 0)).toOption.map
        (fun s => (s.evaluations fewPrfs).map fun t => (t.uopQueue.length, (enoughRenames t).1)) =
      some [(5, true), (5, true), (4, true), (3, true), (2, false)] := by decide +kernel
  obtain ⟨s, hs, hstates⟩ := Run.ok_of_eval heval
  exact ⟨s, hs, hstates, (rename_never_runs_out fewPrfs 0 ⟨_, hs⟩).1⟩

end Olympia
