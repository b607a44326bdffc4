import Olympia.Rename.Counts

/-!
# Renaming without `partial_rename`

Without partial rename `scheduleRenaming_` asks for the credits and the registers of all of
`uop_queue_`, and `renameInstructions_` asserts that it has renamed all of it.  But its loop
renames no more than `num_to_rename` instructions, and while Rename waits for credits the queue can
collect more than one group of Decode.  `AllOrNothing` is what the assertions ask for, and holds in
a reachable state exactly when a session is scheduled only for a queue that is short enough.
-/

namespace Olympia

variable {p : RenameParams} {x0 : ℕ} {h : List RenamedInst} {s s' : RenameState}

/-- A session that is scheduled renames the whole queue; with no session nothing is renamed. -/
structure AllOrNothing (p : RenameParams) (s : RenameState) : Prop where
  all : (scheduleRenaming p s).2 = true → ∃ s' out,
    renameInstructions p (scheduleRenaming p s).1 = .ok (s', out) ∧ s'.uopQueue = [] ∧
      out.dispatchGroup.map RenamedInst.inst = s.uopQueue
  nothing : (scheduleRenaming p s).2 = false → ∃ s', s.step p .rename = .ok s' ∧
    s'.toRenameTables = s.toRenameTables ∧ s'.uopQueue = s.uopQueue

/-- Without partial rename the loop does not stop early. -/
theorem renameLoop_left (hpart : p.partialRename = false) :
    ∀ (n : ℕ) {s s' : RenameState} {insts insts' : List RenamedInst} {left : ℕ},
      renameLoop p n s insts = .ok (s', insts', left) → left = 0
  | 0, s, s', insts, insts', left, hloop => by
    obtain ⟨-, -, rfl⟩ : s = s' ∧ insts = insts' ∧ 0 = left := by
      simpa [renameLoop] using hloop
    rfl
  | n + 1, s, s', insts, insts', left, hloop => by
    have hgo : ¬(p.partialRename = true ∧ (enoughRenames s).1 = false) := by simp [hpart]
    rcases huop : s.uopQueue with _ | ⟨i, rest⟩
    · rw [renameLoop, huop] at hloop
      cases hloop
    · rcases hren : renameInst p s.toRenameTables i with e | ⟨t, ri⟩
      · rw [renameLoop, huop] at hloop
        dsimp only at hloop
        rw [if_neg hgo, hren] at hloop
        cases hloop
      · rw [renameLoop_cons huop hgo hren] at hloop
        exact renameLoop_left hpart n hloop

/-- A queue that is short enough is renamed whole. -/
theorem renameInstructions_whole (hpart : p.partialRename = false)
    (H : TablesInv p x0 h s.toRenameTables) (S : Supplied p s) (hne : s.uopQueue ≠ [])
    (hcred : s.uopQueue.length ≤ s.creditsDispatch) (hlen : s.uopQueue.length ≤ p.numToRename) :
    ∃ s' out, renameInstructions p s = .ok (s', out) ∧ s'.uopQueue = [] ∧
      out.dispatchGroup.map RenamedInst.inst = s.uopQueue := by
  have hnum : numToRename p s = s.uopQueue.length := by
    unfold numToRename
    omega
  obtain ⟨⟨s₁, insts, left⟩, hloop⟩ := renameLoop_ok (numToRename p s) [] H S hnum.le
  obtain ⟨-, new, hinsts, -, huop, hleft, -⟩ := renameLoop_spec _ H hloop
  obtain rfl : insts = new := by simpa using hinsts
  have hzero := renameLoop_left hpart _ hloop
  have hempty : s₁.uopQueue = [] := by
    have hsum := congrArg List.length huop
    rw [List.length_append, List.length_map] at hsum
    exact List.eq_nil_of_length_eq_zero (by omega)
  have hpos : 0 < numToRename p s := by
    rw [hnum]
    exact List.length_pos_of_ne_nil hne
  obtain ⟨s', out, hren, hgroup, -, huop'⟩ := renameInstructions_of_loop hpos hloop
    fun _ => ⟨hzero, hempty⟩
  refine ⟨s', out, hren, huop'.trans hempty, ?_⟩
  rw [hgroup, huop, hempty, List.append_nil]

/-- No session renames more than `num_to_rename` instructions. -/
theorem dispatchGroup_length_le {out : RenameOut} (hren : renameInstructions p s = .ok (s', out)) :
    out.dispatchGroup.length ≤ p.numToRename := by
  obtain ⟨s₁, left, hloop, -⟩ := loop_of_renameInstructions hren
  obtain ⟨-, hleft, -⟩ := renameLoop_length _ hloop
  have hle : numToRename p s ≤ p.numToRename := (min_le_right _ _).trans (min_le_right _ _)
  rw [List.length_nil] at hleft
  omega

/-- Without partial rename, in every reachable state a session renames the whole queue and leaves
it empty, or nothing is renamed, exactly when a session is scheduled only for a queue of at most
`num_to_rename` instructions. -/
theorem whole_rename_iff (p : RenameParams) (x0 : ℕ) (hpart : p.partialRename = false)
    {s : RenameState} (hs : Run.Reachable (RenameState.step p) (RenameState.init p x0) s) :
    AllOrNothing p s ↔
      ((scheduleRenaming p s).2 = true → s.uopQueue.length ≤ p.numToRename) := by
  obtain ⟨h, H⟩ := RenameState.reachable_inv hs
  obtain ⟨stall, hsched⟩ := scheduleRenaming_fst (p := p) s
  constructor
  · intro A hgo
    obtain ⟨s', out, hren, -, hgroup⟩ := A.all hgo
    rw [← hgroup, List.length_map]
    exact dispatchGroup_length_le hren
  · intro hshort
    constructor
    · intro hgo
      obtain ⟨hne, hcred, -⟩ := scheduleRenaming_snd.mp hgo
      have hcred : s.uopQueue.length ≤ s.creditsDispatch := by
        simpa [haveDispatchCredits, hpart] using hcred
      have S := supplied_of_scheduled (RenameState.reachable_countsExact hs) hgo
      rw [hsched] at S ⊢
      exact renameInstructions_whole hpart H S hne hcred (hshort hgo)
    · intro hno
      refine ⟨(scheduleRenaming p s).1, ?_, ?_, ?_⟩
      · unfold RenameState.step
        dsimp only
        rw [hno]
        rfl
      · rw [hsched]
      · rw [hsched]

/-- The default parameters, without partial rename. -/
def wholeRename : RenameParams := { partialRename := false }

/-- `n` instructions from `i` on. -/
def instsFrom (i n : ℕ) : List Inst := (List.range' i n).map fun k => { uniqueId := k }

/-- Seven instructions are dispatched, and two groups of four wait for the credits of those; six
come back. -/
def twoGroupsOps : List RenameOp :=
  [.dispatchCredits 10, .decoded (instsFrom 0 4), .rename, .decoded (instsFrom 4 3), .rename,
    .decoded (instsFrom 7 4), .rename, .decoded (instsFrom 11 4), .rename, .dispatchCredits 3,
    .rename, .dispatchCredits 3]

/-- Then a session is scheduled for all eight, and fails after four. -/
theorem two_groups_not_renamed :
    ∃ s, Run.Reachable (RenameState.step wholeRename) (RenameState.init wholeRename 0) s ∧
      s.uopQueue.length = 8 ∧ s.step wholeRename .rename = .error .uopQueueNotEmpty ∧
      ¬AllOrNothing wholeRename s := by
  have heval : (twoGroupsOps.foldlM (RenameState.step wholeRename)
      (RenameState.init wholeRename 0)).toOption.map (fun s => (s.uopQueue.length,
        (scheduleRenaming wholeRename s).2, match s.step wholeRename .rename with
          | .error a => some a
          | .ok _ => none)) = some (8, true, some .uopQueueNotEmpty) := by decide +kernel
  obtain ⟨s, hs, heval⟩ := Run.ok_of_eval heval
  obtain ⟨hlen, heval⟩ := Prod.mk.inj heval
  obtain ⟨hgo, hfail⟩ := Prod.mk.inj heval
  have herr : s.step wholeRename .rename = .error .uopQueueNotEmpty := by
    rcases hstep : s.step wholeRename .rename with a | s'
    · rw [hstep] at hfail
      rw [Option.some.inj hfail]
    · rw [hstep] at hfail
      cases hfail
  refine ⟨s, ⟨_, hs⟩, hlen, herr, fun A => ?_⟩
  obtain ⟨s', out, hren, -⟩ := A.all hgo
  unfold RenameState.step at herr
  dsimp only at herr
  rw [if_pos hgo, hren] at herr
  cases herr

/-- The first group is renamed whole. -/
theorem whole_rename_iff_sample :
    ∃ s, [RenameOp.dispatchCredits 10, .decoded (instsFrom 0 4)].foldlM
        (RenameState.step wholeRename) (RenameState.init wholeRename 0) = .ok s ∧
      (scheduleRenaming wholeRename s).2 = true ∧ AllOrNothing wholeRename s := by
  have heval : ([RenameOp.dispatchCredits 10, .decoded (instsFrom 0 4)].foldlM
      (RenameState.step wholeRename) (RenameState.init wholeRename 0)).toOption.map
        (fun s => (s.uopQueue.length, (scheduleRenaming wholeRename s).2)) =
      some (4, true) := by decide +kernel
  obtain ⟨s, hs, heval⟩ := Run.ok_of_eval heval
  obtain ⟨hlen, hgo⟩ := Prod.mk.inj heval
  refine ⟨s, hs, hgo, (whole_rename_iff wholeRename 0 rfl ⟨_, hs⟩).mpr fun _ => ?_⟩
  rw [hlen]
  exact le_rfl

end Olympia
