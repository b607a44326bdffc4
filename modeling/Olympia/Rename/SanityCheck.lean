import Olympia.Lib.UnstableSort
import Olympia.Rename.Model

/-!
# The sanity check of the freelists

`sanityCheck_` of `core/rename/Rename.cpp`, whose event is never scheduled.  It copies the freelist
of every register file, sorts the copy, and looks for two equal neighbours.

The freelist is a queue, and the copy takes its *back* while it pops the front: it is as long as
the freelist and has its last register at every place.  And the cursor of the walk over the sorted
copy does not move.  So the walk ends in its first turn, and it finds a duplicate in every freelist
of two registers, the same or not (`sanityCheck_exact_iff`).
-/

namespace Olympia

/-- The assertion of `sanityCheck_`. -/
structure DuplicateReg where
  reg : ℕ
  regFile : RegFile
  deriving DecidableEq, Repr

/-- Its message; a register file is printed as its number. -/
def DuplicateReg.text (e : DuplicateReg) : String :=
  "Duplicate reg " ++ toString e.reg ++ " in regfile " ++ toString (RegFile.all.idxOf e.regFile)

namespace Rename

/-- The loop that copies the freelist. -/
def copyFreelist : List ℕ → List ℕ → List ℕ
  | [], sortedFl => sortedFl
  | r :: flq, sortedFl => copyFreelist flq (sortedFl ++ [(r :: flq).getLast (by simp)])

/-- The walk over the sorted copy, for at most `fuel` turns; `none` if it is not over then. -/
def walk (f : RegFile) (sortedFl : List ℕ) (nextReg : ℕ) :
    ℕ → ℕ → Option (Except DuplicateReg Unit)
  | 0, _ => none
  | fuel + 1, reg =>
    match sortedFl[nextReg]? with
    | none => some (.ok ())
    | some next =>
      if reg = next then some (.error ⟨reg, f⟩)
      else walk f sortedFl nextReg fuel next

/-- The body of the loop of `sanityCheck_` over the register files. -/
def checkFreelist (S : UnstableSort fun a b : ℕ => decide (a < b)) (fuel : ℕ) (f : RegFile)
    (freelist : List ℕ) : Option (Except DuplicateReg Unit) :=
  if freelist = [] then some (.ok ())
  else
    let sortedFl := S.sort (copyFreelist freelist [])
    walk f sortedFl 1 fuel (sortedFl.headD 0)

/-- `sanityCheck_`, for register files from `f` on. -/
def checkFreelists (S : UnstableSort fun a b : ℕ => decide (a < b)) (fuel : ℕ)
    (t : RenameTables) : List RegFile → Option (Except DuplicateReg Unit)
  | [] => some (.ok ())
  | f :: fs =>
    match checkFreelist S fuel f (t.regfileComponents f).freelist with
    | some (.ok ()) => checkFreelists S fuel t fs
    | stopped => stopped

/-- `sanityCheck_`. -/
def sanityCheck (S : UnstableSort fun a b : ℕ => decide (a < b)) (fuel : ℕ) (t : RenameTables) :
    Option (Except DuplicateReg Unit) :=
  checkFreelists S fuel t RegFile.all

/-! ## What the check does -/

variable {S : UnstableSort fun a b : ℕ => decide (a < b)} {fuel : ℕ} {t : RenameTables}

/-- The copy is the last register, as often as the freelist is long. -/
theorem copyFreelist_eq : ∀ {freelist : List ℕ} (h : freelist ≠ []) (sortedFl : List ℕ),
    copyFreelist freelist sortedFl =
      sortedFl ++ List.replicate freelist.length (freelist.getLast h)
  | [r], _, sortedFl => rfl
  | r :: r' :: flq, _, sortedFl => by
    rw [copyFreelist, copyFreelist_eq (List.cons_ne_nil r' flq), List.append_assoc]
    rfl

/-- The check of a freelist is over in one turn of the walk, and finds a duplicate if there are
two registers. -/
theorem checkFreelist_eq (hfuel : 0 < fuel) (f : RegFile) (freelist : List ℕ) :
    checkFreelist S fuel f freelist =
      some (if 2 ≤ freelist.length then .error ⟨freelist.getLastD 0, f⟩ else .ok ()) := by
  obtain ⟨fuel, rfl⟩ := Nat.exists_eq_add_of_lt hfuel
  unfold checkFreelist
  by_cases hne : freelist = []
  · simp [hne]
  · have hcopy := copyFreelist_eq hne []
    rw [if_neg hne]
    dsimp only
    rw [hcopy, List.nil_append, S.sort_replicate]
    have hlast : freelist.getLast hne = freelist.getLastD 0 := by
      rw [List.getLastD_eq_getLast?, List.getLast?_eq_some_getLast hne]
      rfl
    by_cases htwo : 2 ≤ freelist.length
    · obtain ⟨n, hn⟩ := Nat.exists_eq_add_of_le htwo
      rw [if_pos htwo, hn, hlast, Nat.add_comm 2 n]
      simp [walk, List.replicate_succ]
    · have hone : freelist.length = 1 := by
        have hpos := List.length_pos_iff.mpr hne
        omega
      rw [if_neg htwo, hone]
      simp [walk]

/-- Some freelist has two registers, the same or not. -/
def HasTwo (t : RenameTables) : Prop := ∃ f, 2 ≤ (t.regfileComponents f).freelist.length

/-- Some freelist has a register twice. -/
def HasDuplicate (t : RenameTables) : Prop := ∃ f, ¬ (t.regfileComponents f).freelist.Nodup

theorem HasDuplicate.hasTwo (h : HasDuplicate t) : HasTwo t := by
  obtain ⟨f, hf⟩ := h
  refine ⟨f, ?_⟩
  by_contra hlt
  apply hf
  match hfl : (t.regfileComponents f).freelist with
  | [] => exact .nil
  | [r] => exact List.nodup_singleton r
  | r :: r' :: l =>
    rw [hfl] at hlt
    exact absurd (by simp) hlt

/-- The result of the check: it names the first register file with two free registers. -/
def found (t : RenameTables) (fs : List RegFile) : Except DuplicateReg Unit :=
  match fs.find? fun f => 2 ≤ (t.regfileComponents f).freelist.length with
  | some f => .error ⟨(t.regfileComponents f).freelist.getLastD 0, f⟩
  | none => .ok ()

theorem checkFreelists_eq (hfuel : 0 < fuel) (fs : List RegFile) :
    checkFreelists S fuel t fs = some (found t fs) := by
  induction fs with
  | nil => rfl
  | cons f fs ih =>
    unfold checkFreelists found
    rw [checkFreelist_eq hfuel]
    by_cases htwo : 2 ≤ (t.regfileComponents f).freelist.length
    · simp [htwo]
    · rw [if_neg htwo, List.find?_cons_of_neg (by simpa using htwo)]
      exact ih

theorem found_eq_error : (∃ e, found t RegFile.all = .error e) ↔ HasTwo t := by
  unfold found HasTwo
  cases hfind : RegFile.all.find? fun f => 2 ≤ (t.regfileComponents f).freelist.length with
  | none =>
    have hall := List.find?_eq_none.mp hfind
    simp only [reduceCtorEq, exists_false, false_iff, not_exists]
    intro f
    simpa using hall f (RegFile.mem_all f)
  | some f =>
    have hf := List.find?_some hfind
    simp only [Except.error.injEq, exists_eq', true_iff]
    exact ⟨f, by simpa using hf⟩

/-- The check terminates, and it is exact if and only if no freelist has two registers or some
freelist really has a register twice. -/
theorem sanityCheck_exact_iff (S : UnstableSort fun a b : ℕ => decide (a < b))
    (t : RenameTables) :
    (∃ r, (∀ fuel, 0 < fuel → sanityCheck S fuel t = some r) ∧
      ((∃ e, r = .error e) ↔ HasDuplicate t)) ↔ (HasTwo t → HasDuplicate t) := by
  constructor
  · rintro ⟨r, hr, hiff⟩ htwo
    obtain rfl : found t RegFile.all = r :=
      Option.some.inj ((checkFreelists_eq Nat.one_pos RegFile.all).symm.trans (hr 1 Nat.one_pos))
    exact hiff.mp (found_eq_error.mpr htwo)
  · intro hdup
    refine ⟨_, fun fuel hfuel => checkFreelists_eq hfuel RegFile.all, ?_⟩
    rw [found_eq_error]
    exact ⟨hdup, HasDuplicate.hasTwo⟩

/-- Registers by insertion sort. -/
def sortRegs : UnstableSort fun a b : ℕ => decide (a < b) :=
  .insertion _ (fun a b => by simpa using le_total a b) fun a b c hab hbc => by
    simp only [decide_eq_false_iff_not, not_lt] at hab hbc ⊢
    exact hab.trans hbc

theorem init_nodup (p : RenameParams) (x0 : ℕ) :
    ¬ HasDuplicate (RenameState.init p x0).toRenameTables := by
  rintro ⟨f, hdup⟩
  exact hdup List.nodup_range'

/-- The freelists of the constructed unit have no duplicate, and the check finds one. -/
theorem sanityCheck_stops_init :
    ¬ ∀ (S : UnstableSort fun a b : ℕ => decide (a < b)) (t : RenameTables),
      ∃ r, (∀ fuel, 0 < fuel → sanityCheck S fuel t = some r) ∧
        ((∃ e, r = .error e) ↔ HasDuplicate t) := by
  intro hall
  obtain ⟨r, hr, hiff⟩ := hall sortRegs (RenameState.init {} 0).toRenameTables
  obtain rfl := Option.some.inj
    ((checkFreelists_eq Nat.one_pos RegFile.all).symm.trans (hr 1 Nat.one_pos))
  have htwo : HasTwo (RenameState.init {} 0).toRenameTables := ⟨.integer, by decide⟩
  exact init_nodup {} 0 (hiff.mp (found_eq_error.mpr htwo))

end Rename
end Olympia
