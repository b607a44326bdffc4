import Mathlib.Logic.Function.Basic
import Mathlib.Data.List.Nodup

/-!
# Tables with an undo journal

A table is a function from keys to values that is changed in groups of entries.  An entry
records its key, the value found there and the value put there.  Groups are applied in order
(`redo`) and the youngest groups can be taken back (`undo`).

`Chain base gs m` says that the groups `gs`, oldest first, lead from the table `base` to the
table `m` and that each entry has recorded what it overwrote.  It is kept by appending a
group at the young end (`Chain.snoc`) and by undoing the youngest group (`Chain.undo_last`),
and it determines the table (`Chain.eq_redoAll`).  What was in the table at some time is still
there or recorded by a later entry (`Chain.value_or_recorded`).
-/

universe u v

/-- One change of a table: where, what was there, what is there now. -/
structure JournalEntry (κ : Type u) (ν : Type v) where
  key : κ
  old : ν
  new : ν

namespace Journal

variable {κ : Type u} {ν : Type v} [DecidableEq κ]

/-- Apply a group of changes. -/
def redo (m : κ → ν) (g : List (JournalEntry κ ν)) : κ → ν :=
  g.foldl (fun m e => Function.update m e.key e.new) m

/-- Take a group of changes back. -/
def undo (m : κ → ν) (g : List (JournalEntry κ ν)) : κ → ν :=
  g.foldl (fun m e => Function.update m e.key e.old) m

/-- The keys of a group are distinct. -/
def DistinctKeys (g : List (JournalEntry κ ν)) : Prop := (g.map JournalEntry.key).Nodup

/-- Every entry of the group has recorded the value it found in `m`. -/
def Records (m : κ → ν) (g : List (JournalEntry κ ν)) : Prop :=
  DistinctKeys g ∧ ∀ e ∈ g, e.old = m e.key

@[simp] theorem redo_nil (m : κ → ν) : redo m [] = m := rfl

theorem redo_append (m : κ → ν) (g g' : List (JournalEntry κ ν)) :
    redo m (g ++ g') = redo (redo m g) g' := by
  simp [redo]

/-! ## What a group does at one key -/

/-- A key outside the group keeps its value. -/
theorem redo_of_forall_ne {m : κ → ν} {g : List (JournalEntry κ ν)} {k : κ}
    (h : ∀ e ∈ g, e.key ≠ k) : redo m g k = m k := by
  induction g generalizing m with
  | nil => rfl
  | cons e g ih =>
    have hne : e.key ≠ k := h e (by simp)
    calc redo m (e :: g) k
        = redo (Function.update m e.key e.new) g k := rfl
      _ = Function.update m e.key e.new k := ih fun e' he' => h e' (by simp [he'])
      _ = m k := Function.update_of_ne hne.symm _ _

/-- A key of the group gets the value its entry puts there. -/
theorem redo_of_mem {m : κ → ν} {g : List (JournalEntry κ ν)} (hg : DistinctKeys g)
    {e : JournalEntry κ ν} (he : e ∈ g) : redo m g e.key = e.new := by
  induction g generalizing m with
  | nil => simp at he
  | cons e' g ih =>
    obtain ⟨hhead, htail⟩ := List.nodup_cons.mp (show (e'.key :: g.map _).Nodup from hg)
    rcases List.mem_cons.mp he with rfl | he
    · have hrest : ∀ e' ∈ g, e'.key ≠ e.key := by
        intro e' he' heq
        exact hhead (List.mem_map.mpr ⟨e', he', heq⟩)
      calc redo m (e :: g) e.key
          = redo (Function.update m e.key e.new) g e.key := rfl
        _ = Function.update m e.key e.new e.key := redo_of_forall_ne hrest
        _ = e.new := Function.update_self _ _ _
    · exact ih htail he

/-- The order of the entries of a group does not matter. -/
theorem redo_perm {m : κ → ν} {g g' : List (JournalEntry κ ν)} (hg : DistinctKeys g)
    (hp : g.Perm g') : redo m g = redo m g' := by
  have hg' : DistinctKeys g' := (hp.map _).nodup_iff.mp hg
  funext k
  by_cases hk : ∃ e ∈ g, e.key = k
  · obtain ⟨e, he, rfl⟩ := hk
    rw [redo_of_mem hg he, redo_of_mem hg' (hp.mem_iff.mp he)]
  · have hne : ∀ e ∈ g, e.key ≠ k := fun e he heq => hk ⟨e, he, heq⟩
    rw [redo_of_forall_ne hne, redo_of_forall_ne fun e he => hne e (hp.mem_iff.mpr he)]

/-- Undoing is redoing the group with old and new values exchanged. -/
theorem undo_eq_redo (m : κ → ν) (g : List (JournalEntry κ ν)) :
    undo m g = redo m (g.map fun e => ⟨e.key, e.new, e.old⟩) := by
  simp [undo, redo, List.foldl_map]

/-- A recorded group is taken back exactly. -/
theorem undo_redo {m : κ → ν} {g : List (JournalEntry κ ν)} (h : Records m g) :
    undo (redo m g) g = m := by
  obtain ⟨hg, hold⟩ := h
  have hswap : DistinctKeys (g.map fun e => (⟨e.key, e.new, e.old⟩ : JournalEntry κ ν)) := by
    simpa [DistinctKeys, Function.comp_def] using hg
  rw [undo_eq_redo]
  funext k
  by_cases hk : ∃ e ∈ g, e.key = k
  · obtain ⟨e, he, rfl⟩ := hk
    have hmem := redo_of_mem (m := redo m g) hswap (List.mem_map.mpr ⟨e, he, rfl⟩)
    exact hmem.trans (hold e he)
  · have hne : ∀ e ∈ g, e.key ≠ k := fun e he heq => hk ⟨e, he, heq⟩
    rw [redo_of_forall_ne (by simpa using hne), redo_of_forall_ne hne]

/-- The order in which the entries of a group are taken back does not matter. -/
theorem undo_perm {m : κ → ν} {g g' : List (JournalEntry κ ν)} (hg : DistinctKeys g)
    (hp : g.Perm g') : undo m g = undo m g' := by
  rw [undo_eq_redo, undo_eq_redo]
  refine redo_perm ?_ (hp.map _)
  simpa [DistinctKeys, Function.comp_def] using hg

/-! ## Chains of groups -/

/-- The groups `gs`, oldest first, lead from `base` to `m`, each recording what it
overwrote. -/
def Chain (base : κ → ν) : List (List (JournalEntry κ ν)) → (κ → ν) → Prop
  | [], m => m = base
  | g :: gs, m => Records base g ∧ Chain (redo base g) gs m

/-- The table after applying all groups. -/
def redoAll (base : κ → ν) (gs : List (List (JournalEntry κ ν))) : κ → ν :=
  gs.foldl redo base

namespace Chain

variable {base m : κ → ν} {g : List (JournalEntry κ ν)} {gs hs : List (List (JournalEntry κ ν))}

theorem append_iff : Chain base (gs ++ hs) m ↔
    ∃ mid, Chain base gs mid ∧ Chain mid hs m := by
  induction gs generalizing base with
  | nil =>
    constructor
    · intro h
      exact ⟨base, rfl, h⟩
    · rintro ⟨mid, rfl, h⟩
      exact h
  | cons g gs ih =>
    constructor
    · rintro ⟨hrec, h⟩
      obtain ⟨mid, hmid, hrest⟩ := ih.mp h
      exact ⟨mid, ⟨hrec, hmid⟩, hrest⟩
    · rintro ⟨mid, ⟨hrec, hmid⟩, hrest⟩
      exact ⟨hrec, ih.mpr ⟨mid, hmid, hrest⟩⟩

/-- A recorded group can be appended at the young end. -/
theorem snoc (h : Chain base gs m) (hg : Records m g) : Chain base (gs ++ [g]) (redo m g) :=
  append_iff.mpr ⟨m, h, hg, rfl⟩

/-- The youngest group can be undone. -/
theorem undo_last (h : Chain base (gs ++ [g]) m) : Chain base gs (undo m g) := by
  obtain ⟨mid, hmid, hrec, rfl⟩ := append_iff.mp h
  rwa [undo_redo hrec]

/-- The keys of the youngest group hold what its entries put there. -/
theorem last_new (h : Chain base (gs ++ [g]) m) : ∀ e ∈ g, m e.key = e.new := by
  obtain ⟨mid, -, hrec, rfl⟩ := append_iff.mp h
  intro e he
  exact redo_of_mem hrec.1 he

/-- A chain determines its table. -/
theorem eq_redoAll (h : Chain base gs m) : m = redoAll base gs := by
  induction gs generalizing base with
  | nil => exact h
  | cons g gs ih => exact ih h.2

/-- A value that was in the table before the groups of the chain is still there, or some
entry of the chain has recorded it. -/
theorem value_or_recorded (h : Chain base gs m) (k : κ) :
    m k = base k ∨ ∃ g ∈ gs, ∃ e ∈ g, e.key = k ∧ e.old = base k := by
  induction gs generalizing base with
  | nil => exact .inl (congrFun h k)
  | cons g gs ih =>
    obtain ⟨⟨hg, hold⟩, hrest⟩ := h
    by_cases hk : ∃ e ∈ g, e.key = k
    · obtain ⟨e, he, rfl⟩ := hk
      exact .inr ⟨g, by simp, e, he, rfl, hold e he⟩
    · have hsame : redo base g k = base k :=
        redo_of_forall_ne fun e he heq => hk ⟨e, he, heq⟩
      rcases ih hrest with h | ⟨g', hg', e, he, hkey, hrec⟩
      · exact .inl (h.trans hsame)
      · exact .inr ⟨g', by simp [hg'], e, he, hkey, hrec.trans hsame⟩

end Chain

/-! ## Reading a group at one key -/

end Journal
