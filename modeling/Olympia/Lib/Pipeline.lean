import Mathlib.Data.List.Nodup
import Mathlib.Data.List.Perm.Basic

/-!
# Pipelines

A pipeline moves each entry one stage in each cycle.  An entry is stored with its age, the number
of moves since it was appended, so the stages are the ages `1, 2, …`, and an entry that has been
appended in this cycle has age `0`.

`Pipeline.Sparse` says that no two entries have the same age.  Then a stage holds at most one
entry, and the pipeline is that entry and the others (`perm_of_at`).
-/

/-- An entry of a pipeline. -/
structure Staged (α : Type*) where
  age : ℕ
  val : α
  deriving DecidableEq, Repr

namespace Pipeline

variable {α : Type*} {p : List (Staged α)} {e : Staged α} {n m : ℕ} {a : α}

def append (p : List (Staged α)) (a : α) : List (Staged α) := p ++ [⟨0, a⟩]

def advance (p : List (Staged α)) : List (Staged α) := p.map fun e => { e with age := e.age + 1 }

/-- The entry at a stage. -/
def at? (p : List (Staged α)) (n : ℕ) : Option α := (p.find? fun e => e.age = n).map Staged.val

/-- A stage holds an entry. -/
def isValid (p : List (Staged α)) (n : ℕ) : Bool := p.any fun e => e.age = n

/-- The entry at a stage is written in place. -/
def write (p : List (Staged α)) (n : ℕ) (a : α) : List (Staged α) :=
  p.map fun e => if e.age = n then { e with val := a } else e

/-- The entry at a stage leaves. -/
def remove (p : List (Staged α)) (n : ℕ) : List (Staged α) := p.filter fun e => e.age ≠ n

/-- No two entries are at the same stage. -/
def Sparse (p : List (Staged α)) : Prop := (p.map Staged.age).Nodup

theorem mem_of_at (h : at? p n = some a) : ⟨n, a⟩ ∈ p := by
  obtain ⟨e, he, rfl⟩ := Option.map_eq_some_iff.mp h
  obtain rfl : e.age = n := by simpa using List.find?_some he
  exact List.mem_of_find?_eq_some he

theorem isValid_iff : isValid p n = true ↔ ∃ e ∈ p, e.age = n := by
  simp [isValid]

theorem isValid_eq : isValid p n = decide (n ∈ p.map Staged.age) := by
  rw [Bool.eq_iff_iff, isValid_iff]
  simp

theorem exists_at (h : isValid p n = true) : ∃ a, at? p n = some a := by
  obtain ⟨e, he, hage⟩ := isValid_iff.mp h
  have hsome : (p.find? fun e => e.age = n).isSome := by
    rw [List.find?_isSome]
    exact ⟨e, he, by simpa using hage⟩
  obtain ⟨e', he'⟩ := Option.isSome_iff_exists.mp hsome
  exact ⟨e'.val, by rw [at?, he']; rfl⟩

/-- The entry at a stage, and the others. -/
theorem perm_of_at (hp : Sparse p) (h : at? p n = some a) : p.Perm (⟨n, a⟩ :: remove p n) := by
  have hmem := mem_of_at h
  induction p with
  | nil => cases hmem
  | cons e p ih =>
    obtain ⟨hnot, hrest⟩ := List.nodup_cons.mp hp
    by_cases hage : e.age = n
    · -- the stage of the head: nobody else is there
      have hkeep : remove p n = p := by
        refine List.filter_eq_self.mpr fun x hx => ?_
        have hne : x.age ≠ n := fun heq =>
          hnot (List.mem_map.mpr ⟨x, hx, heq.trans hage.symm⟩)
        simpa using hne
      have hval : e = ⟨n, a⟩ := by
        rcases List.mem_cons.mp hmem with rfl | hmem
        · rfl
        · exact absurd (List.mem_map.mpr ⟨_, hmem, hage.symm⟩) hnot
      rw [remove, List.filter_cons_of_neg (by simpa using hage), ← remove, hkeep, hval]
    · have hat : at? p n = some a := by
        rw [at?, List.find?_cons_of_neg (by simpa using hage)] at h
        exact h
      have hperm := ih hrest hat (mem_of_at hat)
      rw [remove, List.filter_cons_of_pos (by simpa using hage), ← remove]
      exact (hperm.cons e).trans (.swap _ _ _)

/-- A stage holds one entry. -/
theorem eq_of_at {b : α} (hp : Sparse p) (h : at? p n = some a) (hb : ⟨n, b⟩ ∈ p) : b = a := by
  have heq := List.inj_on_of_nodup_map hp hb (mem_of_at h) rfl
  exact (Staged.mk.inj heq).2

theorem length_remove (hp : Sparse p) (h : at? p n = some a) :
    (remove p n).length + 1 = p.length := (perm_of_at hp h).length_eq.symm

theorem isValid_remove (hm : m ≠ n) : isValid (remove p n) m = isValid p m := by
  rw [Bool.eq_iff_iff, isValid_iff, isValid_iff]
  constructor
  · rintro ⟨e, he, rfl⟩
    exact ⟨e, List.mem_of_mem_filter he, rfl⟩
  · rintro ⟨e, he, rfl⟩
    exact ⟨e, List.mem_filter.mpr ⟨he, by simpa using hm⟩, rfl⟩

theorem isValid_append (h : isValid p n = true) : isValid (append p a) n = true := by
  obtain ⟨e, he, hage⟩ := isValid_iff.mp h
  exact isValid_iff.mpr ⟨e, List.mem_append_left _ he, hage⟩

@[simp] theorem isValid_append_zero : isValid (append p a) 0 = true :=
  isValid_iff.mpr ⟨⟨0, a⟩, by simp [append], rfl⟩

/-- When the pipeline has moved, nothing has been appended in this cycle. -/
theorem isValid_advance_zero : isValid (advance p) 0 = false := by
  rw [Bool.eq_false_iff]
  intro h
  obtain ⟨e, he, hage⟩ := isValid_iff.mp h
  obtain ⟨x, -, rfl⟩ := List.mem_map.mp he
  exact absurd hage (Nat.succ_ne_zero _)

theorem mem_advance : e ∈ advance p ↔ ∃ x ∈ p, e = ⟨x.age + 1, x.val⟩ := by
  simp [advance, eq_comm]

theorem mem_remove : e ∈ remove p n ↔ e ∈ p ∧ e.age ≠ n := by
  simp [remove]

theorem mem_write (h : e ∈ write p n a) : (e ∈ p ∧ e.age ≠ n) ∨ e = ⟨n, a⟩ := by
  obtain ⟨x, hx, rfl⟩ := List.mem_map.mp h
  split
  · rename_i hage
    exact .inr (by rw [hage])
  · rename_i hage
    exact .inl ⟨hx, hage⟩

@[simp] theorem length_advance : (advance p).length = p.length := List.length_map _

@[simp] theorem length_append : (append p a).length = p.length + 1 := by simp [append]

@[simp] theorem length_write : (write p n a).length = p.length := List.length_map _

@[simp] theorem vals_advance : (advance p).map Staged.val = p.map Staged.val := by
  simp [advance, Function.comp_def]

@[simp] theorem vals_append : (append p a).map Staged.val = p.map Staged.val ++ [a] := by
  simp [append]

@[simp] theorem ages_write : (write p n a).map Staged.age = p.map Staged.age := by
  rw [write, List.map_map]
  refine List.map_congr_left fun e _ => ?_
  simp only [Function.comp_apply]
  split <;> rfl

@[simp] theorem isValid_write : isValid (write p n a) m = isValid p m := by
  rw [isValid_eq, isValid_eq, ages_write]

/-- A function that does not tell the written entry from the old one sees no change. -/
theorem map_write {β : Type*} {f : α → β} {b : α} (hp : Sparse p) (h : at? p n = some b)
    (hf : f a = f b) : (write p n a).map (f ∘ Staged.val) = p.map (f ∘ Staged.val) := by
  rw [write, List.map_map]
  refine List.map_congr_left fun e he => ?_
  simp only [Function.comp_apply]
  split
  · rename_i hage
    have heq : e.val = b := by
      rcases List.mem_cons.mp ((perm_of_at hp h).mem_iff.mp he) with rfl | hrem
      · rfl
      · exact absurd hage (mem_remove.mp hrem).2
    rw [heq, ← hf]
  · rfl

namespace Sparse

theorem nil : Sparse ([] : List (Staged α)) := List.nodup_nil

theorem advance (hp : Sparse p) : Sparse (advance p) := by
  have hages : (Pipeline.advance p).map Staged.age = (p.map Staged.age).map (· + 1) := by
    simp [Pipeline.advance, Function.comp_def]
  rw [Sparse, hages]
  exact hp.map fun _ _ h => Nat.succ.inj h

theorem append (hp : Sparse p) (hzero : isValid p 0 = false) : Sparse (append p a) := by
  rw [Sparse, Pipeline.append, List.map_append]
  refine List.nodup_append.mpr ⟨hp, List.nodup_singleton _, ?_⟩
  intro x hx y hy hxy
  obtain ⟨e, he, rfl⟩ := List.mem_map.mp hx
  have hage : e.age = 0 := by simpa [hxy] using hy
  rw [isValid_iff.mpr ⟨e, he, hage⟩] at hzero
  cases hzero

theorem remove (hp : Sparse p) : Sparse (remove p n) :=
  List.Nodup.sublist (List.filter_sublist.map _) hp

theorem write (hp : Sparse p) : Sparse (write p n a) := by
  rw [Sparse, ages_write]
  exact hp

end Sparse

end Pipeline
