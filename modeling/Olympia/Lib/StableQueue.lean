import Mathlib.Data.List.TakeWhile
import Mathlib.Order.Lattice

/-!
# Queues sorted by a key

A new entry goes before the first entry with a larger key.  So the queue stays sorted
(`insertStable_sorted`), and among entries with equal keys the order is that of their insertion:
those with one key are a first-in first-out queue of their own (`filter_insertStable`).
-/

namespace StableQueue

variable {α κ : Type*} [LinearOrder κ] {key : α → κ} {q : List α} {x y : α}

/-- No entry has a larger key than a later one. -/
def Sorted (key : α → κ) (q : List α) : Prop := q.Pairwise fun a b => key a ≤ key b

/-- The entry `x` goes before the first entry with a larger key. -/
def insertStable (key : α → κ) (q : List α) (x : α) : List α :=
  q.takeWhile (fun e => decide (key e ≤ key x)) ++ x ::
    q.dropWhile (fun e => decide (key e ≤ key x))

theorem key_le_of_mem_takeWhile (hy : y ∈ q.takeWhile fun e => decide (key e ≤ key x)) :
    key y ≤ key x := by
  have htest := List.mem_takeWhile_imp hy
  exact of_decide_eq_true htest

/-- Everything behind the place of the new entry has a larger key. -/
theorem key_lt_of_mem_dropWhile (hq : Sorted key q)
    (hy : y ∈ q.dropWhile fun e => decide (key e ≤ key x)) : key x < key y := by
  induction q with
  | nil => cases hy
  | cons a q ih =>
    obtain ⟨ha, hq⟩ := List.pairwise_cons.mp hq
    rw [List.dropWhile_cons] at hy
    by_cases hle : key a ≤ key x
    · rw [if_pos (by simpa using hle)] at hy
      exact ih hq hy
    · rw [if_neg (by simpa using hle)] at hy
      have hlt := not_le.mp hle
      rcases List.mem_cons.mp hy with rfl | hy
      · exact hlt
      · exact hlt.trans_le (ha y hy)

theorem insertStable_sorted (hq : Sorted key q) (x : α) : Sorted key (insertStable key q x) := by
  have hsplit : Sorted key (q.takeWhile (fun e => decide (key e ≤ key x)) ++
      q.dropWhile fun e => decide (key e ≤ key x)) := by
    rw [List.takeWhile_append_dropWhile]
    exact hq
  obtain ⟨htake, hdrop, hcross⟩ := List.pairwise_append.mp hsplit
  apply List.pairwise_append.mpr
  refine ⟨htake, List.pairwise_cons.mpr ⟨fun y hy => ?_, hdrop⟩, fun y hy z hz => ?_⟩
  · exact (key_lt_of_mem_dropWhile hq hy).le
  · rcases List.mem_cons.mp hz with rfl | hz
    · exact key_le_of_mem_takeWhile hy
    · exact hcross y hy z hz

/-- Among the entries with one key, the new entry is the last. -/
theorem filter_insertStable (hq : Sorted key q) (x : α) (k : κ) :
    (insertStable key q x).filter (fun e => decide (key e = k)) =
      q.filter (fun e => decide (key e = k)) ++ [x].filter fun e => decide (key e = k) := by
  have hsplit : q.filter (fun e => decide (key e = k)) =
      (q.takeWhile fun e => decide (key e ≤ key x)).filter (fun e => decide (key e = k)) ++
        (q.dropWhile fun e => decide (key e ≤ key x)).filter fun e => decide (key e = k) := by
    rw [← List.filter_append, List.takeWhile_append_dropWhile]
  unfold insertStable
  rw [List.filter_append, List.filter_cons, hsplit]
  by_cases hx : key x = k
  · have hnone : (q.dropWhile fun e => decide (key e ≤ key x)).filter
        (fun e => decide (key e = k)) = [] := by
      rw [List.filter_eq_nil_iff]
      intro y hy heq
      have hlt := key_lt_of_mem_dropWhile hq hy
      rw [hx, of_decide_eq_true heq] at hlt
      exact lt_irrefl _ hlt
    rw [hnone, if_pos (decide_eq_true hx), List.append_nil]
    simp [hx]
  · rw [if_neg (by simpa using hx)]
    simp [hx]

end StableQueue
