import Mathlib.Data.List.Basic

/-!
# The latest entry of a log

A log is a list to which entries are appended.  `latest P log` is the last of its entries that
satisfies `P`: who wrote something last, where something was last seen.  Appending entries that
do not satisfy `P` changes nothing, and an entry that is the only one of its kind among those
appended becomes the latest.
-/

namespace Log

universe u

variable {α : Type u} {P : α → Bool} {l new : List α} {a : α}

def latest (P : α → Bool) (log : List α) : Option α := log.reverse.find? P

theorem latest_append : latest P (l ++ new) = (latest P new).or (latest P l) := by
  unfold latest
  rw [List.reverse_append, List.find?_append]

theorem latest_eq_none : latest P l = none ↔ ∀ a ∈ l, P a = false := by
  unfold latest
  rw [List.find?_eq_none]
  simp

theorem mem_of_latest (h : latest P l = some a) : a ∈ l :=
  List.mem_reverse.mp (List.mem_of_find?_eq_some h)

theorem of_latest (h : latest P l = some a) : P a = true :=
  List.find?_some h

theorem latest_append_of_forall (h : ∀ a ∈ new, P a = false) :
    latest P (l ++ new) = latest P l := by
  rw [latest_append, latest_eq_none.mpr h]
  rfl

theorem latest_append_of_unique (hmem : a ∈ new) (ha : P a = true)
    (hunique : ∀ b ∈ new, P b = true → b = a) : latest P (l ++ new) = some a := by
  rw [latest_append]
  rcases hnew : latest P new with _ | b
  · rw [latest_eq_none.mp hnew a hmem] at ha
    cases ha
  · rw [hunique b (mem_of_latest hnew) (of_latest hnew)]
    rfl

end Log
