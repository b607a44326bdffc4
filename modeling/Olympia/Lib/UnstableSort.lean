import Mathlib.Data.List.Sort

/-!
# Sorting by a comparison function

`UnstableSort lt` is any function that sorts by the comparison `lt` and promises no order between
elements that `lt` does not tell apart.  A result about every `UnstableSort` is one about every
implementation of the sort.
-/

/-- A sort by the comparison `lt`: of any two elements, the later one is not less. -/
structure UnstableSort {α : Type*} (lt : α → α → Bool) where
  sort : List α → List α
  perm : ∀ l, (sort l).Perm l
  sorted : ∀ l, (sort l).Pairwise fun a b => lt b a = false

namespace UnstableSort

variable {α : Type*} {lt : α → α → Bool}

theorem mem_sort (S : UnstableSort lt) {l : List α} {a : α} : a ∈ S.sort l ↔ a ∈ l :=
  (S.perm l).mem_iff

/-- Sorting copies of one element changes nothing. -/
theorem sort_replicate (S : UnstableSort lt) (n : ℕ) (a : α) :
    S.sort (List.replicate n a) = List.replicate n a :=
  List.perm_replicate.mp (S.perm _)

/-- Insertion sort, for a comparison of which any two elements stand in one order. -/
def insertion (lt : α → α → Bool) (htotal : ∀ a b, lt b a = false ∨ lt a b = false)
    (htrans : ∀ a b c, lt b a = false → lt c b = false → lt c a = false) : UnstableSort lt :=
  haveI : Std.Total fun a b => lt b a = false := ⟨htotal⟩
  haveI : IsTrans α fun a b => lt b a = false := ⟨htrans⟩
  { sort := List.insertionSort fun a b => lt b a = false
    perm := List.perm_insertionSort _
    sorted := List.pairwise_insertionSort _ }

end UnstableSort
