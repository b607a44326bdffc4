import Mathlib.Data.Multiset.Count
import Mathlib.Data.Multiset.AddSub
import Mathlib.Data.List.Perm.Basic

/-!
# Reference-counted pools with a free list

A pool keeps a counter for every resource and a first-in first-out list of free resources.
Three operations change it: the resource at the front of the list is acquired, a resource
that is in use gains one more reference, and a reference is released, which puts the
resource back on the list when it was the last one.

`Pool.Exact U P refs` says what the pool is for: `refs` is the multiset of all references
that exist anywhere, every counter is the number of references to its resource, and a
resource of the universe `U` is on the free list once when nobody refers to it and not at
all otherwise.  Each operation changes `refs` by one element and keeps the pool exact.  Two
exact pools with the same references agree on every counter and have the same free
resources, whatever was done to reach them (`Exact.cnt_eq_of_refs`, `Exact.free_perm`).
-/

variable {ρ : Type*} [DecidableEq ρ]

/-- Counters and the free list. -/
structure Pool (ρ : Type*) where
  cnt : ρ → ℕ
  free : List ρ

namespace Pool

/-- One more reference to a resource. -/
def retain (P : Pool ρ) (r : ρ) : Pool ρ :=
  { P with cnt := Function.update P.cnt r (P.cnt r + 1) }

/-- One reference less; the last one frees the resource. -/
def release (P : Pool ρ) (r : ρ) : Pool ρ :=
  { cnt := Function.update P.cnt r (P.cnt r - 1)
    free := if P.cnt r - 1 = 0 then P.free ++ [r] else P.free }

/-- Take the front of the free list away. -/
def pop (P : Pool ρ) : Pool ρ := { P with free := P.free.tail }

/-- The pool accounts for exactly the references `refs` to resources of `U`. -/
structure Exact (U : Set ρ) (P : Pool ρ) (refs : Multiset ρ) : Prop where
  cnt_eq : ∀ r, P.cnt r = refs.count r
  free_count : ∀ r ∈ U, P.free.count r = if refs.count r = 0 then 1 else 0
  free_mem : ∀ r ∈ P.free, r ∈ U
  refs_mem : ∀ r ∈ refs, r ∈ U

namespace Exact

variable {U : Set ρ} {P Q : Pool ρ} {refs : Multiset ρ} {r : ρ}

/-- A resource with a reference has a positive counter. -/
theorem cnt_ne_zero (h : Exact U P refs) (hr : r ∈ refs) : P.cnt r ≠ 0 := by
  rw [h.cnt_eq]
  exact (Multiset.count_pos.mpr hr).ne'

/-- A resource with a reference is not free. -/
theorem not_mem_free (h : Exact U P refs) (hr : r ∈ refs) : r ∉ P.free := by
  have hcount : P.free.count r = 0 := by
    rw [h.free_count r (h.refs_mem r hr), if_neg (Multiset.count_pos.mpr hr).ne']
  exact List.count_eq_zero.mp hcount

/-- A free resource has no reference. -/
theorem not_mem_refs (h : Exact U P refs) (hr : r ∈ P.free) : r ∉ refs :=
  fun hmem => h.not_mem_free hmem hr

/-- A resource that is in use can be shared. -/
theorem retain (h : Exact U P refs) (hr : r ∈ refs) :
    Exact U (P.retain r) (r ::ₘ refs) where
  cnt_eq q := by
    by_cases hq : q = r
    · subst hq
      simp [Pool.retain, h.cnt_eq]
    · simp [Pool.retain, hq, h.cnt_eq]
  free_count q hU := by
    have hfree := h.free_count q hU
    by_cases hq : q = r
    · subst hq
      have hpos := (Multiset.count_pos.mpr hr).ne'
      simpa [Pool.retain, hpos] using hfree
    · simpa [Pool.retain, hq] using hfree
  free_mem := h.free_mem
  refs_mem q hq := by
    rcases Multiset.mem_cons.mp hq with rfl | hq
    · exact h.refs_mem q hr
    · exact h.refs_mem q hq

/-- The front of the free list can be acquired. -/
theorem acquire (h : Exact U P refs) {rest : List ρ} (hfree : P.free = r :: rest) :
    Exact U (P.pop.retain r) (r ::ₘ refs) := by
  have hrU : r ∈ U := h.free_mem r (by simp [hfree])
  have hnot : r ∉ refs := h.not_mem_refs (by simp [hfree])
  have hzero : refs.count r = 0 := Multiset.count_eq_zero.mpr hnot
  refine ⟨fun q => ?_, fun q hU => ?_, fun q hq => ?_, fun q hq => ?_⟩
  · by_cases hq : q = r
    · subst hq
      simp [Pool.retain, Pool.pop, h.cnt_eq]
    · simp [Pool.retain, Pool.pop, hq, h.cnt_eq]
  · have hcount := h.free_count q hU
    rw [hfree] at hcount
    by_cases hq : q = r
    · subst hq
      simp only [List.count_cons_self, hzero, if_true] at hcount
      simp only [Pool.retain, Pool.pop, hfree, List.tail_cons, Multiset.count_cons_self]
      rw [if_neg (by omega)]
      omega
    · simp only [Pool.retain, Pool.pop, hfree, List.tail_cons, Multiset.count_cons_of_ne hq]
      rw [← hcount, List.count_cons_of_ne (Ne.symm hq)]
  · refine h.free_mem q ?_
    simp only [Pool.retain, Pool.pop, hfree, List.tail_cons] at hq
    simp [hfree, hq]
  · rcases Multiset.mem_cons.mp hq with rfl | hq
    · exact hrU
    · exact h.refs_mem q hq

/-- A reference can be released. -/
theorem release (h : Exact U P (r ::ₘ refs)) : Exact U (P.release r) refs := by
  have hrU : r ∈ U := h.refs_mem r (Multiset.mem_cons_self r refs)
  have hcnt : P.cnt r = refs.count r + 1 := by
    rw [h.cnt_eq, Multiset.count_cons_self]
  refine ⟨fun q => ?_, fun q hU => ?_, fun q hq => ?_, fun q hq => ?_⟩
  · by_cases hq : q = r
    · subst hq
      simp [Pool.release, hcnt]
    · simpa [Pool.release, hq] using h.cnt_eq q
  · have hcount := h.free_count q hU
    by_cases hq : q = r
    · subst hq
      rw [if_neg (by simp)] at hcount
      by_cases hz : refs.count q = 0
      · simp [Pool.release, hcnt, hz, hcount]
      · simp [Pool.release, hcnt, hz, hcount]
    · have hne : Multiset.count q (r ::ₘ refs) = refs.count q := Multiset.count_cons_of_ne hq _
      rw [hne] at hcount
      by_cases hz : P.cnt r - 1 = 0
      · have hlast : [r].count q = 0 := List.count_eq_zero.mpr (by simpa using hq)
        simp only [Pool.release, hz, if_true, List.count_append]
        rw [hlast, hcount, Nat.add_zero]
      · simpa [Pool.release, hz] using hcount
  · simp only [Pool.release] at hq
    split at hq
    · rcases List.mem_append.mp hq with hq | hq
      · exact h.free_mem q hq
      · rw [List.mem_singleton.mp hq]
        exact hrU
    · exact h.free_mem q hq
  · exact h.refs_mem q (Multiset.mem_cons_of_mem hq)

/-- Exact pools with the same references agree on every counter. -/
theorem cnt_eq_of_refs (hP : Exact U P refs) (hQ : Exact U Q refs) (r : ρ) :
    P.cnt r = Q.cnt r := by
  rw [hP.cnt_eq, hQ.cnt_eq]

/-- Exact pools with the same references have the same free resources, in some order. -/
theorem free_perm (hP : Exact U P refs) (hQ : Exact U Q refs) : P.free.Perm Q.free := by
  rw [List.perm_iff_count]
  intro r
  by_cases hU : r ∈ U
  · rw [hP.free_count r hU, hQ.free_count r hU]
  · rw [List.count_eq_zero.mpr fun h => hU (hP.free_mem r h),
      List.count_eq_zero.mpr fun h => hU (hQ.free_mem r h)]

/-- Only the references as a multiset matter. -/
theorem congr {refs' : Multiset ρ} (h : Exact U P refs) (hr : refs' = refs) :
    Exact U P refs' := hr ▸ h

end Exact

end Pool
