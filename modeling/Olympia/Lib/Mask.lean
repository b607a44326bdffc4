import Mathlib.Data.Finset.Card
import Mathlib.Data.Finset.Range

/-!
# Masks with a counter

A mask of a fixed size and the number of its bits that are set, as loops keep it that must not
count an element twice.  `Mask.Marks` relates it to the finite set of the marked positions: the
bits are the members, and the counter is the cardinality.  Marking a position outside of the mask
fails, so a loop over it that succeeds never leaves it.
-/

structure Mask where
  bits : List Bool
  count : ℕ

namespace Mask

/-- No position is marked. -/
def empty (size : ℕ) : Mask := ⟨List.replicate size false, 0⟩

/-- Marks a position, and counts it unless it was marked before. -/
def mark (m : Mask) (n : ℕ) : Option Mask :=
  match m.bits[n]? with
  | none => none
  | some true => some m
  | some false => some ⟨m.bits.set n true, m.count + 1⟩

/-- Exactly the positions in `S` are marked. -/
structure Marks (m : Mask) (size : ℕ) (S : Finset ℕ) : Prop where
  length : m.bits.length = size
  mem_iff : ∀ n, m.bits[n]? = some true ↔ n ∈ S
  count : m.count = S.card

variable {m : Mask} {size n : ℕ} {S : Finset ℕ}

theorem marks_empty (size : ℕ) : (empty size).Marks size ∅ where
  length := List.length_replicate
  mem_iff n := by
    simp [empty, List.getElem?_replicate]
  count := rfl

namespace Marks

theorem subset_range (H : m.Marks size S) : S ⊆ Finset.range size := by
  intro n hn
  obtain ⟨hlt, -⟩ := List.getElem?_eq_some_iff.mp ((H.mem_iff n).mpr hn)
  rw [H.length] at hlt
  exact Finset.mem_range.mpr hlt

/-- The counter shows when every position is marked. -/
theorem count_eq_iff (H : m.Marks size S) : m.count = size ↔ S = Finset.range size := by
  rw [H.count]
  constructor
  · intro hcard
    exact Finset.eq_of_subset_of_card_le H.subset_range (by rw [Finset.card_range, hcard])
  · rintro rfl
    exact Finset.card_range size

theorem mark (H : m.Marks size S) (hn : n < size) :
    ∃ m', m.mark n = some m' ∧ m'.Marks size (insert n S) := by
  have hlt : n < m.bits.length := by rwa [H.length]
  unfold Mask.mark
  cases hbit : m.bits[n] with
  | true =>
    rw [List.getElem?_eq_getElem hlt, hbit]
    have hmem : n ∈ S := (H.mem_iff n).mp (by rw [List.getElem?_eq_getElem hlt, hbit])
    exact ⟨m, rfl, by rwa [Finset.insert_eq_of_mem hmem]⟩
  | false =>
    rw [List.getElem?_eq_getElem hlt, hbit]
    have hnot : n ∉ S := by
      intro hmem
      have htrue := (H.mem_iff n).mpr hmem
      rw [List.getElem?_eq_getElem hlt, hbit] at htrue
      cases htrue
    refine ⟨_, rfl, ?_, fun k => ?_, ?_⟩
    · rw [List.length_set, H.length]
    · rw [Finset.mem_insert]
      by_cases hk : k = n
      · subst hk
        simp [List.getElem?_set_self hlt]
      · rw [List.getElem?_set_ne (Ne.symm hk), H.mem_iff]
        simp [hk]
    · rw [Finset.card_insert_of_notMem hnot, H.count]

/-- A loop that marks the positions `f a` of a list. -/
theorem foldlM_mark {α : Type*} {f : α → ℕ} {l : List α} (H : m.Marks size S)
    (hl : ∀ a ∈ l, f a < size) :
    ∃ m', l.foldlM (fun m a => Mask.mark m (f a)) m = some m' ∧
      m'.Marks size (S ∪ (l.map f).toFinset) := by
  induction l generalizing m S with
  | nil => exact ⟨m, rfl, by simpa using H⟩
  | cons a l ih =>
    obtain ⟨m₁, hm₁, H₁⟩ := H.mark (hl a List.mem_cons_self)
    obtain ⟨m₂, hm₂, H₂⟩ := ih H₁ fun b hb => hl b (List.mem_cons_of_mem _ hb)
    refine ⟨m₂, ?_, ?_⟩
    · rw [List.foldlM_cons, hm₁]
      exact hm₂
    · rw [List.map_cons, List.toFinset_cons, Finset.union_insert, ← Finset.insert_union]
      exact H₂

/-- Once every position is marked, there is nothing left to mark. -/
theorem union_eq {U : Finset ℕ} (H : m.Marks size S) (hU : U ⊆ Finset.range size)
    (hfull : m.count = size) : S ∪ U = S := by
  rw [H.count_eq_iff.mp hfull]
  exact Finset.union_eq_left.mpr hU

end Marks

end Mask
