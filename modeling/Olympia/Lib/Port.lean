import Mathlib.Data.List.Basic
import Mathlib.Order.Basic
import Mathlib.Algebra.Order.Group.Nat

/-!
# Ports with a latency

A message that is sent on a port arrives some cycles later.  A port is the list of the messages on
their way, oldest first, each with the cycle in which it arrives.  The latency of a port does not
change, so the oldest message arrives first: `Port.front` is what arrives in a cycle, one message
after the other, until the port is quiet.
-/

/-- A message on its way. -/
structure Arrival (α : Type*) where
  due : ℕ
  val : α
  deriving DecidableEq, Repr

namespace Port

variable {α : Type*} {c : List (Arrival α)} {now due : ℕ} {a : α}

/-- The messages on their way. -/
def vals (c : List (Arrival α)) : List α := c.map Arrival.val

def send (c : List (Arrival α)) (due : ℕ) (a : α) : List (Arrival α) := c ++ [⟨due, a⟩]

/-- The message that arrives. -/
def front (c : List (Arrival α)) (now : ℕ) : Option (α × List (Arrival α)) :=
  match c with
  | [] => none
  | m :: rest => if m.due ≤ now then some (m.val, rest) else none

/-- Nothing is left to arrive in this cycle. -/
def quiet (c : List (Arrival α)) (now : ℕ) : Bool := c.all fun m => now < m.due

@[simp] theorem vals_nil : vals ([] : List (Arrival α)) = [] := rfl

@[simp] theorem vals_cons {m : Arrival α} : vals (m :: c) = m.val :: vals c := rfl

@[simp] theorem vals_send : vals (send c due a) = vals c ++ [a] := by
  simp [vals, send]

@[simp] theorem vals_append_map {l : List α} :
    vals (c ++ l.map (Arrival.mk due)) = vals c ++ l := by
  simp [vals, Function.comp_def]

@[simp] theorem length_send : (send c due a).length = c.length + 1 := by
  simp [send]

theorem front_eq_some {rest : List (Arrival α)} (h : front c now = some (a, rest)) :
    ∃ due, due ≤ now ∧ c = ⟨due, a⟩ :: rest := by
  unfold front at h
  split at h
  · cases h
  · rename_i m rest'
    split at h
    · rename_i hdue
      obtain ⟨rfl, rfl⟩ := Prod.mk.inj (Option.some.inj h)
      exact ⟨m.due, hdue, rfl⟩
    · cases h

/-! ## The times on a port -/

variable {lo hi lo' hi' : ℕ} {m : Arrival α} {rest : List (Arrival α)}

/-- The messages arrive in their order, all between two cycles. -/
structure Timed (c : List (Arrival α)) (lo hi : ℕ) : Prop where
  sorted : c.Pairwise fun m m' => m.due ≤ m'.due
  ge : ∀ m ∈ c, lo ≤ m.due
  le : ∀ m ∈ c, m.due ≤ hi

namespace Timed

theorem nil : Timed ([] : List (Arrival α)) lo hi := ⟨.nil, by simp, by simp⟩

theorem mono (H : Timed c lo hi) (hlo : lo' ≤ lo) (hhi : hi ≤ hi') : Timed c lo' hi' :=
  ⟨H.sorted, fun m hm => hlo.trans (H.ge m hm), fun m hm => (H.le m hm).trans hhi⟩

theorem send (H : Timed c lo hi) (hlo : lo ≤ hi) : Timed (send c hi a) lo hi := by
  refine ⟨?_, ?_, ?_⟩
  · refine List.pairwise_append.mpr ⟨H.sorted, List.pairwise_singleton _ _, ?_⟩
    intro m hm m' hm'
    rw [List.mem_singleton.mp hm']
    exact H.le m hm
  · intro m hm
    rcases List.mem_append.mp hm with hm | hm
    · exact H.ge m hm
    · rw [List.mem_singleton.mp hm]
      exact hlo
  · intro m hm
    rcases List.mem_append.mp hm with hm | hm
    · exact H.le m hm
    · rw [List.mem_singleton.mp hm]

theorem tail (H : Timed (m :: rest) lo hi) : Timed rest lo hi :=
  ⟨(List.pairwise_cons.mp H.sorted).2, fun x hx => H.ge x (List.mem_cons_of_mem _ hx),
    fun x hx => H.le x (List.mem_cons_of_mem _ hx)⟩

/-- What is left on a quiet port arrives in a later cycle. -/
theorem of_quiet (H : Timed c lo hi) (hq : quiet c now = true) : Timed c (now + 1) hi := by
  refine ⟨H.sorted, ?_, H.le⟩
  intro m hm
  have hlt : now < m.due := by simpa using List.all_eq_true.mp hq m hm
  exact hlt

/-- On a port that is not quiet a message arrives. -/
theorem front_isSome (H : Timed c lo hi) (hq : quiet c now = false) :
    (front c now).isSome = true := by
  cases c with
  | nil => cases hq
  | cons m rest =>
    have hle : m.due ≤ now := by
      by_contra hlt
      have hall : quiet (m :: rest) now = true := by
        apply List.all_eq_true.mpr
        intro x hx
        have hmx : m.due ≤ x.due := by
          rcases List.mem_cons.mp hx with rfl | hx
          · exact le_rfl
          · exact (List.pairwise_cons.mp H.sorted).1 x hx
        exact decide_eq_true (by omega)
      rw [hall] at hq
      cases hq
    simp [front, hle]

end Timed

end Port
