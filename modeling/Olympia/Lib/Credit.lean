import Mathlib.Algebra.BigOperators.Group.List.Basic
import Mathlib.Algebra.GroupWithZero.Nat
import Mathlib.Data.Int.Basic

/-!
# Credit-based flow control

A sender may send an entry when it holds a credit.  The entry travels to the receiver, is
stored in its queue, and when the receiver is done with it a credit travels back.  A
`CreditLoop` counts the four places where a slot of the queue can be accounted for, and
`CreditLoop.Step` are the moves between them.

The receiver decides how many credits it returns for the entries it removes.  `Step` is
labelled with the difference, so a run of the protocol has a drift: the sum of the four counts
is the capacity plus the drift (`Balance`).  A receiver that returns one credit for each entry
has drift zero, and then the queue cannot overflow (`Balance.stored_add_le`) and a counter
that is wide enough for the capacity cannot wrap (`Balance.held_add_le`).
-/

/-- Where the slots of a receiver's queue are accounted for. -/
structure CreditLoop where
  /-- credits the sender holds -/
  held : ℕ
  /-- credits on their way to the sender -/
  returning : ℕ
  /-- entries in the queue -/
  stored : ℕ
  /-- entries on their way to the queue -/
  sent : ℕ

/-- The credit messages of a receiver that sends one only when it has credits to return. -/
def creditMessage (n : ℕ) : List ℕ := if n = 0 then [] else [n]

@[simp] theorem creditMessage_sum (n : ℕ) : (creditMessage n).sum = n := by
  unfold creditMessage
  split <;> simp_all

namespace CreditLoop

def total (L : CreditLoop) : ℕ := L.held + L.returning + L.stored + L.sent

/-- The moves of the protocol, labelled with the credits returned beyond the entries
removed. -/
inductive Step : CreditLoop → ℤ → CreditLoop → Prop where
  | send {L : CreditLoop} {k : ℕ} (hk : k ≤ L.held) :
    Step L 0 { L with held := L.held - k, sent := L.sent + k }
  | deliver {L : CreditLoop} {k : ℕ} (hk : k ≤ L.sent) :
    Step L 0 { L with sent := L.sent - k, stored := L.stored + k }
  | remove {L : CreditLoop} {k j : ℕ} (hk : k ≤ L.stored) :
    Step L (j - k) { L with stored := L.stored - k, returning := L.returning + j }
  | credit {L : CreditLoop} {k : ℕ} (hk : k ≤ L.returning) :
    Step L 0 { L with returning := L.returning - k, held := L.held + k }

/-- The slots add up to the capacity plus the drift. -/
def Balance (cap : ℕ) (drift : ℤ) (L : CreditLoop) : Prop := (L.total : ℤ) = cap + drift

namespace Balance

variable {cap : ℕ} {drift d : ℤ} {L L' : CreditLoop} {k : ℕ}

/-- A move changes the drift by its label. -/
theorem step (h : Balance cap drift L) (hstep : Step L d L') : Balance cap (drift + d) L' := by
  unfold Balance total at *
  cases hstep with
  | send hk => simp only; omega
  | deliver hk => simp only; omega
  | remove hk => simp only; omega
  | credit hk => simp only; omega

theorem step_zero (h : Balance cap 0 L) (hstep : Step L 0 L') : Balance cap 0 L' :=
  h.step hstep

/-- Without surplus, what arrives fits in the queue. -/
theorem stored_add_le (h : Balance cap drift L) (hd : drift ≤ 0) (hk : k ≤ L.sent) :
    L.stored + k ≤ cap := by
  unfold Balance total at h
  omega

/-- Without surplus, the sender never counts more credits than the capacity. -/
theorem held_add_le (h : Balance cap drift L) (hd : drift ≤ 0) (hk : k ≤ L.returning) :
    L.held + k ≤ cap := by
  unfold Balance total at h
  omega

end Balance

end CreditLoop
