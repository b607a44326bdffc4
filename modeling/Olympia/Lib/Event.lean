import Mathlib.Data.Nat.Notation

/-!
# Events of a simulator that runs in cycles

A unique event is scheduled for this cycle or for the next one.  It runs at some time in the cycle
it is scheduled for, once at most: scheduling it again for a cycle changes nothing, neither while
it is due nor when it has run.  A cycle ends only when no event is due.

`UniqueEvent.Pending` is what a wakeup argument keeps: the event has been scheduled and has not
run.  A wakeup for this cycle makes an event pending unless it has run in the cycle
(`pending_scheduleNow`), so a wakeup argument also says why the wakeups come before the run.  At
the end of a cycle a pending event is scheduled for the next one (`Pending.next_of_now`).

A `SingleCycleEvent` keeps a record of a wakeup that came too late; `SingleCycleEvent.Awake` is
what is kept in spite of such wakeups.
-/

/-- Whether an event is due in this cycle, whether it is due in the next one, and whether it has
run in this one. -/
structure UniqueEvent where
  now : Bool := false
  next : Bool := false
  ran : Bool := false
  deriving DecidableEq, Repr

namespace UniqueEvent

/-- `schedule(0)`. -/
def scheduleNow (e : UniqueEvent) : UniqueEvent := if e.ran then e else { e with now := true }

/-- `schedule(1)`. -/
def scheduleNext (e : UniqueEvent) : UniqueEvent := { e with next := true }

/-- The event runs. -/
def fire (e : UniqueEvent) : UniqueEvent := { e with now := false, ran := true }

/-- The cycle ends. -/
def nextCycle (e : UniqueEvent) : UniqueEvent := { now := e.next }

/-- The event has been scheduled and has not run. -/
def Pending (e : UniqueEvent) : Prop := e.now = true ∨ e.next = true

instance (e : UniqueEvent) : Decidable e.Pending := inferInstanceAs (Decidable (_ ∨ _))

variable {e : UniqueEvent}

theorem scheduleNow_now (h : e.ran = false) : e.scheduleNow.now = true := by
  rw [scheduleNow, if_neg (by simp [h])]

@[simp] theorem scheduleNow_next : e.scheduleNow.next = e.next := by
  unfold scheduleNow
  split <;> rfl

@[simp] theorem scheduleNow_ran : e.scheduleNow.ran = e.ran := by
  unfold scheduleNow
  split <;> rfl

@[simp] theorem scheduleNext_now : e.scheduleNext.now = e.now := rfl

@[simp] theorem scheduleNext_next : e.scheduleNext.next = true := rfl

@[simp] theorem scheduleNext_ran : e.scheduleNext.ran = e.ran := rfl

@[simp] theorem fire_now : e.fire.now = false := rfl

@[simp] theorem fire_next : e.fire.next = e.next := rfl

@[simp] theorem fire_ran : e.fire.ran = true := rfl

@[simp] theorem nextCycle_now : e.nextCycle.now = e.next := rfl

@[simp] theorem nextCycle_next : e.nextCycle.next = false := rfl

@[simp] theorem nextCycle_ran : e.nextCycle.ran = false := rfl

theorem pending_scheduleNow (h : e.ran = false) : e.scheduleNow.Pending :=
  .inl (scheduleNow_now h)

@[simp] theorem pending_scheduleNext : e.scheduleNext.Pending := .inr rfl

/-- A wakeup is not needed while the event is pending, and does no harm. -/
theorem Pending.scheduleNow (h : e.Pending) : e.scheduleNow.Pending := by
  unfold UniqueEvent.scheduleNow
  split
  · exact h
  · exact .inl rfl

theorem Pending.next_of_now (h : e.Pending) (hnow : e.now = false) : e.next = true := by
  rcases h with h | h
  · rw [hnow] at h
    cases h
  · exact h

/-- Nothing is lost when a cycle ends in which the event is no longer due. -/
theorem Pending.nextCycle (h : e.Pending) (hnow : e.now = false) : e.nextCycle.Pending :=
  .inl (h.next_of_now hnow)

theorem pending_fire_scheduleNext : e.fire.scheduleNext.Pending := .inr rfl

end UniqueEvent

/-! ## Wakeups that come too late -/

/-- A unique event with a record of its wakeups: `missed` says that one has come to nothing, since
the event had run in the cycle and was not due in the next one, and that the event has not been
scheduled since. -/
structure SingleCycleEvent extends UniqueEvent where
  missed : Bool := false
  deriving DecidableEq, Repr

namespace SingleCycleEvent

/-- `schedule(0)`. -/
def scheduleNow (e : SingleCycleEvent) : SingleCycleEvent :=
  { toUniqueEvent := e.toUniqueEvent.scheduleNow, missed := e.ran && !e.next }

/-- `schedule(1)`. -/
def scheduleNext (e : SingleCycleEvent) : SingleCycleEvent :=
  { toUniqueEvent := e.toUniqueEvent.scheduleNext, missed := false }

/-- The event runs. -/
def fire (e : SingleCycleEvent) : SingleCycleEvent :=
  { toUniqueEvent := e.toUniqueEvent.fire, missed := false }

/-- The cycle ends. -/
def nextCycle (e : SingleCycleEvent) : SingleCycleEvent :=
  { e with toUniqueEvent := e.toUniqueEvent.nextCycle }

/-- The event is pending, or the last wakeup was missed. -/
def Awake (e : SingleCycleEvent) : Prop := e.Pending ∨ e.missed = true

instance (e : SingleCycleEvent) : Decidable e.Awake := inferInstanceAs (Decidable (_ ∨ _))

variable {e : SingleCycleEvent}

theorem awake_scheduleNow : e.scheduleNow.Awake := by
  cases hran : e.ran with
  | false => exact .inl (UniqueEvent.pending_scheduleNow hran)
  | true =>
    cases hnext : e.next with
    | false => exact .inr (by simp [scheduleNow, hran, hnext])
    | true => exact .inl (.inr (by simp [scheduleNow, hnext]))

theorem awake_scheduleNext : e.scheduleNext.Awake := .inl (.inr rfl)

/-- Nothing is lost when a cycle ends in which the event is no longer due. -/
theorem Awake.nextCycle (h : e.Awake) (hnow : e.now = false) : e.nextCycle.Awake := by
  rcases h with h | h
  · exact .inl (.inl (h.next_of_now hnow))
  · exact .inr h

end SingleCycleEvent
