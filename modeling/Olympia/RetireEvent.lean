import Olympia.Lib.Event
import Olympia.Core

/-!
# The retire event

The ROB with its event `ev_retire_`, in step with Rename and Dispatch.  The event is scheduled
for this cycle when a group is appended, for the next one when a session ends with a completed
instruction at the front, and otherwise by the front itself: a session marks it as the oldest and
registers the event with it (`setOldest`), and `setStatus` schedules the registered event when
the instruction completes.  A session that finds a flush expected returns at once and schedules
nothing.

`RetireEvent.Awake` holds of every reachable state, also in the middle of a cycle: there is
nothing to retire, or a flush is expected, or the event is pending, or the front will schedule it.
A flush that the ROB expects leaves the buffer empty, so nothing depends on the sessions that
were skipped.
-/

namespace Olympia

/-- A flush, if there is one, empties the reorder buffer. -/
theorem InStep.Ordered.rob_of_flush {p : RenameParams} {x0 : ℕ} {pd : DispatchParams}
    {pr : RobParams} {s s' : InStep} (H : Ordered p x0 s)
    (hstep : s.step p pd pr .flush = .ok s') :
    (s'.rob = s.rob ∧ s'.table = s.table) ∨ s'.rob.reorderBuffer = [] := by
  have hqueue := (H.step hstep).queue
  obtain ⟨-, -, hcase⟩ := H.flush_spec hstep
  cases step_stepped hstep with
  | noFlush _ _ _ => exact .inl ⟨rfl, rfl⟩
  | flush _ _ hforward _ _ =>
    rw [hforward] at hcase
    rw [hcase.1] at hqueue
    have hnil := (List.append_eq_nil_iff.mp hqueue.symm).2
    simp only [unretired, List.append_eq_nil_iff] at hnil
    exact .inr hnil.1.1.1

structure RetireEvent where
  sys : InStep
  evRetire : UniqueEvent := {}
  /-- the instructions that `setOldest` has marked, and registered `ev_retire_` with -/
  oldest : InstKey → Bool := fun _ => false

namespace RetireEvent

/-- What follows the loop of `retireInstructions_`: the front is completed and the next session
scheduled, or the front is marked as the oldest. -/
def afterRetire (s : RetireEvent) : RetireEvent :=
  match s.sys.rob.reorderBuffer with
  | [] => s
  | oldestInst :: _ =>
    if s.sys.table.status oldestInst.key = .completed then
      { s with evRetire := s.evRetire.scheduleNext }
    else { s with oldest := Function.update s.oldest oldestInst.key true }

/-- What `robAppended_`, `setStatus` and the retire session do with the event, in a step from `s`
that leads the units to `sys`. -/
def react (s : RetireEvent) (sys : InStep) : InStepOp → RetireEvent
  | .decoded insts =>
    -- new instruction objects
    { s with
      sys := sys
      oldest := fun k => if k ∈ insts.map Inst.key then false else s.oldest k }
  | .deliverDispatched =>
    { s with
      sys := sys
      evRetire := if s.sys.toRob = [] then s.evRetire else s.evRetire.scheduleNow }
  | .complete k _ =>
    { s with
      sys := sys
      evRetire := if s.oldest k then s.evRetire.scheduleNext else s.evRetire }
  | .retire =>
    let s' := { s with sys := sys, evRetire := s.evRetire.fire }
    if s.sys.rob.expectFlush then s' else s'.afterRetire
  | .nextCycle => { s with sys := sys, evRetire := s.evRetire.nextCycle }
  | _ => { s with sys := sys }

/-- A group is appended in the port phase, before the retire session of the cycle.  The session
runs when its event is due, and the cycle ends when the event is not. -/
def isDue (s : RetireEvent) : InStepOp → Bool
  | .deliverDispatched => !s.evRetire.ran
  | .retire => s.evRetire.now
  | .nextCycle => !s.evRetire.now
  | _ => true

variable {p : RenameParams} {x0 : ℕ} {pd : DispatchParams} {pr : RobParams}

def step (p : RenameParams) (pd : DispatchParams) (pr : RobParams) (s : RetireEvent)
    (op : InStepOp) : Except Stop RetireEvent := do
  enabled (s.isDue op)
  let sys ← s.sys.step p pd pr op
  return s.react sys op

def init (p : RenameParams) (x0 : ℕ) : RetireEvent := { sys := .init p x0 }

/-- The front of the buffer, unless a flush is expected, has the event pending or will schedule
it when it completes. -/
def Awake (s : RetireEvent) : Prop :=
  ∀ ri rest, s.sys.rob.reorderBuffer = ri :: rest → s.sys.rob.expectFlush = false →
    s.evRetire.Pending ∨ (s.sys.table.status ri.key ≠ .completed ∧ s.oldest ri.key = true)

variable {s s' : RetireEvent} {sys : InStep}

/-- A step that leaves the buffer and completes nothing. -/
theorem Awake.of_still (H : s.Awake) (hbuf : s'.sys.rob = s.sys.rob)
    (hev : s.evRetire.Pending → s'.evRetire.Pending)
    (hfront : ∀ ri rest, s.sys.rob.reorderBuffer = ri :: rest →
      s.sys.table.status ri.key ≠ .completed → s.oldest ri.key = true →
      s'.evRetire.Pending ∨ (s'.sys.table.status ri.key ≠ .completed ∧ s'.oldest ri.key = true)) :
    s'.Awake := by
  intro ri rest hri hexp
  rw [hbuf] at hri hexp
  rcases H ri rest hri hexp with h | ⟨hst, hold⟩
  · exact .inl (hev h)
  · exact hfront ri rest hri hst hold

/-- A session that does not return early sees to the front it leaves. -/
theorem awake_afterRetire (s : RetireEvent) : s.afterRetire.Awake := by
  intro ri rest hri _
  unfold afterRetire at hri ⊢
  rcases hbuf : s.sys.rob.reorderBuffer with _ | ⟨rj, rest'⟩
  · simp [hbuf] at hri
  · simp only [hbuf] at hri ⊢
    split at hri
    · rename_i hdone
      rw [if_pos hdone]
      exact .inl UniqueEvent.pending_scheduleNext
    · rename_i hdone
      rw [if_neg hdone]
      obtain ⟨rfl, -⟩ := List.cons.inj (hbuf.symm.trans hri)
      exact .inr ⟨hdone, Function.update_self _ _ _⟩

/-- What has been decoded before the group is not one of the group. -/
theorem key_not_decoded {insts : List Inst} {ri : RenamedInst} (O : InStep.Ordered p x0 s.sys)
    (horder : inProgramOrder s.sys.lastDecoded insts = true)
    (hri : ri ∈ s.sys.rob.reorderBuffer) : ri.key ∉ insts.map Inst.key := by
  intro hmem
  obtain ⟨j, hj, hkey⟩ := List.mem_map.mp hmem
  obtain ⟨-, hfol, -⟩ := inProgramOrder_spec horder
  have hqueue : ri ∈ s.sys.rename.instQueue := by
    rw [O.queue]
    simp [InStep.unretired, hri]
  exact Inst.key_ne_of_before
    (O.youngest _ (InStep.Ordered.mem_insts_of_queue hqueue) j (hfol j hj)) hkey.symm

namespace Awake

/-- A step of another unit. -/
theorem other {op : InStepOp} (H : s.Awake) (hreact : s.react sys op = { s with sys := sys })
    (hrob : sys.rob = s.sys.rob)
    (htable : ∀ k, sys.table.status k = s.sys.table.status k ∨ sys.table.status k ≠ .completed) :
    (s.react sys op).Awake := by
  rw [hreact]
  refine H.of_still hrob id fun ri rest _ hst hold => .inr ⟨?_, hold⟩
  rcases htable ri.key with h | h
  · rw [h]
    exact hst
  · exact h

theorem decoded {insts : List Inst} (O : InStep.Ordered p x0 s.sys) (H : s.Awake)
    (hstep : s.sys.step p pd pr (.decoded insts) = .ok sys) :
    (s.react sys (.decoded insts)).Awake := by
  cases InStep.step_stepped hstep with
  | decoded _ horder =>
    refine H.of_still rfl id fun ri rest hri hst hold => .inr ?_
    have hkey := key_not_decoded O horder (by rw [hri]; exact List.mem_cons_self)
    dsimp only [react]
    rw [if_neg hkey, if_neg hkey]
    exact ⟨hst, hold⟩

theorem deliverDispatched (H : s.Awake) (hran : s.evRetire.ran = false)
    (hstep : s.sys.step p pd pr .deliverDispatched = .ok sys) :
    (s.react sys .deliverDispatched).Awake := by
  cases InStep.step_stepped hstep
  by_cases hport : s.sys.toRob = []
  · -- nothing has been sent
    refine H.of_still (by simp [react, hport]) ?_ fun ri rest _ hst hold => .inr ⟨hst, hold⟩
    intro hev
    simpa [react, hport] using hev
  · intro ri rest _ _
    refine .inl ?_
    simp only [react, if_neg hport]
    exact UniqueEvent.pending_scheduleNow hran

theorem retire (hstep : s.sys.step p pd pr .retire = .ok sys) :
    (s.react sys .retire).Awake := by
  unfold react
  by_cases hexp : s.sys.rob.expectFlush = true
  · cases InStep.step_stepped hstep with
    | retire _ hret =>
      obtain ⟨rfl, -, -⟩ := (Rob.retireInstructions_spec hret).2 hexp
      rw [if_pos hexp]
      intro ri rest _ hnot
      rw [show s.sys.rob.expectFlush = false from hnot] at hexp
      cases hexp
  · rw [if_neg hexp]
    exact awake_afterRetire _

theorem complete {k : InstKey} {mispredicted : Bool} (H : s.Awake)
    (hstep : s.sys.step p pd pr (.complete k mispredicted) = .ok sys) :
    (s.react sys (.complete k mispredicted)).Awake := by
  cases InStep.step_stepped hstep
  refine H.of_still rfl (fun hev => ?_) fun ri rest _ hst hold => ?_
  · dsimp only [react]
    split
    · exact UniqueEvent.pending_scheduleNext
    · exact hev
  · by_cases hkey : ri.key = k
    · -- the front itself completes, and schedules the event
      subst hkey
      refine .inl ?_
      simp [react, hold]
    · exact .inr ⟨by simpa [react, hkey] using hst, hold⟩

theorem flush (O : InStep.Ordered p x0 s.sys) (H : s.Awake)
    (hstep : s.sys.step p pd pr .flush = .ok sys) : (s.react sys .flush).Awake := by
  rcases O.rob_of_flush hstep with ⟨hrob, htable⟩ | hempty
  · exact H.other rfl hrob fun k => .inl (by rw [htable])
  · intro ri rest hri
    rw [show sys.rob.reorderBuffer = ri :: rest from hri] at hempty
    cases hempty

theorem step {op : InStepOp} (O : InStep.Ordered p x0 s.sys) (H : s.Awake)
    (hstep : s.step p pd pr op = .ok s') : s'.Awake := by
  obtain ⟨u, hdue, hstep⟩ := Run.bind_eq_ok.mp hstep
  obtain ⟨sys, hsys, hstep⟩ := Run.bind_eq_ok.mp hstep
  obtain rfl := Except.ok.inj hstep
  have hdue := enabled_eq_ok.mp hdue
  cases InStep.step_stepped hsys with
  | decoded => exact H.decoded O hsys
  | deliverDispatched => exact H.deliverDispatched (by simpa [isDue] using hdue) hsys
  | retire => exact .retire hsys
  | complete => exact H.complete hsys
  | flush | noFlush => exact H.flush O hsys
  | nextCycle =>
    have hnow : s.evRetire.now = false := by simpa [isDue] using hdue
    exact H.of_still rfl (fun hev => hev.nextCycle hnow)
      fun ri rest _ hst hold => .inr ⟨hst, hold⟩
  | dispatch _ hdisp =>
    have D := Dispatch.dispatchInstructions_spec O.rob_lt O.unit_lt hdisp
    refine H.other rfl rfl fun k => ?_
    dsimp only
    rw [D.status]
    dsimp only
    split
    · exact .inr (by simp)
    · exact .inl rfl
  | rename =>
    refine H.other rfl rfl fun k => ?_
    dsimp only [InstTable.setStatuses]
    split
    · exact .inr (by simp)
    · exact .inl rfl
  | _ => exact H.other rfl rfl fun _ => .inl rfl

end Awake

/-- Every reachable state is awake. -/
theorem reachable_awake
    (h : Run.Reachable (step p pd pr) (init p x0) s) : InStep.Inv p x0 s.sys ∧ s.Awake := by
  refine h.invariant (I := fun s => InStep.Inv p x0 s.sys ∧ s.Awake)
    ⟨InStep.inv_init p x0, fun ri rest hri => by cases hri⟩ ?_
  rintro op s s' ⟨I, H⟩ hstep
  refine ⟨?_, H.step I.toOrdered hstep⟩
  obtain ⟨-, -, hstep⟩ := Run.bind_eq_ok.mp hstep
  obtain ⟨sys, hsys, hstep⟩ := Run.bind_eq_ok.mp hstep
  obtain rfl := Except.ok.inj hstep
  have hsame : (s.react sys op).sys = sys := by
    cases op <;> simp only [react]
    split
    · rfl
    · unfold afterRetire
      split
      · rfl
      · split <;> rfl
  rw [hsame]
  exact I.step hsys

end RetireEvent

/-- At the end of a cycle, when the retire event is no longer due in it, a non-empty reorder buffer
that expects no flush has the event scheduled for the next cycle, or has a front that is not
completed, is marked as the oldest, and will schedule the event when it completes. -/
theorem rob_not_asleep (p : RenameParams) (x0 : ℕ) (pd : DispatchParams) (pr : RobParams)
    {s : RetireEvent} (hs : Run.Reachable (RetireEvent.step p pd pr) (RetireEvent.init p x0) s)
    (hend : s.evRetire.now = false) {ri : RenamedInst} {rest : List RenamedInst}
    (hbuf : s.sys.rob.reorderBuffer = ri :: rest) (hexp : s.sys.rob.expectFlush = false) :
    s.evRetire.next = true ∨
      (s.sys.table.status ri.key ≠ .completed ∧ s.oldest ri.key = true) := by
  rcases (RetireEvent.reachable_awake hs).2 ri rest hbuf hexp with hev | hfront
  · exact .inl (hev.next_of_now hend)
  · exact .inr hfront

/-- Two instructions reach the ROB; the first session marks the older one, which completes in the
same cycle. -/
def oldestOps : List InStepOp :=
  [.dispatchCredits 10, .robCredits 30, .unitCredits (.iq 0) 8, .unitCredits (.iq 1) 8,
   .nextCycle,
   .decoded [{ uniqueId := 1, programId := 1 }, { uniqueId := 2, programId := 2 }],
   .flush, .rename, .nextCycle, .deliverRenamed, .flush, .dispatch, .nextCycle,
   .deliverDispatched, .flush, .retire, .complete (1, 0) false]

theorem rob_not_asleep_sample :
    ∃ s ri rest, Run.Reachable (RetireEvent.step {} { dispatchers := fun _ => [.iq 0, .iq 1] } {})
        (RetireEvent.init {} 0) s ∧ s.sys.rob.reorderBuffer = ri :: rest ∧
      (s.evRetire.next = true ∨
        (s.sys.table.status ri.key ≠ .completed ∧ s.oldest ri.key = true)) := by
  have heval : (oldestOps.foldlM
      (RetireEvent.step {} { dispatchers := fun _ => [.iq 0, .iq 1] } {})
      (RetireEvent.init {} 0)).toOption.map
        (fun s => (s.evRetire.now, s.sys.rob.expectFlush, s.sys.rob.reorderBuffer.length)) =
      some (false, false, 2) := by
    decide +kernel
  obtain ⟨s, hs, hval⟩ := Run.ok_of_eval heval
  obtain ⟨hnow, hval⟩ := Prod.mk.inj hval
  obtain ⟨hexp, hlen⟩ := Prod.mk.inj hval
  obtain ⟨ri, rest, hbuf⟩ := List.exists_cons_of_length_pos (by rw [hlen]; decide)
  exact ⟨s, ri, rest, ⟨_, hs⟩, hbuf, rob_not_asleep {} 0 _ {} ⟨_, hs⟩ hnow hbuf hexp⟩

end Olympia
