import Mathlib.Data.List.Perm.Basic
import Olympia.Lib.Run
import Olympia.FlushManager

/-!
# Dispatch

`core/dispatch/Dispatch.cpp` and `Dispatcher.hpp`: instructions leave the dispatch queue in
order, each to a unit that can execute its target pipe and has a credit, and the group that was
dispatched in a cycle goes to the ROB as well.

Which units serve a target pipe is read from the topology when the unit is built, so it is a
parameter here.  The execution units are the issue queues and the LSU; `UnitId` names them and
their dispatchers.  `dispatchOne` is the body of the loop of `dispatchInstructions_`, which
tells whether the loop goes on.

Events, statistics and the weights of `context_weights` are not modelled: a run may dispatch at
any time.
-/

namespace Olympia

/-- An execution unit that Dispatch sends instructions to. -/
inductive UnitId where
  | iq (n : ℕ)
  | lsu
  deriving DecidableEq, Repr

/-- `DispatchParameterSet`, and the table from target pipes to dispatchers. -/
structure DispatchParams where
  numToDispatch : ℕ := 3
  dispatchQueueDepth : ℕ := 10
  dispatchers : TargetPipe → List UnitId
  dispatchQueueDepth_lt : dispatchQueueDepth < 2 ^ 32 := by
    first | exact u32_lt (nat_lit 10) | decide

/-- A `Dispatcher`. -/
structure DispatcherState where
  unitCredits : ℕ := 0
  numCanDispatch : ℕ := 1

structure DispatchState where
  dispatchQueue : List RenamedInst := []
  creditsRob : ℕ := 0
  dispatchers : UnitId → DispatcherState := fun _ => {}
  blockingDispatcher : TargetPipe := .int
  /-- `current_stall_`; `none` is `NOT_STALLED` -/
  currentStall : Option TargetPipe := none

/-- What `dispatchInstructions_` sends: the group to the ROB, and each instruction to the unit
of its dispatcher. -/
structure DispatchOut where
  toRob : List RenamedInst := []
  sends : List (UnitId × RenamedInst) := []

/-- The instructions sent to one unit. -/
def DispatchOut.toUnit (out : DispatchOut) (d : UnitId) : List RenamedInst :=
  (out.sends.filter fun x => x.1 = d).map Prod.snd

namespace DispatcherState

/-- `canAccept`. -/
def canAccept (d : DispatcherState) : Bool := d.unitCredits != 0 && d.numCanDispatch != 0

/-- `acceptInst`. -/
def acceptInst (d : DispatcherState) : Except Assertion DispatcherState := do
  spartaAssert (d.unitCredits ≠ 0) .dispatcherNoCredits
  spartaAssert (d.numCanDispatch ≠ 0) .dispatcherNoBandwidth
  return ⟨u32Sub d.unitCredits 1, d.numCanDispatch - 1⟩

/-- `reset`. -/
def reset (d : DispatcherState) : DispatcherState := { d with numCanDispatch := 1 }

end DispatcherState

namespace Dispatch

/-- `scheduleDispatchSession`, without the event it schedules. -/
def scheduleDispatchSession (p : DispatchParams) (s : DispatchState) : DispatchState :=
  if s.creditsRob > 0 ∧ s.dispatchQueue.length > 0 ∧
      (p.dispatchers s.blockingDispatcher).any (fun d => (s.dispatchers d).canAccept) then
    { s with blockingDispatcher := .unknown }
  else s

/-- `robCredits_`. -/
def robCredits (p : DispatchParams) (s : DispatchState) (nc : ℕ) : DispatchState :=
  scheduleDispatchSession p { s with creditsRob := u32Add s.creditsRob nc }

/-- `Dispatcher::receiveCredits_`. -/
def receiveCredits (p : DispatchParams) (s : DispatchState) (d : UnitId) (credits : ℕ) :
    DispatchState :=
  let disp := s.dispatchers d
  scheduleDispatchSession p { s with
    dispatchers := Function.update s.dispatchers d
      { disp with unitCredits := u32Add disp.unitCredits credits } }

/-- `dispatchQueueAppended_`. -/
def dispatchQueueAppended (p : DispatchParams) (s : DispatchState) (insts : List RenamedInst) :
    Except Assertion DispatchState := do
  spartaAssert (s.dispatchQueue.length + insts.length ≤ p.dispatchQueueDepth) .dispatchQueueFull
  return scheduleDispatchSession p { s with dispatchQueue := s.dispatchQueue ++ insts }

/-- The dispatcher with the most credits among those that can accept; the first of equals. -/
def bestDispatcher (s : DispatchState) (ds : List UnitId) : Option UnitId :=
  (ds.foldl (fun best d =>
    if (s.dispatchers d).canAccept ∧ (s.dispatchers d).unitCredits > best.2 then
      (some d, (s.dispatchers d).unitCredits)
    else best) ((none : Option UnitId), 0)).1

/-- The dispatcher an instruction goes to. -/
def chooseDispatcher (p : DispatchParams) (s : DispatchState) (pipe : TargetPipe) :
    Option UnitId :=
  if pipe ≠ .lsu then bestDispatcher s (p.dispatchers pipe)
  else (p.dispatchers pipe).find? fun d => (s.dispatchers d).canAccept

/-- Only the search of the LSU path notes that a dispatcher is blocking. -/
def noteBlocking (p : DispatchParams) (s : DispatchState) (pipe : TargetPipe) : TargetPipe :=
  if pipe = .lsu ∧ ((p.dispatchers pipe).head?.any fun d => !(s.dispatchers d).canAccept) then
    pipe
  else s.blockingDispatcher

/-- The body of the loop of `dispatchInstructions_`, and whether the loop goes on. -/
def dispatchOne (p : DispatchParams) (s : DispatchState) (T : InstTable) (out : DispatchOut) :
    Except Assertion (DispatchState × InstTable × DispatchOut × Bool) :=
  match s.dispatchQueue with
  | [] => .error .bufferEmpty
  | ri :: rest => do
    let pipe := ri.inst.pipe
    spartaAssert (pipe ≠ .unknown) .unknownTargetPipe
    spartaAssert (p.dispatchers pipe ≠ []) .noDispatcher
    let blocking := noteBlocking p s pipe
    match chooseDispatcher p s pipe with
    | some d => do
      let disp ← (s.dispatchers d).acceptInst
      return ({ s with
          dispatchQueue := rest
          creditsRob := u32Sub s.creditsRob 1
          dispatchers := Function.update s.dispatchers d disp
          blockingDispatcher := blocking },
        T.setStatus ri.key .dispatched,
        ⟨out.toRob ++ [ri], out.sends ++ [(d, ri)]⟩, true)
    | none =>
      return ({ s with currentStall := some pipe, blockingDispatcher := blocking }, T, out, false)

/-- The loop of `dispatchInstructions_`. -/
def dispatchLoop (p : DispatchParams) : ℕ → DispatchState → InstTable → DispatchOut →
    Except Assertion (DispatchState × InstTable × DispatchOut)
  | 0, s, T, out => .ok (s, T, out)
  | n + 1, s, T, out => do
    let (s, T, out, goOn) ← dispatchOne p s T out
    if goOn then dispatchLoop p n s T out else return (s, T, out)

/-- `dispatchInstructions_`.  The credits to Rename are the size of the group sent to the
ROB. -/
def dispatchInstructions (p : DispatchParams) (s : DispatchState) (T : InstTable) :
    Except Assertion (DispatchState × InstTable × DispatchOut) :=
  let numDispatch := min s.creditsRob (min s.dispatchQueue.length p.numToDispatch)
  if numDispatch = 0 then .ok (s, T, {})
  else do
    let (s, T, out) ← dispatchLoop p numDispatch { s with currentStall := none } T {}
    return ({ s with dispatchers := fun d => (s.dispatchers d).reset }, T, out)

/-- `handleFlush_`: the new state and the credits returned to Rename.  The group on the port to
the ROB is cancelled by the system. -/
def handleFlush (s : DispatchState) : DispatchState × ℕ :=
  ({ s with dispatchQueue := [] }, s.dispatchQueue.length)

/-! ## What dispatching does -/

section Frame

variable (p : DispatchParams) (s : DispatchState)

@[simp] theorem scheduleDispatchSession_dispatchQueue :
    (scheduleDispatchSession p s).dispatchQueue = s.dispatchQueue := by
  unfold scheduleDispatchSession
  split <;> rfl

@[simp] theorem scheduleDispatchSession_creditsRob :
    (scheduleDispatchSession p s).creditsRob = s.creditsRob := by
  unfold scheduleDispatchSession
  split <;> rfl

@[simp] theorem scheduleDispatchSession_dispatchers :
    (scheduleDispatchSession p s).dispatchers = s.dispatchers := by
  unfold scheduleDispatchSession
  split <;> rfl

end Frame

/-- The dispatcher chosen serves the pipe and can accept. -/
theorem chooseDispatcher_some {p : DispatchParams} {s : DispatchState} {pipe : TargetPipe}
    {d : UnitId} (h : chooseDispatcher p s pipe = some d) :
    d ∈ p.dispatchers pipe ∧ (s.dispatchers d).canAccept = true := by
  unfold chooseDispatcher at h
  split at h
  · -- the best so far is none of the list or an accepting element of it
    have hfold : ∀ (ds : List UnitId) (best : Option UnitId × ℕ),
        (∀ d, best.1 = some d → d ∈ p.dispatchers pipe ∧ (s.dispatchers d).canAccept = true) →
        (∀ d ∈ ds, d ∈ p.dispatchers pipe) →
        ∀ d, (ds.foldl (fun best d =>
          if (s.dispatchers d).canAccept ∧ (s.dispatchers d).unitCredits > best.2 then
            (some d, (s.dispatchers d).unitCredits)
          else best) best).1 = some d →
          d ∈ p.dispatchers pipe ∧ (s.dispatchers d).canAccept = true := by
      intro ds
      induction ds with
      | nil => exact fun best hbest _ d hd => hbest d hd
      | cons e ds ih =>
        intro best hbest hmem d hd
        rw [List.foldl_cons] at hd
        refine ih _ ?_ (fun d hd => hmem d (by simp [hd])) d hd
        intro d' hd'
        split at hd'
        · rename_i hacc
          obtain rfl : e = d' := Option.some.inj hd'
          exact ⟨hmem e (by simp), hacc.1⟩
        · exact hbest d' hd'
    exact hfold _ (none, 0) (by simp) (fun d hd => hd) d h
  · have hacc := List.find?_some (p := fun d => (s.dispatchers d).canAccept) h
    exact ⟨List.mem_of_find?_eq_some h, hacc⟩

/-- What dispatching has done: the group `new` is a prefix of the queue, `sends` distributes it
over the units, and every credit counter goes down by what was sent against it. -/
structure DispatchSpec (p : DispatchParams) (s s' : DispatchState) (T T' : InstTable)
    (out out' : DispatchOut) (new : List RenamedInst) (sends : List (UnitId × RenamedInst)) :
    Prop where
  toRob : out'.toRob = out.toRob ++ new
  sends_eq : out'.sends = out.sends ++ sends
  sends_new : sends.map Prod.snd = new
  queue : s.dispatchQueue = new ++ s'.dispatchQueue
  creditsRob : s'.creditsRob + new.length = s.creditsRob
  unitCredits : ∀ d, (s'.dispatchers d).unitCredits + (sends.filter fun x => x.1 = d).length =
    (s.dispatchers d).unitCredits
  serves : ∀ x ∈ sends, x.1 ∈ p.dispatchers x.2.inst.pipe
  status : T'.status = fun k => if k ∈ new.map RenamedInst.key then .dispatched else T.status k
  mispredicted : T'.mispredicted = T.mispredicted

theorem DispatchSpec.refl (p : DispatchParams) (s : DispatchState) (T : InstTable)
    (out : DispatchOut) : DispatchSpec p s s T T out out [] [] :=
  ⟨by simp, by simp, rfl, rfl, rfl, fun _ => rfl, by simp, by simp, rfl⟩

theorem DispatchSpec.trans {p : DispatchParams} {s s₁ s' : DispatchState}
    {T T₁ T' : InstTable} {out out₁ out' : DispatchOut} {new new₁ : List RenamedInst}
    {sends sends₁ : List (UnitId × RenamedInst)}
    (h : DispatchSpec p s s₁ T T₁ out out₁ new sends)
    (h₁ : DispatchSpec p s₁ s' T₁ T' out₁ out' new₁ sends₁) :
    DispatchSpec p s s' T T' out out' (new ++ new₁) (sends ++ sends₁) where
  toRob := by rw [h₁.toRob, h.toRob, List.append_assoc]
  sends_eq := by rw [h₁.sends_eq, h.sends_eq, List.append_assoc]
  sends_new := by rw [List.map_append, h.sends_new, h₁.sends_new]
  queue := by rw [h.queue, h₁.queue, List.append_assoc]
  creditsRob := by
    have := h.creditsRob
    have := h₁.creditsRob
    rw [List.length_append]
    omega
  unitCredits d := by
    have := h.unitCredits d
    have := h₁.unitCredits d
    rw [List.filter_append, List.length_append]
    omega
  serves x hx := by
    rcases List.mem_append.mp hx with hx | hx
    · exact h.serves x hx
    · exact h₁.serves x hx
  status := by
    rw [h₁.status, h.status]
    funext k
    simp only [List.map_append, List.mem_append]
    by_cases hk : k ∈ new₁.map RenamedInst.key
    · simp [hk]
    · simp [hk]
  mispredicted := h₁.mispredicted.trans h.mispredicted

theorem dispatchOne_spec {p : DispatchParams} {s s' : DispatchState} {T T' : InstTable}
    {out out' : DispatchOut} {goOn : Bool} (hpos : 0 < s.creditsRob)
    (hrob : s.creditsRob < 2 ^ 32) (hunit : ∀ d, (s.dispatchers d).unitCredits < 2 ^ 32)
    (h : dispatchOne p s T out = .ok (s', T', out', goOn)) :
    ∃ new sends, DispatchSpec p s s' T T' out out' new sends ∧
      (goOn = true → new.length = 1) := by
  unfold dispatchOne at h
  rcases hq : s.dispatchQueue with _ | ⟨ri, rest⟩
  · rw [hq] at h
    cases h
  · rw [hq] at h
    dsimp only at h
    obtain ⟨-, -, h⟩ := Run.bind_eq_ok.mp h
    obtain ⟨-, -, h⟩ := Run.bind_eq_ok.mp h
    rcases hch : chooseDispatcher p s ri.inst.pipe with _ | d
    · simp only [hch] at h
      cases Except.ok.inj h
      refine ⟨[], [], ⟨by simp, by simp, rfl, by simp [hq], rfl, fun _ => rfl, by simp,
        by simp, rfl⟩, by simp⟩
    · simp only [hch] at h
      obtain ⟨disp, hacc, h⟩ := Run.bind_eq_ok.mp h
      cases Except.ok.inj h
      obtain ⟨hserves, hcan⟩ := chooseDispatcher_some hch
      have hne : (s.dispatchers d).unitCredits ≠ 0 := by
        intro h0
        simp [DispatcherState.canAccept, h0] at hcan
      have hdisp : disp.unitCredits + 1 = (s.dispatchers d).unitCredits := by
        obtain ⟨-, -, hacc⟩ := Run.bind_eq_ok.mp hacc
        obtain ⟨-, -, hacc⟩ := Run.bind_eq_ok.mp hacc
        cases Except.ok.inj hacc
        show u32Sub _ 1 + 1 = _
        rw [u32Sub_of_le (by omega) (hunit d)]
        omega
      refine ⟨[ri], [(d, ri)], ⟨rfl, rfl, rfl, by simp [hq], ?_, ?_, ?_, ?_, rfl⟩, by simp⟩
      · show u32Sub _ 1 + 1 = _
        rw [u32Sub_of_le (by omega) hrob]
        omega
      · intro e
        by_cases he : d = e
        · subst he
          simpa using hdisp
        · simp [he, Function.update_of_ne (Ne.symm he)]
      · intro x hx
        obtain rfl : x = (d, ri) := by simpa using hx
        exact hserves
      · funext k
        by_cases hk : k = ri.key
        · simp [hk, InstTable.setStatus]
        · simp [hk, InstTable.setStatus]

theorem dispatchLoop_spec {p : DispatchParams} :
    ∀ (n : ℕ) {s s' : DispatchState} {T T' : InstTable} {out out' : DispatchOut},
      n ≤ s.creditsRob → s.creditsRob < 2 ^ 32 →
      (∀ d, (s.dispatchers d).unitCredits < 2 ^ 32) →
      dispatchLoop p n s T out = .ok (s', T', out') →
      ∃ new sends, DispatchSpec p s s' T T' out out' new sends
  | 0, s, s', T, T', out, out', _, _, _, h => by
    cases Except.ok.inj h
    exact ⟨[], [], .refl p _ _ _⟩
  | n + 1, s, s', T, T', out, out', hn, hrob, hunit, h => by
    obtain ⟨⟨s₁, T₁, out₁, goOn⟩, hone, h⟩ := Run.bind_eq_ok.mp h
    obtain ⟨new, sends, D, hgo⟩ := dispatchOne_spec (by omega) hrob hunit hone
    dsimp only at h
    split at h
    · rename_i hgoOn
      have hlen := hgo hgoOn
      have hcred := D.creditsRob
      obtain ⟨new₁, sends₁, D₁⟩ := dispatchLoop_spec n (by omega) (by omega)
        (fun d => by have := D.unitCredits d; have := hunit d; omega) h
      exact ⟨_, _, D.trans D₁⟩
    · cases Except.ok.inj h
      exact ⟨new, sends, D⟩

/-- `dispatchInstructions_` takes one credit of the ROB and one of a unit for each instruction
it dispatches, and no counter wraps. -/
theorem dispatchInstructions_spec {p : DispatchParams} {s s' : DispatchState}
    {T T' : InstTable} {out : DispatchOut} (hrob : s.creditsRob < 2 ^ 32)
    (hunit : ∀ d, (s.dispatchers d).unitCredits < 2 ^ 32)
    (h : dispatchInstructions p s T = .ok (s', T', out)) :
    DispatchSpec p s s' T T' {} out out.toRob out.sends := by
  unfold dispatchInstructions at h
  dsimp only at h
  split at h
  · cases Except.ok.inj h
    exact .refl p _ _ _
  · obtain ⟨⟨s₁, T₁, out₁⟩, hloop, h⟩ := Run.bind_eq_ok.mp h
    obtain ⟨new, sends, D⟩ := dispatchLoop_spec (s := { s with currentStall := none }) _
      (Nat.min_le_left _ _) hrob hunit hloop
    cases Except.ok.inj h
    have htoRob : out₁.toRob = new := by simpa using D.toRob
    have hsends : out₁.sends = sends := by simpa using D.sends_eq
    rw [htoRob, hsends]
    exact ⟨D.toRob, D.sends_eq, D.sends_new, D.queue, D.creditsRob, D.unitCredits, D.serves,
      D.status, D.mispredicted⟩

/-- The assertions at which dispatching can stop. -/
def dispatchAssertions : List Assertion :=
  [.bufferEmpty, .unknownTargetPipe, .noDispatcher, .dispatcherNoCredits,
    .dispatcherNoBandwidth]

theorem dispatchOne_failsIn {p : DispatchParams} (s : DispatchState) (T : InstTable)
    (out : DispatchOut) : Run.FailsIn (· ∈ dispatchAssertions) (dispatchOne p s T out) := by
  unfold dispatchOne
  split
  · exact .error (by simp [dispatchAssertions])
  · refine .bind (spartaAssert_failsIn (by simp [dispatchAssertions])) fun _ => ?_
    refine .bind (spartaAssert_failsIn (by simp [dispatchAssertions])) fun _ => ?_
    dsimp only
    split
    · refine .bind ?_ fun _ => .ok _
      refine .bind (spartaAssert_failsIn (by simp [dispatchAssertions])) fun _ => ?_
      exact .bind (spartaAssert_failsIn (by simp [dispatchAssertions])) fun _ => .ok _
    · exact .ok _

theorem dispatchInstructions_failsIn {p : DispatchParams} (s : DispatchState) (T : InstTable) :
    Run.FailsIn (· ∈ dispatchAssertions) (dispatchInstructions p s T) := by
  have hloop : ∀ (n : ℕ) (s : DispatchState) (T : InstTable) (out : DispatchOut),
      Run.FailsIn (· ∈ dispatchAssertions) (dispatchLoop p n s T out) := by
    intro n
    induction n with
    | zero => exact fun s T out => .ok _
    | succ n ih =>
      intro s T out
      refine (dispatchOne_failsIn s T out).bind fun st => ?_
      dsimp only
      split
      · exact ih _ _ _
      · exact .ok _
  unfold dispatchInstructions
  dsimp only
  split
  · exact .ok _
  · exact (hloop _ _ _ _).bind fun st => .ok _

end Dispatch

end Olympia
