import Olympia.Lib.Event
import Olympia.Dispatch

/-!
# The dispatch event

Dispatch with its event `ev_dispatch_insts_`, among groups from Rename, credits and flushes in any
order.  The event is a `SingleCycleUniqueEvent`: an arrival that comes after it has run in a cycle
schedules nothing.

A session can end with work that it could go on with.  It is scheduled again only if it has not
stalled, and it also stalls when every dispatcher for the front has accepted an instruction in
this session, whatever credits they have (`Dispatch.stallsForBandwidth`).  And what arrives later
schedules a session only if a dispatcher for `blocking_dispatcher_` can accept, which is the pipe
of an instruction that was at the front some time ago, or the one of the constructor.
`dispatch_not_asleep` is about the runs in which neither happens.
-/

namespace Olympia

namespace Dispatch

/-- `scheduleDispatchSession` schedules the event. -/
def schedules (p : DispatchParams) (s : DispatchState) : Bool :=
  s.creditsRob > 0 && s.dispatchQueue.length > 0 &&
    (s.blockingDispatcher = .unknown ||
      (p.dispatchers s.blockingDispatcher).any fun d => (s.dispatchers d).canAccept)

/-- The front instruction could be dispatched: there is a credit of the ROB and one of a unit. -/
def Dispatchable (p : DispatchParams) (s : DispatchState) : Prop :=
  0 < s.creditsRob ∧ ∃ ri ∈ s.dispatchQueue.head?,
    ∃ d ∈ p.dispatchers ri.inst.pipe, (s.dispatchers d).unitCredits ≠ 0

instance (p : DispatchParams) (s : DispatchState) : Decidable (Dispatchable p s) :=
  inferInstanceAs (Decidable (_ ∧ _))

/-- The session, with `n` instructions still to dispatch, stops at one although a unit for it has
a credit. -/
def stallsForBandwidth (p : DispatchParams) : ℕ → DispatchState → Bool
  | 0, _ => false
  | n + 1, s =>
    match s.dispatchQueue with
    | [] => false
    | ri :: rest =>
      match chooseDispatcher p s ri.inst.pipe with
      | some d => stallsForBandwidth p n { s with
          dispatchQueue := rest
          dispatchers := Function.update s.dispatchers d
            ⟨u32Sub (s.dispatchers d).unitCredits 1, (s.dispatchers d).numCanDispatch - 1⟩ }
      | none => (p.dispatchers ri.inst.pipe).any fun d => (s.dispatchers d).unitCredits ≠ 0

/-- The number of instructions a session dispatches at most. -/
def numDispatch (p : DispatchParams) (s : DispatchState) : ℕ :=
  min s.creditsRob (min s.dispatchQueue.length p.numToDispatch)

theorem dispatchable_congr {p : DispatchParams} {s s' : DispatchState}
    (hrob : s'.creditsRob = s.creditsRob) (hqueue : s'.dispatchQueue = s.dispatchQueue)
    (hunits : ∀ d, (s'.dispatchers d).unitCredits = (s.dispatchers d).unitCredits) :
    Dispatchable p s' ↔ Dispatchable p s := by
  simp only [Dispatchable, hrob, hqueue, hunits]

/-- The two dispatchers and the queue are all that the prediction of a stall looks at. -/
theorem stallsForBandwidth_congr {p : DispatchParams} : ∀ (n : ℕ) {s s' : DispatchState},
    s'.dispatchQueue = s.dispatchQueue → s'.dispatchers = s.dispatchers →
    stallsForBandwidth p n s' = stallsForBandwidth p n s
  | 0, _, _, _, _ => rfl
  | n + 1, s, s', hqueue, hdisp => by
    have hchoose : ∀ pipe, chooseDispatcher p s' pipe = chooseDispatcher p s pipe := by
      intro pipe
      simp only [chooseDispatcher, bestDispatcher, hdisp]
    unfold stallsForBandwidth
    rw [hqueue]
    rcases s.dispatchQueue with _ | ⟨ri, rest⟩
    · rfl
    · dsimp only
      rw [hchoose]
      split
      · exact stallsForBandwidth_congr n rfl (by simp only [hdisp])
      · simp only [hdisp]

/-- A session that does not stall for bandwidth has not stalled, or leaves a front that cannot be
dispatched. -/
theorem dispatchLoop_stops {p : DispatchParams} : ∀ (n : ℕ) {s s' : DispatchState}
    {T T' : InstTable} {out out' : DispatchOut},
    dispatchLoop p n s T out = .ok (s', T', out') → s.currentStall = none →
    stallsForBandwidth p n s = false → s'.currentStall = none ∨ ¬Dispatchable p s'
  | 0, s, s', T, T', out, out', h, hstall, _ => by
    cases Except.ok.inj h
    exact .inl hstall
  | n + 1, s, s', T, T', out, out', h, hstall, hband => by
    obtain ⟨⟨s₁, T₁, out₁, goOn⟩, hone, h⟩ := Run.bind_eq_ok.mp h
    unfold dispatchOne at hone
    unfold stallsForBandwidth at hband
    rcases hq : s.dispatchQueue with _ | ⟨ri, rest⟩
    · rw [hq] at hone
      cases hone
    · rw [hq] at hone hband
      dsimp only at hone hband h
      obtain ⟨-, -, hone⟩ := Run.bind_eq_ok.mp hone
      obtain ⟨-, -, hone⟩ := Run.bind_eq_ok.mp hone
      rcases hch : chooseDispatcher p s ri.inst.pipe with _ | d
      · -- the session stops here, and no unit for the front has a credit
        simp only [hch] at hone hband
        cases Except.ok.inj hone
        cases Except.ok.inj h
        refine .inr ?_
        rintro ⟨-, rj, hrj, d, hd, hunit⟩
        obtain rfl := Option.some.inj hrj
        exact hunit (by simpa using List.any_eq_false.mp hband d hd)
      · simp only [hch] at hone hband
        obtain ⟨disp, hacc, hone⟩ := Run.bind_eq_ok.mp hone
        obtain ⟨-, -, hacc⟩ := Run.bind_eq_ok.mp hacc
        obtain ⟨-, -, hacc⟩ := Run.bind_eq_ok.mp hacc
        obtain rfl := Except.ok.inj hacc
        cases Except.ok.inj hone
        refine dispatchLoop_stops n h hstall ((stallsForBandwidth_congr n ?_ ?_).trans hband)
        · rfl
        · rfl

end Dispatch

/-! ## The system -/

structure DispatchEvent where
  dispatch : DispatchState := {}
  table : InstTable := ⟨fun _ => .beforeFetch, fun _ => false⟩
  evDispatch : UniqueEvent := {}

inductive DispatchEventOp where
  /-- a group from Rename arrives -/
  | appended (insts : List RenamedInst)
  | robCredits (credits : ℕ)
  | unitCredits (d : UnitId) (credits : ℕ)
  | flush
  | dispatch
  | nextCycle

namespace DispatchEvent

/-- `scheduleDispatchSession`, when a handler has made `d` of the state of Dispatch. -/
def arrive (p : DispatchParams) (s : DispatchEvent) (d : DispatchState) : DispatchEvent :=
  { s with
    dispatch := Dispatch.scheduleDispatchSession p d
    evDispatch :=
      if Dispatch.schedules p d then s.evDispatch.scheduleNow else s.evDispatch }

/-- The end of `dispatchInstructions_`: another session for the next cycle. -/
def goesOn (s d : DispatchState) (p : DispatchParams) : Bool :=
  Dispatch.numDispatch p s ≠ 0 && d.creditsRob > 0 && d.dispatchQueue.length > 0 &&
    d.currentStall = none

def step (p : DispatchParams) (s : DispatchEvent) : DispatchEventOp → Except Stop DispatchEvent
  | .appended insts => do
    let _ ← checked (Dispatch.dispatchQueueAppended p s.dispatch insts)
    return s.arrive p { s.dispatch with dispatchQueue := s.dispatch.dispatchQueue ++ insts }
  | .robCredits n =>
    return s.arrive p { s.dispatch with creditsRob := u32Add s.dispatch.creditsRob n }
  | .unitCredits d n =>
    let disp := s.dispatch.dispatchers d
    return s.arrive p { s.dispatch with
      dispatchers := Function.update s.dispatch.dispatchers d
        { disp with unitCredits := u32Add disp.unitCredits n } }
  | .flush => return { s with dispatch := (Dispatch.handleFlush s.dispatch).1 }
  | .dispatch => do
    enabled s.evDispatch.now
    let (d, T, _) ← checked (Dispatch.dispatchInstructions p s.dispatch s.table)
    return {
      dispatch := d
      table := T
      evDispatch :=
        if goesOn s.dispatch d p then s.evDispatch.fire.scheduleNext else s.evDispatch.fire }
  | .nextCycle => do
    enabled (!s.evDispatch.now)
    return { s with evDispatch := s.evDispatch.nextCycle }

variable {p : DispatchParams} {s s' : DispatchEvent} {op : DispatchEventOp}

/-- A front that can be dispatched has its session. -/
def Awake (p : DispatchParams) (s : DispatchEvent) : Prop :=
  Dispatch.Dispatchable p s.dispatch → s.evDispatch.Pending

/-- What makes of Dispatch `d` is noticed: if the front can be dispatched and no session is
scheduled, there has been none in this cycle, and the blocking dispatcher is none or can accept. -/
def Noticed (p : DispatchParams) (s : DispatchEvent) (d : DispatchState) : Prop :=
  Dispatch.Dispatchable p d → ¬s.evDispatch.Pending →
    s.evDispatch.ran = false ∧ (d.blockingDispatcher = .unknown ∨
      ∃ u ∈ p.dispatchers d.blockingDispatcher, (d.dispatchers u).canAccept = true)

/-- A step that keeps Dispatch awake: an arrival is noticed, and a session dispatches something
and does not stall for bandwidth. -/
def Heeds (p : DispatchParams) (s : DispatchEvent) : DispatchEventOp → Prop
  | .appended insts =>
    Noticed p s { s.dispatch with dispatchQueue := s.dispatch.dispatchQueue ++ insts }
  | .robCredits n => Noticed p s { s.dispatch with creditsRob := u32Add s.dispatch.creditsRob n }
  | .unitCredits d n =>
    Noticed p s { s.dispatch with
      dispatchers := Function.update s.dispatch.dispatchers d
        { s.dispatch.dispatchers d with
          unitCredits := u32Add (s.dispatch.dispatchers d).unitCredits n } }
  | .dispatch => 0 < p.numToDispatch ∧
    Dispatch.stallsForBandwidth p (Dispatch.numDispatch p s.dispatch) s.dispatch = false
  | _ => True

instance (p : DispatchParams) (s : DispatchEvent) (d : DispatchState) :
    Decidable (Noticed p s d) :=
  inferInstanceAs (Decidable (_ → ¬(_ ∨ _) → _))

instance (p : DispatchParams) (s : DispatchEvent) (op : DispatchEventOp) :
    Decidable (Heeds p s op) := by
  cases op <;> simp only [Heeds] <;> infer_instance

theorem awake_arrive {d : DispatchState} (hnoticed : Noticed p s d) : (s.arrive p d).Awake p := by
  intro hwork
  have hwork' : Dispatch.Dispatchable p d :=
    (Dispatch.dispatchable_congr (by simp [arrive]) (by simp [arrive])
      (by simp [arrive])).mp hwork
  dsimp only [arrive]
  by_cases hev : s.evDispatch.Pending
  · split
    · exact hev.scheduleNow
    · exact hev
  · obtain ⟨hran, hfilter⟩ := hnoticed hwork' hev
    have hsched : Dispatch.schedules p d = true := by
      obtain ⟨hrob, ri, hri, -⟩ := hwork'
      obtain ⟨rest, hq⟩ := List.head?_eq_some_iff.mp hri
      simp only [Dispatch.schedules, Bool.and_eq_true, Bool.or_eq_true, decide_eq_true_eq,
        List.any_eq_true]
      exact ⟨⟨hrob, by simp [hq]⟩, hfilter⟩
    rw [if_pos hsched]
    exact UniqueEvent.pending_scheduleNow hran

theorem awake_dispatch (hheeds : Heeds p s .dispatch) (hstep : s.step p .dispatch = .ok s') :
    s'.Awake p := by
  obtain ⟨hnum, hband⟩ := hheeds
  obtain ⟨-, -, hstep⟩ := Run.bind_eq_ok.mp hstep
  obtain ⟨⟨d, T, out⟩, hd, hstep⟩ := Run.bind_eq_ok.mp hstep
  obtain rfl := Except.ok.inj hstep
  have hd := checked_eq_ok.mp hd
  intro hwork
  dsimp only at hwork ⊢
  unfold Dispatch.dispatchInstructions at hd
  dsimp only at hd
  split at hd
  · -- nothing to do: no credit, or an empty queue
    rename_i hzero
    cases Except.ok.inj hd
    obtain ⟨hrob, ri, hri, -⟩ := hwork
    obtain ⟨rest, hq⟩ := List.head?_eq_some_iff.mp hri
    rw [hq, List.length_cons] at hzero
    omega
  · rename_i hsome
    obtain ⟨⟨d₁, T₁, out₁⟩, hloop, hd⟩ := Run.bind_eq_ok.mp hd
    cases Except.ok.inj hd
    have hstops : d₁.currentStall = none ∨ ¬Dispatch.Dispatchable p d₁ := by
      refine Dispatch.dispatchLoop_stops _ hloop rfl
        ((Dispatch.stallsForBandwidth_congr _ ?_ ?_).trans hband)
      · rfl
      · rfl
    have hwork₁ : Dispatch.Dispatchable p d₁ :=
      (Dispatch.dispatchable_congr rfl rfl fun _ => rfl).mp hwork
    rcases hstops with hstall | hnot
    · have hgoes : goesOn s.dispatch
          { d₁ with dispatchers := fun d => (d₁.dispatchers d).reset } p = true := by
        obtain ⟨hrob, ri, hri, -⟩ := hwork₁
        obtain ⟨rest, hq⟩ := List.head?_eq_some_iff.mp hri
        simp only [goesOn, Bool.and_eq_true, decide_eq_true_eq]
        exact ⟨⟨⟨hsome, hrob⟩, by simp [hq]⟩, hstall⟩
      rw [hgoes]
      exact UniqueEvent.pending_fire_scheduleNext
    · exact absurd hwork₁ hnot

theorem Awake.step (H : s.Awake p) (hheeds : Heeds p s op) (hstep : s.step p op = .ok s') :
    s'.Awake p := by
  cases op with
  | appended insts =>
    obtain ⟨-, -, hstep⟩ := Run.bind_eq_ok.mp hstep
    obtain rfl := Except.ok.inj hstep
    exact awake_arrive hheeds
  | robCredits n =>
    obtain rfl := Except.ok.inj hstep
    exact awake_arrive hheeds
  | unitCredits d n =>
    obtain rfl := Except.ok.inj hstep
    exact awake_arrive hheeds
  | flush =>
    obtain rfl := Except.ok.inj hstep
    rintro ⟨-, ri, hri, -⟩
    cases hri
  | dispatch => exact awake_dispatch hheeds hstep
  | nextCycle =>
    obtain ⟨u, hen, hstep⟩ := Run.bind_eq_ok.mp hstep
    obtain rfl := Except.ok.inj hstep
    have hnow : s.evDispatch.now = false := by simpa using enabled_eq_ok.mp hen
    exact fun hwork => (H hwork).nextCycle hnow

end DispatchEvent

/-- In a run in which every arrival is noticed and no session stalls for bandwidth, Dispatch has a
session scheduled for the next cycle at the end of each cycle in which it could dispatch its
front. -/
theorem dispatch_not_asleep (p : DispatchParams) {ops : List DispatchEventOp}
    (hheeds : ∀ s op, Run.Takes (DispatchEvent.step p) {} ops s op → s.Heeds p op)
    {s : DispatchEvent} (hs : Run.Visits (DispatchEvent.step p) {} ops s)
    (hend : s.evDispatch.now = false) (hwork : Dispatch.Dispatchable p s.dispatch) :
    s.evDispatch.next = true := by
  have H : s.Awake p := by
    refine hs.invariant (fun hwork => ?_) fun op s s' H htakes hstep =>
      H.step (hheeds s op htakes) hstep
    exact absurd hwork.1 (Nat.lt_irrefl 0)
  exact (H hwork).next_of_now hend

/-- An integer unit, a branch unit and the LSU. -/
def threeUnits : DispatchParams where
  dispatchers
    | .int => [.iq 0]
    | .br => [.iq 1]
    | .lsu => [.lsu]
    | _ => []

/-- Four instructions, of which a session takes three. -/
def sessionOps : List DispatchEventOp :=
  [.robCredits 30, .unitCredits (.iq 0) 8, .unitCredits (.iq 1) 8, .unitCredits .lsu 10,
   .appended [{ inst := { uniqueId := 1 } }, { inst := { uniqueId := 2, pipe := .lsu } },
     { inst := { uniqueId := 3, pipe := .br } }, { inst := { uniqueId := 4 } }],
   .dispatch]

theorem dispatch_not_asleep_sample :
    ∃ s, Run.Visits (DispatchEvent.step threeUnits) {} sessionOps s ∧
      Dispatch.Dispatchable threeUnits s.dispatch ∧ s.evDispatch.next = true := by
  have hall : Run.along (DispatchEvent.step threeUnits)
      (fun s op => decide (s.Heeds threeUnits op)) {} sessionOps = true := by
    decide +kernel
  have heval : (sessionOps.foldlM (DispatchEvent.step threeUnits) {}).toOption.map (fun s =>
      (s.evDispatch.now, decide (Dispatch.Dispatchable threeUnits s.dispatch))) =
      some (false, true) := by
    decide +kernel
  have hheeds : ∀ s op, Run.Takes (DispatchEvent.step threeUnits) {} sessionOps s op →
      s.Heeds threeUnits op := by
    intro s op htakes
    have htest := Run.Takes.of_along hall htakes
    exact of_decide_eq_true htest
  obtain ⟨s, hs, hval⟩ := Run.ok_of_eval heval
  obtain ⟨hend, hwork⟩ := Prod.mk.inj hval
  have hwork := of_decide_eq_true hwork
  exact ⟨s, .last hs, hwork, dispatch_not_asleep threeUnits hheeds (.last hs) hend hwork⟩

/-- A load waits for a credit of the LSU and is flushed; an integer instruction follows. -/
def blockedOps : List DispatchEventOp :=
  [.robCredits 30, .unitCredits (.iq 0) 8, .appended [{ inst := { uniqueId := 1, pipe := .lsu } }],
   .dispatch, .nextCycle, .flush, .nextCycle, .appended [{ inst := { uniqueId := 2 } }]]

/-- The LSU still blocks when the load is gone: nothing is scheduled for the integer
instruction. -/
theorem dispatch_asleep :
    ¬∀ s, Run.Reachable (DispatchEvent.step threeUnits) {} s → s.evDispatch.now = false →
      Dispatch.Dispatchable threeUnits s.dispatch → s.evDispatch.next = true := by
  intro hall
  have heval : (blockedOps.foldlM (DispatchEvent.step threeUnits) {}).toOption.map (fun s =>
      (s.evDispatch, s.dispatch.creditsRob, s.dispatch.dispatchQueue.map fun ri => ri.inst.pipe,
        (s.dispatch.dispatchers (.iq 0)).unitCredits)) =
      some ({}, 30, [.int], 8) := by
    decide +kernel
  obtain ⟨s, hs, hval⟩ := Run.ok_of_eval heval
  obtain ⟨hev, hval⟩ := Prod.mk.inj hval
  obtain ⟨hrob, hval⟩ := Prod.mk.inj hval
  obtain ⟨hqueue, hunit⟩ := Prod.mk.inj hval
  obtain ⟨ri, rest, hq, hpipe, -⟩ := List.map_eq_cons_iff.mp hqueue
  have hwork : Dispatch.Dispatchable threeUnits s.dispatch := by
    refine ⟨by omega, ri, by rw [hq]; rfl, .iq 0, ?_, by omega⟩
    rw [hpipe]
    exact List.mem_singleton_self _
  have hnext := hall s ⟨_, hs⟩ (by rw [hev]) hwork
  rw [hev] at hnext
  cases hnext

end Olympia
