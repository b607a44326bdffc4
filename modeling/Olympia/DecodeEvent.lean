import Olympia.Lib.Event
import Olympia.Decode

/-!
# The decode event

Decode with its event `ev_decode_insts_event_`, among instructions from Fetch, credits of the uop
queue, vsets from the execution pipes and flushes in any order.  The ports of a unit come before
its events, so what schedules a session arrives while there has been none in the cycle.

Work for Decode lies in the fetch queue or in the uop generator.  Credits schedule a session only
for the fetch queue, so the rest of a vector instruction for which the credits had run out is
forgotten if no instruction is behind it.  And a session that is put off for fusion does not
schedule the next one.  `decode_not_asleep` is about the runs in which neither happens.
-/

namespace Olympia

namespace Decode

/-- There is something to decode, and Decode may. -/
def Work (s : DecodeState) : Prop :=
  0 < s.uopQueueCredits ∧ s.waitingOnVset = false ∧
    (s.fetchQueue ≠ [] ∨ 0 < s.vecUopGen.numUopsToGenerate)

instance (s : DecodeState) : Decidable (Work s) := inferInstanceAs (Decidable (_ ∧ _))

/-- The end of `decodeInsts_`: another session for the next cycle. -/
def goesOn (s : DecodeState) : Bool :=
  s.uopQueueCredits > 0 && s.fetchQueue.length + s.vecUopGen.numUopsToGenerate > 0

theorem goesOn_of_work {s : DecodeState} (h : Work s) : goesOn s = true := by
  obtain ⟨hcredits, -, hwork⟩ := h
  have hleft : 0 < s.fetchQueue.length + s.vecUopGen.numUopsToGenerate := by
    rcases hwork with hq | hgen
    · exact Nat.add_pos_left (List.length_pos_iff.mpr hq) _
    · exact Nat.add_pos_right _ hgen
  simp only [goesOn, gt_iff_lt, Bool.and_eq_true, decide_eq_true_eq]
  exact ⟨hcredits, hleft⟩

/-- A session that sends nothing has been put off. -/
theorem decodeInsts_none {p : DecodeParams} {s s' : DecodeState}
    (h : decodeInsts p s = .ok (s', none)) :
    putsOff p s = true ∧ s' = { s with latencyCount := s.latencyCount + 1 } := by
  rcases decodeInsts_cases h with ⟨hoff, hs', -⟩ | ⟨-, _, _, -, -, hout⟩
  · exact ⟨hoff, hs'⟩
  · cases hout

end Decode

/-! ## The system -/

structure DecodeEvent where
  decode : DecodeState := {}
  evDecode : UniqueEvent := {}

inductive DecodeOp where
  | credits (credits : ℕ)
  /-- instructions from Fetch arrive -/
  | appended (insts : List Inst)
  /-- a blocking vset comes back from its pipe -/
  | vset (i : Inst)
  | flush (c : FlushingCriteria)
  | decode
  | nextCycle

namespace DecodeEvent

/-- A message of a port can arrive: the session of the cycle has not run. -/
def portsOpen (s : DecodeEvent) : Bool := !s.evDecode.ran

/-- The event after a handler that schedules it under a condition. -/
def wake (s : DecodeEvent) (b : Bool) : UniqueEvent :=
  if b then s.evDecode.scheduleNow else s.evDecode

def step (p : DecodeParams) (s : DecodeEvent) : DecodeOp → Except Stop DecodeEvent
  | .credits n => do
    enabled s.portsOpen
    return {
      decode := Decode.receiveUopQueueCredits s.decode n
      evDecode := s.wake (s.decode.fetchQueue.length > 0) }
  | .appended insts => do
    enabled s.portsOpen
    return {
      decode := Decode.fetchBufferAppended s.decode insts
      evDecode := s.wake (s.decode.uopQueueCredits > 0) }
  | .vset i => do
    enabled s.portsOpen
    return { decode := Decode.processVset s.decode i, evDecode := s.wake s.decode.waitingOnVset }
  | .flush c => return { s with decode := (Decode.handleFlush s.decode c).1 }
  | .decode => do
    enabled s.evDecode.now
    let (d, out) ← checked (Decode.decodeInsts p s.decode)
    return {
      decode := d
      evDecode :=
        if out.isSome && Decode.goesOn d then s.evDecode.fire.scheduleNext else s.evDecode.fire }
  | .nextCycle => do
    enabled (!s.evDecode.now)
    return { s with evDecode := s.evDecode.nextCycle }

variable {p : DecodeParams} {s s' : DecodeEvent} {op : DecodeOp}

/-- Work for Decode has its session. -/
def Awake (s : DecodeEvent) : Prop := Decode.Work s.decode → s.evDecode.Pending

/-- A step that keeps Decode awake.  The first credits after none find an instruction in the fetch
queue, no uop left in the generator, or a session scheduled; and no session with work to do is
put off, unless there is another one in the next cycle. -/
def Heeds (p : DecodeParams) (s : DecodeEvent) : DecodeOp → Prop
  | .credits _ => s.decode.uopQueueCredits = 0 → s.decode.waitingOnVset = false →
    0 < s.decode.vecUopGen.numUopsToGenerate → s.decode.fetchQueue ≠ [] ∨ s.evDecode.Pending
  | .decode => Decode.Work s.decode → Decode.putsOff p s.decode = false ∨ s.evDecode.next = true
  | _ => True

instance (p : DecodeParams) (s : DecodeEvent) (op : DecodeOp) : Decidable (Heeds p s op) := by
  cases op <;> simp only [Heeds, UniqueEvent.Pending] <;> infer_instance

theorem pending_wake {b : Bool} (h : s.evDecode.Pending) : (s.wake b).Pending := by
  unfold wake
  split
  · exact h.scheduleNow
  · exact h

theorem pending_wake_of {b : Bool} (hopen : s.portsOpen = true) (h : b = true) :
    (s.wake b).Pending := by
  rw [wake, if_pos h]
  exact UniqueEvent.pending_scheduleNow (by simpa [portsOpen] using hopen)

namespace Awake

theorem credits {n : ℕ} (H : s.Awake) (hheeds : Heeds p s (.credits n))
    (hstep : s.step p (.credits n) = .ok s') : s'.Awake := by
  obtain ⟨u, hopen, hstep⟩ := Run.bind_eq_ok.mp hstep
  obtain rfl := Except.ok.inj hstep
  rintro ⟨-, hwait, hwork⟩
  by_cases hq : s.decode.fetchQueue = []
  · -- only the generator has something left
    have hgen : 0 < s.decode.vecUopGen.numUopsToGenerate := hwork.resolve_left fun h => h hq
    apply pending_wake
    by_cases hzero : s.decode.uopQueueCredits = 0
    · exact (hheeds hzero hwait hgen).resolve_left fun h => h hq
    · exact H ⟨Nat.pos_of_ne_zero hzero, hwait, .inr hgen⟩
  · apply pending_wake_of (enabled_eq_ok.mp hopen)
    simpa using List.length_pos_iff.mpr hq

theorem appended {insts : List Inst}
    (hstep : s.step p (.appended insts) = .ok s') : s'.Awake := by
  obtain ⟨u, hopen, hstep⟩ := Run.bind_eq_ok.mp hstep
  obtain rfl := Except.ok.inj hstep
  rintro ⟨hcredits, -, -⟩
  exact pending_wake_of (enabled_eq_ok.mp hopen) (decide_eq_true hcredits)

theorem vset {i : Inst} (H : s.Awake) (hstep : s.step p (.vset i) = .ok s') : s'.Awake := by
  obtain ⟨u, hopen, hstep⟩ := Run.bind_eq_ok.mp hstep
  obtain rfl := Except.ok.inj hstep
  rintro ⟨hcredits, -, hwork⟩
  by_cases hwait : s.decode.waitingOnVset = true
  · exact pending_wake_of (enabled_eq_ok.mp hopen) hwait
  · apply pending_wake
    exact H ⟨hcredits, by simpa using hwait, hwork⟩

theorem flush {c : FlushingCriteria} (H : s.Awake) (hstep : s.step p (.flush c) = .ok s') :
    s'.Awake := by
  obtain rfl := Except.ok.inj hstep
  rintro ⟨hcredits, hwait, hwork⟩
  refine H ⟨hcredits, hwait, .inr ?_⟩
  have hgen : 0 < (VectorUopGenerator.handleFlush s.decode.vecUopGen c).numUopsToGenerate :=
    hwork.resolve_left fun h => h rfl
  unfold VectorUopGenerator.handleFlush at hgen
  split at hgen
  · exact absurd hgen (Nat.lt_irrefl 0)
  · exact hgen

theorem decode (hheeds : Heeds p s .decode) (hstep : s.step p .decode = .ok s') : s'.Awake := by
  obtain ⟨-, -, hstep⟩ := Run.bind_eq_ok.mp hstep
  obtain ⟨⟨d, out⟩, hd, hstep⟩ := Run.bind_eq_ok.mp hstep
  obtain rfl := Except.ok.inj hstep
  have hd := checked_eq_ok.mp hd
  intro hwork
  dsimp only at hwork ⊢
  cases out with
  | some insts =>
    rw [Decode.goesOn_of_work hwork]
    exact UniqueEvent.pending_fire_scheduleNext
  | none =>
    obtain ⟨hoff, rfl⟩ := Decode.decodeInsts_none hd
    rcases hheeds hwork with hoff' | hnext
    · rw [hoff] at hoff'
      cases hoff'
    · exact .inr hnext

theorem step (H : s.Awake) (hheeds : Heeds p s op) (hstep : s.step p op = .ok s') : s'.Awake := by
  cases op with
  | credits n => exact H.credits hheeds hstep
  | appended insts => exact Awake.appended hstep
  | vset i => exact H.vset hstep
  | flush c => exact H.flush hstep
  | decode => exact Awake.decode hheeds hstep
  | nextCycle =>
    obtain ⟨u, hen, hstep⟩ := Run.bind_eq_ok.mp hstep
    obtain rfl := Except.ok.inj hstep
    have hnow : s.evDecode.now = false := by simpa using enabled_eq_ok.mp hen
    exact fun hwork => (H hwork).nextCycle hnow

end Awake

end DecodeEvent

/-- In a run in which the first credits after none do not find the rest of a vector instruction
alone, and no session with work to do is put off for fusion, Decode has a session scheduled for
the next cycle at the end of each cycle in which it could decode something. -/
theorem decode_not_asleep (p : DecodeParams) {ops : List DecodeOp}
    (hheeds : ∀ s op, Run.Takes (DecodeEvent.step p) {} ops s op → s.Heeds p op)
    {s : DecodeEvent} (hs : Run.Visits (DecodeEvent.step p) {} ops s)
    (hend : s.evDecode.now = false) (hwork : Decode.Work s.decode) : s.evDecode.next = true := by
  have H : s.Awake := by
    refine hs.invariant (I := fun s => s.Awake) (fun hwork => ?_) fun op s s' H htakes hstep =>
      H.step (hheeds s op htakes) hstep
    exact absurd hwork.1 (Nat.lt_irrefl 0)
  exact (H hwork).next_of_now hend

/-- Mavis takes the operands as they are. -/
def plainMavis : Mavis := ⟨fun i _ _ => i⟩

/-- A widening instruction, of two uops for the initial configuration. -/
def wideningAdd : Inst := { uniqueId := 1, pipe := .vint, isVector := true, uopGen := .widening }

/-- A credit for the first uop, and five more in the next cycle; the session then takes the second
uop and three of the instructions behind it. -/
def leftOverOps : List DecodeOp :=
  [.credits 1, .appended [wideningAdd, { uniqueId := 2 }, { uniqueId := 3 }, { uniqueId := 4 },
     { uniqueId := 5 }, { uniqueId := 6 }],
   .decode, .nextCycle, .credits 5, .decode]

theorem decode_not_asleep_sample :
    ∃ s, Run.Visits (DecodeEvent.step { mavis := plainMavis }) {} leftOverOps s ∧
      Decode.Work s.decode ∧ s.evDecode.next = true := by
  have hall : Run.along (DecodeEvent.step { mavis := plainMavis })
      (fun s op => decide (s.Heeds { mavis := plainMavis } op)) {} leftOverOps = true := by
    decide +kernel
  have heval : (leftOverOps.foldlM (DecodeEvent.step { mavis := plainMavis }) {}).toOption.map
      (fun s => (s.evDecode.now, decide (Decode.Work s.decode))) = some (false, true) := by
    decide +kernel
  have hheeds : ∀ s op, Run.Takes (DecodeEvent.step { mavis := plainMavis }) {} leftOverOps s op →
      s.Heeds { mavis := plainMavis } op := by
    intro s op htakes
    have htest := Run.Takes.of_along hall htakes
    exact of_decide_eq_true htest
  obtain ⟨s, hs, hval⟩ := Run.ok_of_eval heval
  obtain ⟨hend, hwork⟩ := Prod.mk.inj hval
  have hwork := of_decide_eq_true hwork
  exact ⟨s, .last hs, hwork, decode_not_asleep _ hheeds (.last hs) hend hwork⟩

/-- A widening instruction alone, with a credit for its first uop; the credit for the second one
comes in the next cycle. -/
def forgottenOps : List DecodeOp :=
  [.credits 1, .appended [wideningAdd], .decode, .nextCycle, .credits 1]

/-- Nothing is scheduled for the second uop. -/
theorem decode_asleep :
    ¬∀ s, Run.Reachable (DecodeEvent.step { mavis := plainMavis }) {} s →
      s.evDecode.now = false → Decode.Work s.decode → s.evDecode.next = true := by
  intro hall
  have heval : (forgottenOps.foldlM (DecodeEvent.step { mavis := plainMavis }) {}).toOption.map
      (fun s => (s.evDecode, decide (Decode.Work s.decode))) = some ({}, true) := by
    decide +kernel
  obtain ⟨s, hs, hval⟩ := Run.ok_of_eval heval
  obtain ⟨hev, hwork⟩ := Prod.mk.inj hval
  have hnext := hall s ⟨_, hs⟩ (by rw [hev]) (of_decide_eq_true hwork)
  rw [hev] at hnext
  cases hnext

end Olympia
