import Olympia.Mss.Biu

/-!
# What the bus does

`BusSystem` is the bus with any L2 cache that sends a transaction only with a credit.  It records
the transactions that the L2 cache has sent, those that the BIU has sent to the MSS and those whose
answer has arrived.

`Served` is what every step keeps: the transactions are answered in the order in which they were
sent, and one is in service exactly if the BIU is busy, in one of four places: on its way to the
MSS, at the MSS, acknowledged on the way back, and acknowledged in the BIU.
-/

namespace Olympia

open BusState

structure BusSystem (p : BusParams) where
  phase : MssPhase := .portUpdate
  bus : BusState := .init p
  /-- `l2cache_biu_credits_` -/
  l2Credits : ℕ := 0
  /-- what the L2 cache has sent to the BIU -/
  requested : List Transaction := []
  /-- what the BIU has sent to the MSS -/
  sentToMss : List Transaction := []
  /-- what has been answered to the L2 cache -/
  answered : List Transaction := []

inductive BusSystemOp where
  | bus (op : BusOp)
  | respArrives
  | creditsArrive
  | request (t : Transaction)
  | tick
  | nextCycle
  deriving DecidableEq, Repr

def BusSystemOp.phase : BusSystemOp → MssPhase
  | .bus op => op.phase
  | .respArrives | .creditsArrive | .tick => .portUpdate
  | .request _ | .nextCycle => .tick

namespace BusSystem

variable {p : BusParams}

def due (s : BusSystem p) : BusSystemOp → Bool
  | .bus op => op.due s.bus
  | .respArrives => (Port.front s.bus.resps s.bus.now).isSome
  | .creditsArrive => (Port.front s.bus.credits s.bus.now).isSome
  | .request _ => 0 < s.l2Credits
  | .tick => s.bus.portsDone
  | .nextCycle => s.bus.tickDone

/-- The transaction that the BIU sends to the MSS. -/
def sends (b : BusState) : BusOp → List Transaction
  | .handleBiuReq => b.biuReqQueue.take 1
  | _ => []

def handle (p : BusParams) (s : BusSystem p) : BusSystemOp → Except Assertion (BusSystem p)
  | .bus op => do
    let bus ← op.handle p s.bus
    return { s with bus := bus, sentToMss := s.sentToMss ++ sends s.bus op }
  | .respArrives =>
    match Port.front s.bus.resps s.bus.now with
    | none => .ok s
    | some (t, rest) =>
      .ok { s with bus := { s.bus with resps := rest }, answered := s.answered ++ [t] }
  | .creditsArrive =>
    match Port.front s.bus.credits s.bus.now with
    | none => .ok s
    | some (n, rest) => .ok { s with
        bus := { s.bus with credits := rest }
        l2Credits := u32Add s.l2Credits n }
  | .request t => .ok { s with
      bus := { s.bus with reqs := Port.send s.bus.reqs (s.bus.now + 1) t }
      l2Credits := u32Sub s.l2Credits 1
      requested := s.requested ++ [t] }
  | .tick => .ok { s with phase := .tick }
  | .nextCycle => .ok { s with phase := .portUpdate, bus := s.bus.nextCycle }

def step (p : BusParams) (s : BusSystem p) (op : BusSystemOp) : Except Stop (BusSystem p) := do
  enabled (s.phase = op.phase ∧ s.due op)
  checked (s.handle p op)

theorem step_eq_ok {s s' : BusSystem p} {op : BusSystemOp} :
    s.step p op = .ok s' ↔ s.phase = op.phase ∧ s.due op = true ∧ s.handle p op = .ok s' := by
  unfold step
  rw [enabled_checked_eq_ok, decide_eq_true_iff, and_assoc]

/-- The cycle ends: everything that was due has run. -/
def EndOfCycle (s : BusSystem p) : Prop := s.phase = .tick ∧ s.bus.tickDone = true

end BusSystem

namespace BusState

variable {p : BusParams} {b b' : BusState} {t : Transaction}

/-- The places where a transaction in service can be, and how many there are in them. -/
def inService (b : BusState) : ℕ :=
  b.mssReqs.length + b.mssBusy.toNat + b.acks.length + b.evHandleMssAck.now.toNat

/-- The transactions that the BIU has sent to the MSS and not taken off its queue. -/
def served (b : BusState) : List Transaction := if b.biuBusy then b.biuReqQueue.take 1 else []

/-- Neither handler of the BIU has run in this cycle. -/
def Fresh (b : BusState) : Prop := b.evHandleBiuReq.ran = false ∧ b.evHandleMssAck.ran = false

/-- The units agree on what is in service. -/
structure Serving (b : BusState) : Prop where
  count : b.inService = b.biuBusy.toNat
  busy : b.biuBusy = true → b.biuReqQueue ≠ []
  awake : b.evHandleBiuReq.now = true ↔ b.biuBusy = false ∧ b.biuReqQueue ≠ []
  timer : b.evHandleMssReq.length = b.mssBusy.toNat
  acked : ∀ m ∈ b.acks, m.val = true
  later : b.evHandleBiuReq.next = false ∧ b.evHandleMssAck.next = false
  ackFirst : b.evHandleMssAck.now = true → b.evHandleBiuReq.ran = false

/-- At the end of a cycle a queue that is not empty has a transaction in service. -/
theorem Serving.inService_eq_one (H : Serving b) (hdone : b.tickDone = true)
    (hq : b.biuReqQueue ≠ []) : b.inService = 1 := by
  simp only [tickDone, Bool.and_eq_true, Bool.not_eq_true'] at hdone
  have hbusy : b.biuBusy = true := by
    by_contra hidle
    have hnow := H.awake.mpr ⟨Bool.eq_false_of_not_eq_true hidle, hq⟩
    rw [hdone.1.1] at hnow
    cases hnow
  rw [H.count, hbusy]
  rfl

theorem Serving.init : Serving (.init p) := by
  refine ⟨rfl, ?_, ?_, rfl, ?_, ⟨rfl, rfl⟩, fun _ => rfl⟩
  · intro h
    cases h
  · constructor
    · intro h
      cases h
    · intro h
      exact absurd rfl h.2
  · intro m hm
    cases hm

/-- What a step of the units does. -/
inductive Moved (p : BusParams) (b : BusState) : BusOp → BusState → Prop where
  | req {due : ℕ} {t : Transaction} {rest : List (Arrival Transaction)}
      (h : b.reqs = ⟨due, t⟩ :: rest) (hdue : due ≤ b.now) :
    Moved p b .reqArrives { b with
      reqs := rest
      biuReqQueue := b.biuReqQueue ++ [t]
      evHandleBiuReq := if b.biuBusy then b.evHandleBiuReq else b.evHandleBiuReq.scheduleNow }
  | mssReq {due : ℕ} {t : Transaction} {rest : List (Arrival Transaction)}
      (h : b.mssReqs = ⟨due, t⟩ :: rest) (hdue : due ≤ b.now) (hfree : b.mssBusy = false)
      (htimer : b.evHandleMssReq = []) :
    Moved p b .mssReqArrives { b with
      mssReqs := rest
      mssBusy := true
      evHandleMssReq := [b.now + p.mssLatency] }
  | ack {due : ℕ} {rest : List (Arrival Bool)} (h : b.acks = ⟨due, true⟩ :: rest)
      (hdue : due ≤ b.now) :
    Moved p b .ackArrives { b with
      acks := rest
      evHandleMssAck := b.evHandleMssAck.scheduleNow }
  | handleAck {t : Transaction} {rest : List Transaction} (hnow : b.evHandleMssAck.now = true)
      (hq : b.biuReqQueue = t :: rest) :
    Moved p b .handleMssAck { b with
      evHandleMssAck := b.evHandleMssAck.fire
      resps := Port.send b.resps (b.now + p.biuLatency + 1) t
      biuReqQueue := rest
      credits := Port.send b.credits (b.now + 1) 1
      biuBusy := false
      evHandleBiuReq :=
        if 0 < rest.length then b.evHandleBiuReq.scheduleNow else b.evHandleBiuReq }
  | handleReq {t : Transaction} {rest : List Transaction} (hnow : b.evHandleBiuReq.now = true)
      (hq : b.biuReqQueue = t :: rest) :
    Moved p b .handleBiuReq { b with
      evHandleBiuReq := b.evHandleBiuReq.fire
      biuBusy := true
      mssReqs := Port.send b.mssReqs (b.now + p.biuLatency + 1) t }
  | handleMss (hbusy : b.mssBusy = true) (htimer : b.evHandleMssReq = [b.now]) :
    Moved p b .handleMssReq { b with
      evHandleMssReq := []
      mssBusy := false
      acks := Port.send b.acks (b.now + 1) true }

/-- A transaction in service is in only one place. -/
theorem Serving.inService_le (H : Serving b) : b.inService ≤ 1 := by
  rw [H.count]
  exact Bool.toNat_le b.biuBusy

/-- A step of the units that is due does not stop at an assertion. -/
theorem Serving.moved (H : Serving b) {op : BusOp}
    (hroom : b.biuReqQueue.length ≤ p.biuReqQueueSize) (hdue : op.due b = true) :
    ∃ b', op.handle p b = .ok b' ∧ Moved p b op b' := by
  have hle := H.inService_le
  unfold inService at hle
  cases op with
  | reqArrives =>
    obtain ⟨⟨t, rest⟩, hfront⟩ := Option.isSome_iff_exists.mp hdue
    obtain ⟨due, hle, hreqs⟩ := Port.front_eq_some hfront
    refine ⟨_, ?_, .req hreqs hle⟩
    simp only [BusOp.handle, hfront, receiveReqFromL2Cache, appendReqQueue, spartaAssert, hroom,
      decide_true, if_true]
    rfl
  | mssReqArrives =>
    obtain ⟨⟨t, rest⟩, hfront⟩ := Option.isSome_iff_exists.mp hdue
    obtain ⟨due, hdue, hreqs⟩ := Port.front_eq_some hfront
    rw [hreqs, List.length_cons] at hle
    -- the request on its way is the one in service
    have hfree : b.mssBusy = false := by
      cases hbusy : b.mssBusy with
      | false => rfl
      | true =>
        rw [hbusy] at hle
        simp only [Bool.toNat_true] at hle
        omega
    have htimer : b.evHandleMssReq = [] := by
      apply List.eq_nil_of_length_eq_zero
      rw [H.timer, hfree]
      rfl
    refine ⟨_, ?_, .mssReq hreqs hdue hfree htimer⟩
    simp only [BusOp.handle, hfront, getReqFromBIU, hfree, htimer]
    rfl
  | ackArrives =>
    obtain ⟨⟨done, rest⟩, hfront⟩ := Option.isSome_iff_exists.mp hdue
    obtain ⟨due, hdue, hacks⟩ := Port.front_eq_some hfront
    obtain rfl : done = true := H.acked ⟨due, done⟩ (by simp [hacks])
    refine ⟨_, ?_, .ack hacks hdue⟩
    simp only [BusOp.handle, hfront, getAckFromMSS, if_true]
    rfl
  | handleMssAck =>
    have hnow : b.evHandleMssAck.now = true := hdue
    have hbusy : b.biuBusy = true := by
      have hcount := H.count
      rw [inService, hnow, Bool.toNat_true] at hcount
      cases hb : b.biuBusy with
      | true => rfl
      | false =>
        rw [hb] at hcount
        simp only [Bool.toNat_false] at hcount
        omega
    obtain ⟨t, rest, hq⟩ := List.exists_cons_of_ne_nil (H.busy hbusy)
    refine ⟨_, ?_, .handleAck hnow hq⟩
    simp only [BusOp.handle, handleMSSAck, hq]
  | handleBiuReq =>
    have hnow : b.evHandleBiuReq.now = true := (Bool.and_eq_true_iff.mp hdue).1
    obtain ⟨t, rest, hq⟩ := List.exists_cons_of_ne_nil (H.awake.mp hnow).2
    refine ⟨_, ?_, .handleReq hnow hq⟩
    simp only [BusOp.handle, handleBIUReq, hq]
  | handleMssReq =>
    have hmem : b.now ∈ b.evHandleMssReq := by simpa [BusOp.due] using hdue
    have hbusy : b.mssBusy = true := by
      cases hb : b.mssBusy with
      | true => rfl
      | false =>
        have hlen := H.timer
        rw [hb] at hlen
        rw [List.eq_nil_of_length_eq_zero hlen] at hmem
        cases hmem
    have htimer : b.evHandleMssReq = [b.now] := by
      have hlen := H.timer
      rw [hbusy] at hlen
      obtain ⟨d, hd⟩ := List.length_eq_one_iff.mp hlen
      rw [hd, List.mem_singleton] at hmem
      rw [hd, hmem]
    refine ⟨_, ?_, .handleMss hbusy htimer⟩
    simp only [BusOp.handle, handleMSSReq, htimer, List.erase_cons_head]

/-- What arrives lets no handler run. -/
theorem Moved.fresh {op : BusOp} (m : Moved p b op b') (hport : op.phase = .portUpdate)
    (F : b.Fresh) : b'.Fresh := by
  cases m with
  | req h hdue =>
    dsimp only [Fresh]
    split
    · exact F
    · exact ⟨UniqueEvent.scheduleNow_ran.trans F.1, F.2⟩
  | mssReq h hdue hfree htimer => exact F
  | ack h hdue => exact ⟨F.1, UniqueEvent.scheduleNow_ran.trans F.2⟩
  | _ => cases hport

/-- A step of the units keeps them in agreement. -/
theorem Serving.step (H : Serving b) {op : BusOp} (hfresh : op.phase = .portUpdate → b.Fresh)
    (m : Moved p b op b') : Serving b' := by
  have hcount := H.count
  have hle := H.inService_le
  unfold inService at hcount hle
  cases m with
  | req h hdue =>
    have hran := (hfresh rfl).1
    refine { H with busy := ?_, awake := ?_, later := ?_, ackFirst := ?_ }
    · intro _
      simp
    · dsimp only
      cases hb : b.biuBusy with
      | true =>
        have hawake := H.awake
        rw [hb] at hawake
        simpa using hawake
      | false => simp [UniqueEvent.scheduleNow_now hran]
    · dsimp only
      split
      · exact H.later
      · simpa using H.later
    · dsimp only
      split
      · exact H.ackFirst
      · simpa using H.ackFirst
  | mssReq h hdue hfree htimer =>
    refine { H with count := ?_, timer := rfl }
    rw [← H.count]
    simp only [inService, h, hfree, List.length_cons, Bool.toNat_true, Bool.toNat_false]
  | ack h hdue =>
    obtain ⟨hreq, hran⟩ := hfresh rfl
    refine { H with count := ?_, acked := ?_, later := ?_, ackFirst := fun _ => hreq }
    · rw [h, List.length_cons] at hcount hle
      have hnow : b.evHandleMssAck.now = false := by
        cases hn : b.evHandleMssAck.now with
        | false => rfl
        | true =>
          rw [hn, Bool.toNat_true] at hle
          omega
      rw [hnow] at hcount
      simp only [inService, UniqueEvent.scheduleNow_now hran, Bool.toNat_true]
      simp only [Bool.toNat_false] at hcount
      omega
    · intro m hm
      apply H.acked
      rw [h]
      exact List.mem_cons_of_mem _ hm
    · simpa using H.later
  | handleAck hnow hq =>
    -- the handler of the requests waits for this one
    have hran := H.ackFirst hnow
    rw [hnow, Bool.toNat_true] at hcount hle
    have hidle : b.evHandleBiuReq.now = false := by
      cases hn : b.evHandleBiuReq.now with
      | false => rfl
      | true =>
        rw [(H.awake.mp hn).1, Bool.toNat_false] at hcount
        omega
    refine { H with
      count := ?_, busy := ?_, awake := ?_, later := ?_, ackFirst := fun h => by cases h }
    · simp only [inService, UniqueEvent.fire_now, Bool.toNat_false]
      omega
    · intro h
      cases h
    · dsimp only
      split
      · rename_i hlen
        simp [UniqueEvent.scheduleNow_now hran, List.ne_nil_of_length_pos hlen]
      · rename_i hlen
        simp [hidle, List.eq_nil_of_length_eq_zero (Nat.eq_zero_of_not_pos hlen)]
    · dsimp only
      split
      · simpa using H.later
      · exact H.later
  | handleReq hnow hq =>
    have hidle := (H.awake.mp hnow).1
    rw [hidle, Bool.toNat_false] at hcount
    have hack : b.evHandleMssAck.now = false := by
      cases hn : b.evHandleMssAck.now with
      | false => rfl
      | true =>
        rw [hn, Bool.toNat_true] at hcount
        omega
    refine { H with count := ?_, busy := ?_, awake := ?_, ackFirst := ?_ }
    · simp only [inService, Port.length_send, Bool.toNat_true]
      omega
    · intro _
      rw [hq]
      simp
    · simp
    · intro h
      have h : b.evHandleMssAck.now = true := h
      rw [hack] at h
      cases h
  | handleMss hbusy htimer =>
    refine { H with count := ?_, timer := rfl, acked := ?_ }
    · rw [← H.count]
      simp only [inService, hbusy, Port.length_send, Bool.toNat_true, Bool.toNat_false]
      omega
    · intro m hm
      rcases List.mem_append.mp hm with hm | hm
      · exact H.acked m hm
      · rw [List.mem_singleton.mp hm]

/-- The transactions keep their order on the way to the answer. -/
theorem Moved.outstanding_eq {op : BusOp} (m : Moved p b op b') :
    b'.outstanding = b.outstanding := by
  cases m with
  | req h _ => simp [BusState.outstanding, h, Port.vals]
  | handleAck _ hq => simp [BusState.outstanding, hq]
  | _ => rfl

/-- A transaction is sent to the MSS when its service begins. -/
theorem Moved.served_eq (H : Serving b) {op : BusOp} (m : Moved p b op b') :
    Port.vals b'.resps ++ b'.served =
      Port.vals b.resps ++ b.served ++ BusSystem.sends b op := by
  cases m with
  | req h _ =>
    cases hb : b.biuBusy with
    | false => simp [served, hb, BusSystem.sends]
    | true =>
      obtain ⟨t, rest, hq⟩ := List.exists_cons_of_ne_nil (H.busy hb)
      simp [served, hb, hq, BusSystem.sends]
  | handleAck hnow hq =>
    have hbusy : b.biuBusy = true := by
      have hcount := H.count
      rw [inService, hnow, Bool.toNat_true] at hcount
      cases hb : b.biuBusy with
      | true => rfl
      | false =>
        rw [hb] at hcount
        simp only [Bool.toNat_false] at hcount
        omega
    simp [served, hbusy, hq, BusSystem.sends]
  | handleReq hnow hq => simp [served, (H.awake.mp hnow).1, hq, BusSystem.sends]
  | _ => simp [served, BusSystem.sends]

/-- Each transaction that leaves the queue returns a credit. -/
theorem Moved.credits_eq {op : BusOp} (m : Moved p b op b') :
    (Port.vals b'.credits).sum + b'.reqs.length + b'.biuReqQueue.length =
      (Port.vals b.credits).sum + b.reqs.length + b.biuReqQueue.length := by
  cases m with
  | req h _ =>
    simp only [h, List.length_append, List.length_cons, List.length_nil]
    omega
  | handleAck _ hq =>
    simp only [hq, Port.vals_send, List.sum_append, List.sum_cons, List.sum_nil, List.length_cons]
    omega
  | _ => rfl

/-- The next cycle begins with nothing due. -/
theorem Serving.nextCycle (H : Serving b) (hdone : b.tickDone = true) : Serving b.nextCycle := by
  simp only [tickDone, Bool.and_eq_true, Bool.not_eq_true'] at hdone
  obtain ⟨⟨hreq, hack⟩, -⟩ := hdone
  have hcount := H.count
  have hawake := H.awake
  rw [inService, hack] at hcount
  rw [hreq] at hawake
  refine { H with count := ?_, awake := ?_, later := ⟨rfl, rfl⟩, ackFirst := fun _ => rfl }
  · simpa [inService, BusState.nextCycle, H.later.2] using hcount
  · simpa [BusState.nextCycle, H.later.1] using hawake

end BusState

namespace BusSystem

variable {p : BusParams} {s s' : BusSystem p} {op : BusSystemOp}

/-- What every step of the bus keeps. -/
structure Served (s : BusSystem p) : Prop where
  serving : Serving s.bus
  fresh : s.phase = .portUpdate → s.bus.Fresh
  order : s.requested = s.answered ++ s.bus.outstanding
  once : s.sentToMss = s.answered ++ (Port.vals s.bus.resps ++ s.bus.served)
  credits : s.l2Credits + ((Port.vals s.bus.credits).sum + s.bus.reqs.length +
    s.bus.biuReqQueue.length) = p.biuReqQueueSize

theorem Served.init : Served ({} : BusSystem p) where
  serving := .init
  fresh _ := ⟨rfl, rfl⟩
  order := rfl
  once := rfl
  credits := by simp [BusState.init, Port.vals]

theorem Served.step (H : Served s) (h : s.step p op = .ok s') : Served s' := by
  have hsize := p.biuReqQueueSize_lt
  have hcredits := H.credits
  obtain ⟨hphase, hdue, h⟩ := step_eq_ok.mp h
  cases op with
  | bus op =>
    obtain ⟨b', hb', m⟩ := H.serving.moved (p := p) (by omega) hdue
    obtain ⟨b, hb, h⟩ := Run.bind_eq_ok.mp h
    obtain rfl : b' = b := Except.ok.inj (hb'.symm.trans hb)
    obtain rfl := Except.ok.inj h
    have hfresh : op.phase = .portUpdate → s.bus.Fresh := fun hport =>
      H.fresh (hphase.trans hport)
    refine ⟨H.serving.step hfresh m, ?_, ?_, ?_, ?_⟩
    · intro hport
      have hop : op.phase = .portUpdate := hphase.symm.trans hport
      exact m.fresh hop (hfresh hop)
    · rw [H.order, m.outstanding_eq]
    · rw [H.once, m.served_eq H.serving, List.append_assoc]
    · rw [m.credits_eq]
      exact H.credits
  | respArrives =>
    obtain ⟨⟨t, rest⟩, hfront⟩ := Option.isSome_iff_exists.mp hdue
    obtain ⟨due, -, hresps⟩ := Port.front_eq_some hfront
    simp only [handle, hfront] at h
    obtain rfl := Except.ok.inj h
    refine ⟨{ H.serving with }, H.fresh, ?_, ?_, H.credits⟩
    · simp [H.order, BusState.outstanding, hresps, Port.vals]
    · simp [H.once, hresps, Port.vals, served]
  | creditsArrive =>
    obtain ⟨⟨n, rest⟩, hfront⟩ := Option.isSome_iff_exists.mp hdue
    obtain ⟨due, -, hcred⟩ := Port.front_eq_some hfront
    simp only [handle, hfront] at h
    obtain rfl := Except.ok.inj h
    refine ⟨{ H.serving with }, H.fresh, H.order, H.once, ?_⟩
    rw [hcred] at hcredits
    simp only [Port.vals, List.map_cons, List.sum_cons] at hcredits ⊢
    rw [u32Add_of_lt (by omega)]
    omega
  | request t =>
    have hpos : 0 < s.l2Credits := by simpa [due] using hdue
    obtain rfl := Except.ok.inj h
    refine ⟨{ H.serving with }, H.fresh, ?_, H.once, ?_⟩
    · simp [H.order, BusState.outstanding]
    · rw [u32Sub_of_le hpos (by omega)]
      simp only [Port.length_send]
      omega
  | tick =>
    obtain rfl := Except.ok.inj h
    exact { H with fresh := fun hport => by cases hport }
  | nextCycle =>
    obtain rfl := Except.ok.inj h
    exact ⟨H.serving.nextCycle hdue, fun _ => ⟨rfl, rfl⟩, H.order, H.once, H.credits⟩

theorem Served.of_reachable (h : Run.Reachable (BusSystem.step p) {} s) : Served s :=
  h.invariant .init fun _ _ _ H hstep => H.step hstep

/-- A step that is due does not stop at an assertion. -/
theorem Served.handle_ok (H : Served s) (hdue : s.due op = true) :
    ∃ s', s.handle p op = .ok s' := by
  cases op with
  | bus op =>
    have hcredits := H.credits
    obtain ⟨b', hb', -⟩ := H.serving.moved (p := p) (by omega) hdue
    exact ⟨_, Run.bind_eq_ok.mpr ⟨b', hb', rfl⟩⟩
  | respArrives =>
    obtain ⟨⟨t, rest⟩, hfront⟩ := Option.isSome_iff_exists.mp hdue
    simp only [handle, hfront]
    exact ⟨_, rfl⟩
  | creditsArrive =>
    obtain ⟨⟨n, rest⟩, hfront⟩ := Option.isSome_iff_exists.mp hdue
    simp only [handle, hfront]
    exact ⟨_, rfl⟩
  | _ => exact ⟨_, rfl⟩

end BusSystem

end Olympia
