import Olympia.Mss.BusSystem

/-!
# The bus answers every transaction once, in order, and in time

`Timed` bounds the times of everything on its way.  From it follow that the bus never blocks
(`progress`) and when a transaction is answered: `AnsweredBy n d` says that the first `n`
transactions of the L2 cache are answered by the cycle `d`, and every step keeps it, so a
transaction is answered after at most the service times of those before it.
-/

namespace Olympia

open BusState

namespace BusSystem

variable {p : BusParams} {s s' : BusSystem p} {op : BusSystemOp}

/-- The next cycle in which something can arrive. -/
def low (s : BusSystem p) : ℕ := if s.phase = .portUpdate then s.bus.now else s.bus.now + 1

/-- The times of everything on its way. -/
structure Timed (s : BusSystem p) : Prop where
  reqs : Port.Timed s.bus.reqs s.low s.low
  mssReqs : Port.Timed s.bus.mssReqs s.low (s.bus.now + p.biuLatency + 1)
  timers : ∀ d ∈ s.bus.evHandleMssReq, s.bus.now ≤ d ∧ d ≤ s.bus.now + p.mssLatency
  acks : Port.Timed s.bus.acks s.low s.low
  resps : Port.Timed s.bus.resps s.low (s.bus.now + p.biuLatency + 1)
  credits : Port.Timed s.bus.credits s.low (s.bus.now + 1)
  phase : s.phase = .portUpdate ∨ s.phase = .tick

theorem Timed.init : Timed ({} : BusSystem p) := by
  refine ⟨.nil, .nil, ?_, .nil, .nil, ?_, .inl rfl⟩
  · intro d hd
    cases hd
  · refine ⟨List.pairwise_singleton _ _, ?_, ?_⟩ <;> simp [BusState.init, low]

theorem low_portUpdate (h : s.phase = .portUpdate) : s.low = s.bus.now := if_pos h

theorem low_tick (h : s.phase = .tick) : s.low = s.bus.now + 1 := if_neg (by simp [h])

theorem Timed.step (S : Served s) (H : Timed s) (h : s.step p op = .ok s') : Timed s' := by
  obtain ⟨hphase, hdue, h⟩ := step_eq_ok.mp h
  have hcredits := S.credits
  cases op with
  | bus op =>
    obtain ⟨b', hb', m⟩ := S.serving.moved (p := p) (by omega) hdue
    obtain ⟨b, hb, h⟩ := Run.bind_eq_ok.mp h
    obtain rfl : b' = b := Except.ok.inj (hb'.symm.trans hb)
    obtain rfl := Except.ok.inj h
    cases m with
    | req hreqs hle =>
      have hold := H.reqs
      rw [hreqs] at hold
      exact { H with reqs := hold.tail }
    | mssReq hreqs hle hfree htimer =>
      have hold := H.mssReqs
      rw [hreqs] at hold
      refine { H with mssReqs := hold.tail, timers := ?_ }
      intro d hd
      rw [List.mem_singleton.mp hd]
      dsimp only
      omega
    | ack hacks hle =>
      have hold := H.acks
      rw [hacks] at hold
      exact { H with acks := hold.tail }
    | handleAck hnow hq =>
      have hlow := low_tick hphase
      refine { H with resps := H.resps.send ?_, credits := H.credits.send ?_ }
      · omega
      · omega
    | handleReq hnow hq =>
      have hlow := low_tick hphase
      refine { H with mssReqs := H.mssReqs.send ?_ }
      omega
    | handleMss hbusy htimer =>
      have hlow := low_tick hphase
      have hacks := H.acks.send (a := true) le_rfl
      rw [hlow] at hacks
      refine { H with timers := ?_, acks := ?_ }
      · intro d hd
        cases hd
      · change Port.Timed _ s.low s.low
        rw [hlow]
        exact hacks
  | respArrives =>
    obtain ⟨⟨t, rest⟩, hfront⟩ := Option.isSome_iff_exists.mp hdue
    obtain ⟨due, -, hresps⟩ := Port.front_eq_some hfront
    simp only [handle, hfront] at h
    obtain rfl := Except.ok.inj h
    have hold := H.resps
    rw [hresps] at hold
    exact { H with resps := hold.tail }
  | creditsArrive =>
    obtain ⟨⟨n, rest⟩, hfront⟩ := Option.isSome_iff_exists.mp hdue
    obtain ⟨due, -, hcred⟩ := Port.front_eq_some hfront
    simp only [handle, hfront] at h
    obtain rfl := Except.ok.inj h
    have hold := H.credits
    rw [hcred] at hold
    exact { H with credits := hold.tail }
  | request t =>
    obtain rfl := Except.ok.inj h
    have hlow := low_tick hphase
    have hreqs := H.reqs.send (a := t) le_rfl
    rw [hlow] at hreqs
    refine { H with reqs := ?_ }
    change Port.Timed _ s.low s.low
    rw [hlow]
    exact hreqs
  | tick =>
    obtain rfl := Except.ok.inj h
    have hlow : s.low = s.bus.now := low_portUpdate hphase
    simp only [due, portsDone, Bool.and_eq_true] at hdue
    obtain ⟨⟨⟨⟨hreqs, hmss⟩, hacks⟩, hresps⟩, hcred⟩ := hdue
    refine ⟨?_, H.mssReqs.of_quiet hmss, H.timers, ?_, H.resps.of_quiet hresps,
      H.credits.of_quiet hcred, .inr rfl⟩
    · exact (H.reqs.of_quiet hreqs).mono le_rfl (hlow ▸ Nat.le_succ _)
    · exact (H.acks.of_quiet hacks).mono le_rfl (hlow ▸ Nat.le_succ _)
  | nextCycle =>
    obtain rfl := Except.ok.inj h
    have hlow : s.low = s.bus.now + 1 := low_tick hphase
    have hdue : s.bus.tickDone = true := hdue
    simp only [tickDone, Bool.and_eq_true, Bool.not_eq_true'] at hdue
    have hreqs := H.reqs
    have hmss := H.mssReqs
    have hacks := H.acks
    have hresps := H.resps
    have hcred := H.credits
    rw [hlow] at hreqs hmss hacks hresps hcred
    refine ⟨hreqs, hmss.mono le_rfl ?_, ?_, hacks, hresps.mono le_rfl ?_, hcred.mono le_rfl ?_,
      .inl rfl⟩
    · simp only [BusState.nextCycle]
      omega
    · intro d hd
      have hd : d ∈ s.bus.evHandleMssReq := hd
      have hne : d ≠ s.bus.now := by
        rintro rfl
        have : s.bus.evHandleMssReq.contains s.bus.now = true := by simpa using hd
        rw [hdue.2] at this
        cases this
      obtain ⟨hge, hle⟩ := H.timers d hd
      simp only [BusState.nextCycle]
      omega
    · simp only [BusState.nextCycle]
      omega
    · simp only [BusState.nextCycle]
      omega

/-- The bus never blocks: something is due, or the phase is over. -/
theorem progress (S : Served s) (H : Timed s) :
    ∃ op, (∀ t, op ≠ .request t) ∧ ∃ s', s.step p op = .ok s' := by
  have hstep : ∀ op, s.phase = op.phase → s.due op = true → ∃ s', s.step p op = .ok s' := by
    intro op hphase hdue
    obtain ⟨s', hs'⟩ := S.handle_ok hdue
    exact ⟨s', step_eq_ok.mpr ⟨hphase, hdue, hs'⟩⟩
  rcases H.phase with hphase | hphase
  · by_cases hreqs : Port.quiet s.bus.reqs s.bus.now = false
    · exact ⟨.bus .reqArrives, by simp, hstep _ hphase (H.reqs.front_isSome hreqs)⟩
    by_cases hmss : Port.quiet s.bus.mssReqs s.bus.now = false
    · exact ⟨.bus .mssReqArrives, by simp, hstep _ hphase (H.mssReqs.front_isSome hmss)⟩
    by_cases hacks : Port.quiet s.bus.acks s.bus.now = false
    · exact ⟨.bus .ackArrives, by simp, hstep _ hphase (H.acks.front_isSome hacks)⟩
    by_cases hresps : Port.quiet s.bus.resps s.bus.now = false
    · exact ⟨.respArrives, by simp, hstep _ hphase (H.resps.front_isSome hresps)⟩
    by_cases hcred : Port.quiet s.bus.credits s.bus.now = false
    · exact ⟨.creditsArrive, by simp, hstep _ hphase (H.credits.front_isSome hcred)⟩
    refine ⟨.tick, by simp, hstep _ hphase ?_⟩
    simp only [Bool.not_eq_false] at hreqs hmss hacks hresps hcred
    simp [due, portsDone, hreqs, hmss, hacks, hresps, hcred]
  · by_cases hack : s.bus.evHandleMssAck.now = true
    · exact ⟨.bus .handleMssAck, by simp, hstep _ hphase hack⟩
    by_cases hreq : s.bus.evHandleBiuReq.now = true
    · exact ⟨.bus .handleBiuReq, by simp, hstep _ hphase (by simp [due, BusOp.due, hack, hreq])⟩
    by_cases hmss : s.bus.evHandleMssReq.contains s.bus.now = true
    · exact ⟨.bus .handleMssReq, by simp, hstep _ hphase hmss⟩
    refine ⟨.nextCycle, by simp, hstep _ hphase ?_⟩
    simp only [Bool.not_eq_true] at hack hreq hmss
    simp only [due, tickDone, hack, hreq, hmss, Bool.not_false, Bool.and_self]

/-! ## When a transaction is answered -/

/-- The cycles from the start of a service to the acknowledgement. -/
def serviceTime (p : BusParams) : ℕ := p.biuLatency + p.mssLatency + 2

/-- The cycles until the transaction in service is acknowledged, or the next one would be. -/
def untilAck (p : BusParams) (b : BusState) : ℕ :=
  (b.mssReqs.map fun m => m.due - b.now + p.mssLatency + 1).sum +
    (b.evHandleMssReq.map fun d => d - b.now + 1).sum + (b.acks.map fun m => m.due - b.now).sum +
    if b.biuBusy then 0 else serviceTime p

/-- The transactions that the MSS has acknowledged. -/
def acked (s : BusSystem p) : ℕ := s.answered.length + s.bus.resps.length

/-- The first `n` transactions are answered by the cycle `d`. -/
def AnsweredBy (n d : ℕ) (s : BusSystem p) : Prop :=
  n ≤ s.answered.length ∨
    (n ≤ s.acked ∧ ∀ m ∈ s.bus.resps.take (n - s.answered.length), m.due ≤ d) ∨
    (s.acked < n ∧
      (if s.acked + s.bus.biuReqQueue.length < n then s.low else s.bus.now) + untilAck p s.bus +
        (n - s.acked - 1) * serviceTime p + p.biuLatency + 1 ≤ d)

/-- In a later cycle they have been. -/
theorem AnsweredBy.answered (H : Timed s) {n d : ℕ} (h : AnsweredBy n d s) (hlate : d < s.bus.now) :
    n ≤ s.answered.length := by
  have hlow : s.bus.now ≤ s.low := by
    unfold low
    split <;> omega
  rcases h with h | ⟨hacked, hdue⟩ | ⟨-, hle⟩
  · exact h
  · by_contra hlt
    unfold acked at hacked
    -- the oldest answer on its way is too late
    rcases hresps : s.bus.resps with _ | ⟨m, rest⟩
    · rw [hresps] at hacked
      simp only [List.length_nil] at hacked
      omega
    · have hm : m ∈ s.bus.resps.take (n - s.answered.length) := by
        rw [hresps, show n - s.answered.length = (n - s.answered.length - 1) + 1 by omega,
          List.take_succ_cons]
        exact List.mem_cons_self
      have hge := H.resps.ge m (by rw [hresps]; exact List.mem_cons_self)
      have hle := hdue m hm
      omega
  · split at hle <;> omega

/-- A step of the units does not delay the acknowledgement. -/
theorem untilAck_moved {b b' : BusState} {op : BusOp} (S : Serving b) (m : BusState.Moved p b op b')
    (hop : op ≠ .handleMssAck) :
    untilAck p b' ≤ untilAck p b ∧ b'.resps = b.resps ∧ b'.now = b.now ∧
      (op.phase = .portUpdate ∨ b'.biuReqQueue = b.biuReqQueue) := by
  refine ⟨?_, ?_, ?_, ?_⟩
  · cases m with
    | req _ _ => exact le_rfl
    | mssReq h _ _ htimer =>
      simp only [untilAck, h, htimer, List.map_cons, List.map_nil, List.sum_cons, List.sum_nil]
      omega
    | ack h _ =>
      simp only [untilAck, h, List.map_cons, List.sum_cons]
      omega
    | handleAck _ _ => exact absurd rfl hop
    | handleReq hnow _ =>
      simp only [untilAck, Port.send, (S.awake.mp hnow).1, List.map_append, List.sum_append,
        List.map_cons, List.map_nil, List.sum_cons, List.sum_nil, serviceTime]
      simp only [if_true, Bool.false_eq_true, if_false]
      omega
    | handleMss _ htimer =>
      simp only [untilAck, htimer, Port.send, List.map_append, List.sum_append, List.map_cons,
        List.map_nil, List.sum_cons, List.sum_nil]
      omega
  · cases m with
    | handleAck _ _ => exact absurd rfl hop
    | _ => rfl
  · cases m <;> rfl
  · cases m with
    | req _ _ => exact .inl rfl
    | handleAck _ _ => exact absurd rfl hop
    | _ => exact .inr rfl

/-- The transaction in service is on its way to the MSS, at the MSS, or on its way back; else the
acknowledgement is in the BIU, if there is one. -/
theorem place {b : BusState} (S : Serving b) :
    (∃ m, b.mssReqs = [m] ∧ b.evHandleMssReq = [] ∧ b.acks = [] ∧ b.biuBusy = true) ∨
      (∃ d, b.mssReqs = [] ∧ b.evHandleMssReq = [d] ∧ b.acks = [] ∧ b.biuBusy = true) ∨
      (∃ m, b.mssReqs = [] ∧ b.evHandleMssReq = [] ∧ b.acks = [m] ∧ b.biuBusy = true) ∨
      (b.mssReqs = [] ∧ b.evHandleMssReq = [] ∧ b.acks = [] ∧
        b.biuBusy = b.evHandleMssAck.now) := by
  have hle := S.inService_le
  have hcount := S.count
  rw [inService, ← S.timer] at hle hcount
  have hnil : ∀ {α : Type} (l : List α), l.length = 0 → l = [] :=
    fun l => List.eq_nil_of_length_eq_zero
  have hbusy : 0 < b.biuBusy.toNat → b.biuBusy = true := by
    cases b.biuBusy <;> simp
  rcases hmss : b.mssReqs with _ | ⟨m, rest⟩
  · rcases htime : b.evHandleMssReq with _ | ⟨d, rest⟩
    · rcases hacks : b.acks with _ | ⟨m, rest⟩
      · refine .inr (.inr (.inr ⟨rfl, rfl, rfl, ?_⟩))
        simp only [hmss, htime, hacks, List.length_nil, Nat.zero_add] at hcount
        revert hcount
        cases b.biuBusy <;> cases b.evHandleMssAck.now <;> simp
      · simp only [hmss, htime, hacks, List.length_nil, List.length_cons] at hle hcount
        rw [hnil rest (by omega)]
        exact .inr (.inr (.inl ⟨m, rfl, rfl, rfl, hbusy (by omega)⟩))
    · simp only [hmss, htime, List.length_nil, List.length_cons] at hle hcount
      rw [hnil rest (by omega)]
      exact .inr (.inl ⟨d, rfl, rfl, hnil _ (by omega), hbusy (by omega)⟩)
  · simp only [hmss, List.length_cons] at hle hcount
    rw [hnil rest (by omega)]
    exact .inl ⟨m, rfl, hnil _ (by omega), hnil _ (by omega), hbusy (by omega)⟩

/-- In a cycle that ends with a transaction in service the acknowledgement comes nearer. -/
theorem untilAck_nextCycle (S : Served s) (H : Timed s) (hend : s.EndOfCycle)
    (hq : s.bus.biuReqQueue ≠ []) :
    untilAck p s.bus.nextCycle + 1 = untilAck p s.bus := by
  have hlow := low_tick hend.1
  have hdone := hend.2
  simp only [tickDone, Bool.and_eq_true, Bool.not_eq_true'] at hdone
  rcases place S.serving with ⟨m, hmss, htime, hacks, hbusy⟩ | ⟨d, hmss, htime, hacks, hbusy⟩ |
    ⟨m, hmss, htime, hacks, hbusy⟩ | ⟨-, -, -, hbusy⟩
  · have hge := H.mssReqs.ge m (by simp [hmss])
    simp only [untilAck, BusState.nextCycle, hmss, htime, hacks, hbusy, if_true, List.map_cons,
      List.map_nil, List.sum_cons, List.sum_nil]
    omega
  · have hge := (H.timers d (by simp [htime])).1
    have hne : d ≠ s.bus.now := by
      rintro rfl
      simp [htime] at hdone
    simp only [untilAck, BusState.nextCycle, hmss, htime, hacks, hbusy, if_true, List.map_cons,
      List.map_nil, List.sum_cons, List.sum_nil]
    omega
  · have hge := H.acks.ge m (by simp [hacks])
    simp only [untilAck, BusState.nextCycle, hmss, htime, hacks, hbusy, if_true, List.map_cons,
      List.map_nil, List.sum_cons, List.sum_nil]
    omega
  · -- the queue would have woken the handler
    have hnow := S.serving.awake.mpr ⟨hbusy.trans hdone.1.2, hq⟩
    rw [hdone.1.1] at hnow
    cases hnow

/-- A service does not take longer than the service time. -/
theorem untilAck_le (S : Served s) (H : Timed s) : untilAck p s.bus ≤ serviceTime p := by
  have hlow : s.low ≤ s.bus.now + 1 := by
    unfold low
    split <;> omega
  rcases place S.serving with ⟨m, hmss, htime, hacks, hbusy⟩ | ⟨d, hmss, htime, hacks, hbusy⟩ |
    ⟨m, hmss, htime, hacks, hbusy⟩ | ⟨hmss, htime, hacks, -⟩
  · have hle := H.mssReqs.le m (by simp [hmss])
    simp only [untilAck, serviceTime, hmss, htime, hacks, hbusy, if_true, List.map_cons,
      List.map_nil, List.sum_cons, List.sum_nil]
    omega
  · have hle := (H.timers d (by simp [htime])).2
    simp only [untilAck, serviceTime, hmss, htime, hacks, hbusy, if_true, List.map_cons,
      List.map_nil, List.sum_cons, List.sum_nil]
    omega
  · have hle := H.acks.le m (by simp [hacks])
    simp only [untilAck, serviceTime, hmss, htime, hacks, hbusy, if_true, List.map_cons,
      List.map_nil, List.sum_cons, List.sum_nil]
    omega
  · simp only [untilAck, hmss, htime, hacks, List.map_nil, List.sum_nil, Nat.zero_add]
    split <;> omega

/-- With an empty queue nothing is in service. -/
theorem untilAck_of_nil {b : BusState} (S : Serving b) (hq : b.biuReqQueue = []) :
    untilAck p b = serviceTime p := by
  have hidle : b.biuBusy = false := by
    by_contra hb
    exact S.busy (by simpa using hb) hq
  rcases place S with ⟨-, -, -, -, hbusy⟩ | ⟨-, -, -, -, hbusy⟩ | ⟨-, -, -, -, hbusy⟩ |
    ⟨hmss, htime, hacks, -⟩
  · simp [hidle] at hbusy
  · simp [hidle] at hbusy
  · simp [hidle] at hbusy
  · simp [untilAck, hidle, hmss, htime, hacks]

/-- The acknowledgement of a transaction brings its answer on its way. -/
theorem AnsweredBy.acknowledged (S : Served s) (H : Timed s) {n d : ℕ} {t : Transaction}
    {rest : List Transaction} {b' : BusState} (hnow : s.bus.evHandleMssAck.now = true)
    (hq : s.bus.biuReqQueue = t :: rest)
    (hb' : b'.now = s.bus.now ∧ b'.resps = Port.send s.bus.resps (s.bus.now + p.biuLatency + 1) t ∧
      b'.biuReqQueue = rest ∧ b'.biuBusy = false ∧ b'.mssReqs = s.bus.mssReqs ∧
      b'.evHandleMssReq = s.bus.evHandleMssReq ∧ b'.acks = s.bus.acks)
    (h : AnsweredBy n d s) {sent : List Transaction} :
    AnsweredBy (p := p) n d { s with bus := b', sentToMss := sent } := by
  obtain ⟨hsame, hresps, hqueue, hidle, hmss, htime, hacks⟩ := hb'
  have hbusy : s.bus.biuBusy = true := by
    have hcount := S.serving.count
    rw [inService, hnow, Bool.toNat_true] at hcount
    cases hb : s.bus.biuBusy with
    | true => rfl
    | false =>
      rw [hb] at hcount
      simp only [Bool.toNat_false] at hcount
      omega
  have hack : untilAck p b' = untilAck p s.bus + serviceTime p := by
    simp only [untilAck, hsame, hidle, hmss, htime, hacks, hbusy, if_true, Bool.false_eq_true,
      if_false]
    omega
  have hlow : s.bus.now ≤ s.low := by
    unfold low
    split <;> omega
  rcases h with h | ⟨hacked, hdue⟩ | ⟨hlt, hle⟩
  · exact .inl h
  · refine .inr (.inl ⟨?_, ?_⟩)
    · simp only [acked, hresps, Port.length_send] at hacked ⊢
      omega
    · unfold acked at hacked
      simp only [hresps, Port.send]
      rw [List.take_append_of_le_length (by omega)]
      exact hdue
  · by_cases hn : n = s.acked + 1
    · -- the answer is the last one on its way
      refine .inr (.inl ⟨?_, ?_⟩)
      · simp only [acked, hresps, Port.length_send] at hn ⊢
        omega
      · intro m hm
        have hdue : m.due ≤ s.bus.now + p.biuLatency + 1 := by
          have hm := List.mem_of_mem_take hm
          simp only [hresps] at hm
          rcases List.mem_append.mp hm with hm | hm
          · exact H.resps.le m hm
          · rw [List.mem_singleton.mp hm]
        split at hle <;> omega
    · obtain ⟨k, rfl⟩ : ∃ k, n = s.acked + 2 + k := ⟨n - s.acked - 2, by omega⟩
      refine .inr (.inr ⟨?_, ?_⟩)
      · simp only [acked, hresps, Port.length_send]
        omega
      · have hmul : (k + 1) * serviceTime p = k * serviceTime p + serviceTime p :=
          Nat.succ_mul k _
        rw [show s.acked + 2 + k - s.acked - 1 = k + 1 by omega, hmul, hq, List.length_cons] at hle
        have hacked' :
            BusSystem.acked (p := p) { s with bus := b', sentToMss := sent } = s.acked + 1 := by
          simp only [acked, hresps, Port.length_send]
          omega
        rw [hacked', show s.acked + 2 + k - (s.acked + 1) - 1 = k by omega]
        simp only [hack, hqueue, low, hsame] at hle ⊢
        rw [show s.acked + (rest.length + 1) = s.acked + 1 + rest.length by omega] at hle
        omega

/-- A step keeps what is known about the time of an answer. -/
theorem AnsweredBy.step (S : Served s) (H : Timed s) {n d : ℕ} (hn : n ≤ s.requested.length)
    (h : AnsweredBy n d s) (hstep : s.step p op = .ok s') : AnsweredBy n d s' := by
  obtain ⟨hphase, hdue, hs'⟩ := step_eq_ok.mp hstep
  have hcredits := S.credits
  cases op with
  | bus op =>
    obtain ⟨b', hb', m⟩ := S.serving.moved (p := p) (by omega) hdue
    obtain ⟨b, hb, hs'⟩ := Run.bind_eq_ok.mp hs'
    obtain rfl : b' = b := Except.ok.inj (hb'.symm.trans hb)
    obtain rfl := Except.ok.inj hs'
    by_cases hop : op = .handleMssAck
    · subst hop
      cases m with
      | handleAck hnow hq =>
        apply AnsweredBy.acknowledged S H hnow hq _ h
        exact ⟨rfl, rfl, rfl, rfl, rfl, rfl, rfl⟩
    · obtain ⟨hack, hresps, hnow, hqueue⟩ := untilAck_moved S.serving m hop
      rcases h with h | ⟨hacked, hdue⟩ | ⟨hlt, hle⟩
      · exact .inl h
      · refine .inr (.inl ⟨?_, ?_⟩)
        · simpa only [acked, hresps] using hacked
        · simpa only [hresps] using hdue
      · refine .inr (.inr ⟨?_, ?_⟩)
        · simpa only [acked, hresps] using hlt
        · have hlow : BusSystem.low (p := p)
              { s with bus := b', sentToMss := s.sentToMss ++ sends s.bus op } = s.low := by
            simp only [low, hnow]
          have hacked' : BusSystem.acked (p := p)
              { s with bus := b', sentToMss := s.sentToMss ++ sends s.bus op } = s.acked := by
            simp only [acked, hresps]
          rw [hlow, hacked']
          dsimp only
          rw [hnow]
          rcases hqueue with hport | hqueue
          · rw [low_portUpdate (hphase.trans hport), ite_self] at hle ⊢
            omega
          · rw [hqueue]
            omega
  | respArrives =>
    obtain ⟨⟨t, rest⟩, hfront⟩ := Option.isSome_iff_exists.mp hdue
    obtain ⟨due, -, hresps⟩ := Port.front_eq_some hfront
    simp only [handle, hfront] at hs'
    obtain rfl := Except.ok.inj hs'
    have hacked' : BusSystem.acked (p := p) { s with
        bus := { s.bus with resps := rest }, answered := s.answered ++ [t] } = s.acked := by
      simp only [acked, hresps, List.length_append, List.length_cons, List.length_nil]
      omega
    rcases h with h | ⟨hacked, hdue⟩ | ⟨hlt, hle⟩
    · left
      simp only [List.length_append]
      omega
    · refine .inr (.inl ⟨by rwa [hacked'], ?_⟩)
      intro m hm
      apply hdue m
      by_cases hle : n ≤ s.answered.length
      · rw [show n - (s.answered ++ [t]).length = 0 by simp; omega] at hm
        cases hm
      · rw [hresps, show n - s.answered.length = (n - (s.answered ++ [t]).length) + 1 by
          simp only [List.length_append, List.length_cons, List.length_nil]; omega,
          List.take_succ_cons]
        exact List.mem_cons_of_mem _ hm
    · exact .inr (.inr ⟨by rwa [hacked'], by rw [hacked']; exact hle⟩)
  | creditsArrive =>
    obtain ⟨⟨k, rest⟩, hfront⟩ := Option.isSome_iff_exists.mp hdue
    simp only [handle, hfront] at hs'
    obtain rfl := Except.ok.inj hs'
    exact h
  | request t =>
    obtain rfl := Except.ok.inj hs'
    exact h
  | tick =>
    obtain rfl := Except.ok.inj hs'
    -- nothing is left on the way to the BIU
    have hdue : s.bus.portsDone = true := hdue
    simp only [portsDone, Bool.and_eq_true] at hdue
    have hreqs : s.bus.reqs = [] := by
      apply List.eq_nil_iff_forall_not_mem.mpr
      intro m hm
      have hge := (H.reqs.of_quiet hdue.1.1.1.1).ge m hm
      have hle := H.reqs.le m hm
      rw [low_portUpdate hphase] at hle
      omega
    rcases h with h | h | ⟨hlt, hle⟩
    · exact .inl h
    · exact .inr (.inl h)
    · refine .inr (.inr ⟨hlt, ?_⟩)
      have hlen := congrArg List.length S.order
      simp only [BusState.outstanding, hreqs, Port.vals, List.length_append, List.length_map,
        List.length_nil] at hlen
      have hno : ¬s.acked + s.bus.biuReqQueue.length < n := by
        unfold acked
        omega
      rw [if_neg hno] at hle
      change (if s.acked + s.bus.biuReqQueue.length < n then _ else s.bus.now) + _ + _ + _ + _ ≤ d
      rw [if_neg hno]
      exact hle
  | nextCycle =>
    obtain rfl := Except.ok.inj hs'
    rcases h with h | h | ⟨hlt, hle⟩
    · exact .inl h
    · exact .inr (.inl h)
    · refine .inr (.inr ⟨hlt, ?_⟩)
      have hlow' : BusSystem.low (p := p) { s with phase := .portUpdate, bus := s.bus.nextCycle } =
          s.bus.now + 1 := rfl
      have hacked' :
          BusSystem.acked (p := p) { s with phase := .portUpdate, bus := s.bus.nextCycle } =
          s.acked := rfl
      have hite : (if s.acked + s.bus.biuReqQueue.length < n then s.bus.now + 1
          else s.bus.now + 1) = s.bus.now + 1 := ite_self _
      rw [hlow', hacked']
      change (if s.acked + s.bus.biuReqQueue.length < n then s.bus.now + 1 else s.bus.now + 1) +
        untilAck p s.bus.nextCycle + _ + _ + _ ≤ d
      rw [hite]
      by_cases hq : s.bus.biuReqQueue = []
      · have hack := untilAck_of_nil (p := p) S.serving hq
        have hack' := untilAck_of_nil (p := p) (S.serving.nextCycle hdue) hq
        rw [hq, List.length_nil, if_pos (by omega), low_tick hphase, hack] at hle
        rw [hack']
        exact hle
      · have hack := untilAck_nextCycle S H ⟨hphase, hdue⟩ hq
        have hlow := low_tick hphase
        split at hle <;> omega

/-- What is known about the time of an answer when a transaction is outstanding. -/
theorem answeredBy_of_served (S : Served s) (H : Timed s) :
    AnsweredBy s.requested.length
      (s.bus.now + s.bus.outstanding.length * serviceTime p + p.biuLatency + 2) s := by
  have hlen := congrArg List.length S.order
  simp only [List.length_append] at hlen
  have hlow : s.low ≤ s.bus.now + 1 := by
    unfold low
    split <;> omega
  by_cases hacked : s.requested.length ≤ s.acked
  · refine .inr (.inl ⟨hacked, ?_⟩)
    intro m hm
    have hle := H.resps.le m (List.mem_of_mem_take hm)
    omega
  · refine .inr (.inr ⟨by omega, ?_⟩)
    have hack := untilAck_le S H
    have hout : s.requested.length - s.acked - 1 + 1 ≤ s.bus.outstanding.length := by
      unfold acked at hacked ⊢
      omega
    have hmul := Nat.mul_le_mul_right (serviceTime p) hout
    rw [Nat.succ_mul] at hmul
    split <;> omega

/-- The L2 cache's list of transactions only grows. -/
theorem requested_grows (h : s.step p op = .ok s') : s.requested <+: s'.requested := by
  obtain ⟨-, hdue, h⟩ := step_eq_ok.mp h
  cases op with
  | bus op =>
    obtain ⟨b, -, h⟩ := Run.bind_eq_ok.mp h
    obtain rfl := Except.ok.inj h
    exact List.prefix_rfl
  | respArrives =>
    obtain ⟨⟨t, rest⟩, hfront⟩ := Option.isSome_iff_exists.mp hdue
    simp only [handle, hfront] at h
    obtain rfl := Except.ok.inj h
    exact List.prefix_rfl
  | creditsArrive =>
    obtain ⟨⟨k, rest⟩, hfront⟩ := Option.isSome_iff_exists.mp hdue
    simp only [handle, hfront] at h
    obtain rfl := Except.ok.inj h
    exact List.prefix_rfl
  | request t =>
    obtain rfl := Except.ok.inj h
    exact List.prefix_append _ _
  | tick =>
    obtain rfl := Except.ok.inj h
    exact List.prefix_rfl
  | nextCycle =>
    obtain rfl := Except.ok.inj h
    exact List.prefix_rfl

/-- The invariants of the bus in every state it reaches. -/
theorem sound_of_reachable (h : Run.Reachable (BusSystem.step p) {} s) : Served s ∧ Timed s :=
  h.invariant (I := fun s => Served s ∧ Timed s) ⟨.init, .init⟩
    fun _ _ _ H hstep => ⟨H.1.step hstep, H.2.step H.1 hstep⟩

/-- The transactions that are outstanding are answered after at most the service times of all of
them. -/
theorem answered_in_time (S : Served s) (H : Timed s) {ops : List BusSystemOp}
    (hrun : ops.foldlM (BusSystem.step p) s = .ok s')
    (hlate : s.bus.now + s.bus.outstanding.length * serviceTime p + p.biuLatency + 2 < s'.bus.now) :
    s.requested <+: s'.answered := by
  have hinv : (Served s' ∧ Timed s') ∧ s.requested <+: s'.requested ∧
      AnsweredBy s.requested.length
        (s.bus.now + s.bus.outstanding.length * serviceTime p + p.biuLatency + 2) s' := by
    refine Run.foldlM_ok_preserves (I := fun t => (Served t ∧ Timed t) ∧
      s.requested <+: t.requested ∧ AnsweredBy s.requested.length
        (s.bus.now + s.bus.outstanding.length * serviceTime p + p.biuLatency + 2) t) ?_
      ⟨⟨S, H⟩, List.prefix_rfl, answeredBy_of_served S H⟩ hrun
    rintro op t t' ⟨⟨S, H⟩, hpre, hby⟩ hstep
    exact ⟨⟨S.step hstep, H.step S hstep⟩, hpre.trans (requested_grows hstep),
      hby.step S H hpre.length_le hstep⟩
  obtain ⟨⟨S', H'⟩, hpre, hby⟩ := hinv
  have hlen := hby.answered H' hlate
  have hanswered : s'.answered <+: s'.requested := by
    rw [S'.order]
    exact List.prefix_append _ _
  exact List.prefix_of_prefix_length_le hpre hanswered hlen

end BusSystem

/-- In every state of the bus: the transactions of the L2 cache are those whose answers have
arrived, those whose answers are on their way, the queue of the BIU and those on their way to it,
in the order in which they were sent; the MSS has got each of the first two kinds and the one in
service, once and in that order; no assertion fails, so the MSS gets nothing while it is busy and
no handler reads an empty queue; the credits add up; at the end of a cycle a queue that is not
empty has exactly one transaction in service; and the bus does not block, and answers what is
outstanding in a bounded number of cycles. -/
theorem bus_serves_in_order (p : BusParams) {s : BusSystem p}
    (h : Run.Reachable (BusSystem.step p) {} s) :
    s.requested = s.answered ++
        (Port.vals s.bus.resps ++ s.bus.biuReqQueue ++ Port.vals s.bus.reqs) ∧
      s.sentToMss = s.answered ++ (Port.vals s.bus.resps ++
        if s.bus.biuBusy then s.bus.biuReqQueue.take 1 else []) ∧
      (∀ op a, s.step p op ≠ .error (.assertion a)) ∧
      s.l2Credits + ((Port.vals s.bus.credits).sum + s.bus.reqs.length +
        s.bus.biuReqQueue.length) = p.biuReqQueueSize ∧
      (s.EndOfCycle → s.bus.biuReqQueue ≠ [] → s.bus.inService = 1) ∧
      (∃ op, (∀ t, op ≠ .request t) ∧ ∃ s', s.step p op = .ok s') ∧
      ∀ (ops : List BusSystemOp) (s' : BusSystem p), ops.foldlM (BusSystem.step p) s = .ok s' →
        s.bus.now + s.bus.outstanding.length * BusSystem.serviceTime p + p.biuLatency + 2 <
          s'.bus.now → s.requested <+: s'.answered := by
  obtain ⟨S, H⟩ := BusSystem.sound_of_reachable h
  refine ⟨S.order, S.once, ?_, S.credits, ?_, BusSystem.progress S H, ?_⟩
  · intro op a hstep
    obtain ⟨hen, hhandle⟩ := enabled_checked_eq_error hstep
    obtain ⟨-, hdue⟩ := of_decide_eq_true hen
    obtain ⟨s', hs'⟩ := S.handle_ok hdue
    rw [hs'] at hhandle
    cases hhandle
  · intro hend hq
    exact S.serving.inService_eq_one hend.2 hq
  · intro ops s' hrun hlate
    exact BusSystem.answered_in_time S H hrun hlate

/-- A bus with a fast memory. -/
def fastBus : BusParams := { mssLatency := 1 }

/-- Two transactions, the second of which arrives in the cycle of the first acknowledgement. -/
def twoTransactions : List BusSystemOp :=
  [.tick, .nextCycle, .creditsArrive, .tick, .request ⟨0, 0⟩, .nextCycle, .bus .reqArrives, .tick,
   .bus .handleBiuReq, .nextCycle, .tick, .nextCycle, .bus .mssReqArrives, .tick, .nextCycle, .tick,
   .bus .handleMssReq, .request ⟨1, 64⟩, .nextCycle, .bus .ackArrives, .bus .reqArrives, .tick,
   .bus .handleMssAck, .bus .handleBiuReq, .nextCycle, .creditsArrive, .tick, .nextCycle,
   .respArrives, .bus .mssReqArrives]

theorem bus_serves_in_order_sample :
    ∃ s, twoTransactions.foldlM (BusSystem.step fastBus) {} = .ok s ∧
      s.answered = [⟨0, 0⟩] ∧ s.requested = s.answered ++ [⟨1, 64⟩] ∧
      s.sentToMss = s.answered ++ [⟨1, 64⟩] := by
  have heval : (twoTransactions.foldlM (BusSystem.step fastBus) {}).toOption.map
      (fun s => (s.answered, s.bus.resps, s.bus.biuReqQueue, s.bus.reqs, s.bus.biuBusy)) =
        some ([⟨0, 0⟩], [], [⟨1, 64⟩], [], true) := by
    decide +kernel
  obtain ⟨s, hs, hval⟩ := Run.ok_of_eval heval
  simp only [Prod.mk.injEq] at hval
  obtain ⟨hans, hresps, hq, hreqs, hbusy⟩ := hval
  obtain ⟨hreq, hsent, -⟩ := bus_serves_in_order fastBus ⟨_, hs⟩
  refine ⟨s, hs, hans, ?_, ?_⟩
  · rw [hreq, hresps, hq, hreqs]
    rfl
  · rw [hsent, hresps, hq, hbusy]
    rfl

end Olympia
