import Olympia.Mss.BusOrder
import Olympia.Mss.L2Merge

/-!
# The L2 cache with the BIU and the MSS

The L2 cache, the BIU and the MSS connected as `CPUTopology.cpp` connects them, with any two
requesters that obey the credit protocol.  The units share the clock and the phases of the cycle.
What `L2System` leaves open is decided here: a transaction goes to the BIU, and answers and credits
of the BIU arrive when their ports bring them.  So a run of the memory system is a run of
`L2System` (`MemSystem.reachable_l2`), in which the BIU answers in order.

Is there always room for an answer?  The BIU returns its credit when the MSS has answered, not when
the L2 cache has taken the answer, so the credits do not bound `biu_resp_queue_`; it overflows when
the L2 cache cannot take the answers it waits for (`biu_resp_queue_overflows`).  It does not if the
L2 cache sends a transaction only while fewer than `biu_resp_queue_size` are sent and not taken
(`biu_resp_queue_bounded`).  That is so in every run if the miss buffer is not larger than the
queue, because each line has one transaction (`returning_lt`).
-/

namespace Olympia

open L2Cache

structure MemSystem (p : L2Params) (q : BusParams) where
  l2 : L2System p := {}
  bus : BusState := .init q

inductive MemOp where
  | l2 (op : L2Op)
  | bus (op : BusOp)
  /-- an answer of the BIU arrives at the L2 cache -/
  | respArrives
  /-- credits of the BIU arrive at the L2 cache -/
  | creditsArrive
  deriving DecidableEq, Repr

namespace MemSystem

variable {p : L2Params} {q : BusParams}

/-- The steps of the L2 cache that do not come from the BIU; a phase ends when the bus has nothing
due in it. -/
def ready (s : MemSystem p q) : L2Op → Bool
  | .biuResp _ | .biuCredits _ => false
  | .tick => s.bus.portsDone
  | .postTick => s.bus.tickDone
  | _ => true

/-- What a step of the L2 cache does to the bus. -/
def follow (s : MemSystem p q) : L2Op → BusState
  | .handleBiuReq =>
    match (handleBiuReq s.l2.l2).2 with
    | some t => { s.bus with reqs := Port.send s.bus.reqs (s.bus.now + 1) t }
    | none => s.bus
  | .nextCycle => s.bus.nextCycle
  | _ => s.bus

/-- An answer arrives. -/
def getResp (s : MemSystem p q) (t : Transaction) (rest : List (Arrival Transaction)) :
    Except Assertion (MemSystem p q) := do
  let l2 ← getRespFromBIU p s.l2.l2 t
  return { s with
    l2 := { s.l2 with l2 := l2, atBiu := s.l2.atBiu.tail }
    bus := { s.bus with resps := rest } }

/-- Credits arrive. -/
def getCredits (s : MemSystem p q) (n : ℕ) (rest : List (Arrival ℕ)) : MemSystem p q :=
  { s with
    l2 := { s.l2 with l2 := getCreditsFromBIU s.l2.l2 n }
    bus := { s.bus with credits := rest } }

def step (p : L2Params) (q : BusParams) (s : MemSystem p q) : MemOp → Except Stop (MemSystem p q)
  | .l2 op => do
    enabled (s.ready op)
    let l2 ← s.l2.step p op
    return { s with l2 := l2, bus := s.follow op }
  | .bus op => do
    enabled (s.l2.phase = op.phase ∧ op.due s.bus)
    let bus ← checked (op.handle q s.bus)
    return { s with bus := bus }
  | .respArrives => do
    enabled (s.l2.phase = .portUpdate)
    match Port.front s.bus.resps s.bus.now with
    | none => .error .disabled
    | some (t, rest) => checked (s.getResp t rest)
  | .creditsArrive => do
    enabled (s.l2.phase = .portUpdate)
    match Port.front s.bus.credits s.bus.now with
    | none => .error .disabled
    | some (n, rest) => .ok (s.getCredits n rest)

/-! ## The transactions at the BIU -/

variable {s s' : MemSystem p q} {op : L2Op}

/-- Only the handler of the queue to the BIU and the answers change what is at the BIU. -/
theorem atBiu_eq {l l' : L2System p} (hsend : op ≠ .handleBiuReq) (hresp : ∀ i, op ≠ .biuResp i)
    (h : l.step p op = .ok l') : l'.atBiu = l.atBiu := by
  obtain ⟨-, -, h⟩ := L2System.step_eq_ok.mp h
  cases op with
  | handleBiuReq => exact absurd rfl hsend
  | biuResp i => exact absurd rfl (hresp i)
  | req | handleResp | lookup | result | createReq | issueReq =>
    obtain ⟨l2, -, h⟩ := Run.bind_eq_ok.mp h
    obtain rfl := Except.ok.inj h
    rfl
  | _ =>
    obtain rfl := Except.ok.inj h
    rfl

/-- What the handler of the queue to the BIU sends is on its way to the BIU. -/
theorem outstanding_follow {l : L2System p} (hready : s.ready op = true)
    (hat : s.l2.atBiu = s.bus.outstanding) (h : s.l2.step p op = .ok l) :
    l.atBiu = (s.follow op).outstanding := by
  by_cases hsend : op = .handleBiuReq
  · subst hsend
    obtain ⟨-, -, h⟩ := L2System.step_eq_ok.mp h
    rcases L2System.handleBiuReq_cases s.l2.l2 with ⟨t, rest, hq, -, heq⟩ | ⟨-, heq⟩
    · simp only [L2System.handle, heq] at h
      obtain rfl := Except.ok.inj h
      simp [follow, heq, hat, BusState.outstanding]
    · simp only [L2System.handle, heq] at h
      obtain rfl := Except.ok.inj h
      simp [follow, heq, hat]
  · have hresp : ∀ i, op ≠ .biuResp i := by
      rintro i rfl
      cases hready
    rw [atBiu_eq hsend hresp h, hat]
    cases op with
    | handleBiuReq => exact absurd rfl hsend
    | _ => rfl

/-- The units of the bus keep the order of the transactions. -/
theorem outstanding_handle {b b' : BusState} {op : BusOp} (h : op.handle q b = .ok b') :
    b'.outstanding = b.outstanding := by
  cases op with
  | reqArrives =>
    rcases hfront : Port.front b.reqs b.now with _ | ⟨t, rest⟩
    · simp only [BusOp.handle, hfront] at h
      obtain rfl := Except.ok.inj h
      rfl
    · obtain ⟨due, -, hreqs⟩ := Port.front_eq_some hfront
      simp only [BusOp.handle, hfront] at h
      obtain ⟨b₁, hrecv, h⟩ := Run.bind_eq_ok.mp h
      obtain ⟨b₂, happ, hrecv⟩ := Run.bind_eq_ok.mp hrecv
      obtain ⟨u, -, happ⟩ := Run.bind_eq_ok.mp happ
      obtain rfl := Except.ok.inj happ
      obtain rfl := Except.ok.inj hrecv
      obtain rfl := Except.ok.inj h
      simp [BusState.outstanding, hreqs, Port.vals]
  | mssReqArrives =>
    rcases hfront : Port.front b.mssReqs b.now with _ | ⟨t, rest⟩
    · simp only [BusOp.handle, hfront] at h
      obtain rfl := Except.ok.inj h
      rfl
    · simp only [BusOp.handle, hfront] at h
      obtain ⟨b₁, hrecv, h⟩ := Run.bind_eq_ok.mp h
      unfold BusState.getReqFromBIU at hrecv
      split at hrecv
      · cases hrecv
      · obtain rfl := Except.ok.inj hrecv
        obtain rfl := Except.ok.inj h
        rfl
  | ackArrives =>
    rcases hfront : Port.front b.acks b.now with _ | ⟨done, rest⟩
    · simp only [BusOp.handle, hfront] at h
      obtain rfl := Except.ok.inj h
      rfl
    · simp only [BusOp.handle, hfront] at h
      obtain ⟨b₁, hrecv, h⟩ := Run.bind_eq_ok.mp h
      unfold BusState.getAckFromMSS at hrecv
      split at hrecv
      · obtain rfl := Except.ok.inj hrecv
        obtain rfl := Except.ok.inj h
        rfl
      · cases hrecv
  | handleMssAck =>
    rcases hq : b.biuReqQueue with _ | ⟨t, rest⟩
    · simp only [BusOp.handle, BusState.handleMSSAck, hq] at h
      cases h
    · simp only [BusOp.handle, BusState.handleMSSAck, hq] at h
      obtain rfl := Except.ok.inj h
      simp [BusState.outstanding, hq]
  | handleBiuReq =>
    rcases hq : b.biuReqQueue with _ | ⟨t, rest⟩
    · simp only [BusOp.handle, BusState.handleBIUReq, hq] at h
      cases h
    · simp only [BusOp.handle, BusState.handleBIUReq, hq] at h
      obtain rfl := Except.ok.inj h
      simp [BusState.outstanding, hq]
  | handleMssReq =>
    obtain rfl := Except.ok.inj h
    rfl

/-- A step of the memory system is a step of the L2 cache or leaves it alone, and what is at the
BIU is what the bus holds. -/
theorem step_cases {op : MemOp} (hat : s.l2.atBiu = s.bus.outstanding)
    (h : s.step p q op = .ok s') :
    s'.l2.atBiu = s'.bus.outstanding ∧
      (s'.l2 = s.l2 ∨ ∃ op', s.l2.step p op' = .ok s'.l2 ∧
        (op' = .handleBiuReq → op = .l2 .handleBiuReq)) := by
  cases op with
  | l2 op =>
    obtain ⟨u, hready, h⟩ := Run.bind_eq_ok.mp h
    obtain ⟨l2, hl2, h⟩ := Run.bind_eq_ok.mp h
    obtain rfl := Except.ok.inj h
    exact ⟨outstanding_follow (enabled_eq_ok.mp hready) hat hl2, .inr ⟨op, hl2, fun h => h ▸ rfl⟩⟩
  | bus op =>
    obtain ⟨u, -, h⟩ := Run.bind_eq_ok.mp h
    obtain ⟨b, hb, h⟩ := Run.bind_eq_ok.mp h
    obtain rfl := Except.ok.inj h
    exact ⟨hat.trans (outstanding_handle (checked_eq_ok.mp hb)).symm, .inl rfl⟩
  | respArrives =>
    obtain ⟨u, hphase, h⟩ := Run.bind_eq_ok.mp h
    have hphase : s.l2.phase = .portUpdate := of_decide_eq_true (enabled_eq_ok.mp hphase)
    rcases hfront : Port.front s.bus.resps s.bus.now with _ | ⟨t, rest⟩
    · simp only [hfront] at h
      cases h
    · obtain ⟨due, -, hresps⟩ := Port.front_eq_some hfront
      simp only [hfront] at h
      obtain ⟨l2, hl2, h⟩ := Run.bind_eq_ok.mp (checked_eq_ok.mp h)
      obtain rfl := Except.ok.inj h
      have hcons : s.l2.atBiu = t :: (Port.vals rest ++ s.bus.biuReqQueue ++
          Port.vals s.bus.reqs) := by
        rw [hat, BusState.outstanding, hresps]
        rfl
      refine ⟨by simp [hcons, BusState.outstanding], .inr ⟨.biuResp 0, ?_, fun h => by cases h⟩⟩
      apply L2System.step_eq_ok.mpr
      refine ⟨hphase, ?_, ?_⟩
      · simp [L2System.due, hcons]
      · have hget : s.l2.atBiu[0]? = some t := by simp [hcons]
        simp only [L2System.handle, hget, hl2, List.eraseIdx_zero]
        rfl
  | creditsArrive =>
    obtain ⟨u, hphase, h⟩ := Run.bind_eq_ok.mp h
    have hphase : s.l2.phase = .portUpdate := of_decide_eq_true (enabled_eq_ok.mp hphase)
    rcases hfront : Port.front s.bus.credits s.bus.now with _ | ⟨n, rest⟩
    · simp only [hfront] at h
      cases h
    · simp only [hfront] at h
      obtain rfl := Except.ok.inj h
      refine ⟨hat, .inr ⟨.biuCredits n, ?_, fun h => by cases h⟩⟩
      exact L2System.step_eq_ok.mpr ⟨hphase, rfl, rfl⟩

/-- A run of the memory system is a run of the L2 cache. -/
theorem reachable_l2 (h : Run.Reachable (MemSystem.step p q) {} s) :
    s.l2.atBiu = s.bus.outstanding ∧ Run.Reachable (L2System.step p) {} s.l2 := by
  refine h.invariant (I := fun s => s.l2.atBiu = s.bus.outstanding ∧
    Run.Reachable (L2System.step p) {} s.l2) ⟨rfl, .refl _ _⟩ ?_
  rintro op s s' ⟨hat, hreach⟩ hstep
  obtain ⟨hat', hsame | ⟨op', hop', -⟩⟩ := step_cases hat hstep
  · exact ⟨hat', hsame ▸ hreach⟩
  · exact ⟨hat', hreach.step hop'⟩

end MemSystem

/-! ## The room for the answers -/

namespace L2Traffic

variable {p : L2Params} {d d' : L2Traffic}

/-- The transactions that have been sent and whose answer has not been taken. -/
def returning (d : L2Traffic) : ℕ := d.atBiu.length + d.biuRespQueue.length

/-- Only a transaction that is sent adds to them. -/
theorem Move.returning_le (m : Move p d d') :
    d'.returning ≤ d.returning ∨ d.atBiu.length < d'.atBiu.length := by
  cases m with
  | @answer i t ht =>
    obtain ⟨hlt, -⟩ := List.getElem?_eq_some_iff.mp ht
    left
    simp only [returning, List.length_append, List.length_singleton, List.length_eraseIdx,
      if_pos hlt]
    omega
  | request ht =>
    right
    simp
  | reload ht _ _ =>
    left
    simp only [returning, ht]
    split <;> simp
  | _ => exact .inl le_rfl

/-- Each line has one transaction, and a pending request. -/
theorem Merged.length_le (H : Merged p d) : d.transactions.length ≤ d.missPendingBuffer.length := by
  have hle : (d.transactions.map fun t => p.cacheLine t.phyAddr : Multiset ℕ) ≤
      (d.missPendingBuffer.map fun r => p.cacheLine r.phyAddr : Multiset ℕ) := by
    apply Multiset.le_iff_count.mpr
    intro line
    have hout : (d.transactions.map fun t => p.cacheLine t.phyAddr).count line =
        d.outstanding p line := by
      rw [List.count, List.countP_map]
      exact List.countP_congr fun t _ => by simp [forLine]
    have hpend : (d.missPendingBuffer.map fun r => p.cacheLine r.phyAddr).count line =
        d.pendingOn p line := by
      rw [List.count, List.countP_map]
      exact List.countP_congr fun r _ => by simp [isClPresent]
    rw [Multiset.coe_count, Multiset.coe_count, hout, hpend, H line]
    exact Nat.min_le_right _ _
  simpa using Multiset.card_le_card hle

end L2Traffic

namespace L2System

variable {p : L2Params} {s s' : L2System p} {op : L2Op}

/-- The handler of the queue to the BIU would send a transaction. -/
def sends (s : L2System p) : Prop := s.l2.biuReqQueue ≠ [] ∧ 0 < s.l2.biuCredits

/-- A step adds to the transactions that return only if it sends one. -/
theorem returning_step (H : Phased s) (h : s.step p op = .ok s') :
    s'.traffic.returning ≤ s.traffic.returning ∨
      (op = .handleBiuReq ∧ s.sends ∧ s'.traffic.returning = s.traffic.returning + 1) := by
  by_cases hsend : op = .handleBiuReq
  · subst hsend
    obtain ⟨-, -, h⟩ := step_eq_ok.mp h
    rcases handleBiuReq_cases s.l2 with ⟨t, rest, hq, hcred, heq⟩ | ⟨-, heq⟩
    · simp only [handle, heq] at h
      obtain rfl := Except.ok.inj h
      refine .inr ⟨rfl, ⟨by simp [hq], hcred⟩, ?_⟩
      simp only [L2Traffic.returning, traffic, Option.toList_some, List.length_append,
        List.length_singleton]
      omega
    · simp only [handle, heq, Option.toList_none, List.append_nil] at h
      obtain rfl := Except.ok.inj h
      exact .inl le_rfl
  · refine (step_move H h).returning_le.imp id fun hlt => ?_
    have hlt : s.atBiu.length < s'.atBiu.length := hlt
    by_cases hresp : ∃ i, op = .biuResp i
    · obtain ⟨i, rfl⟩ := hresp
      obtain ⟨-, -, h⟩ := step_eq_ok.mp h
      rcases ht : s.atBiu[i]? with _ | t
      · simp only [handle, ht] at h
        obtain rfl := Except.ok.inj h
        omega
      · simp only [handle, ht] at h
        obtain ⟨l2, -, h⟩ := Run.bind_eq_ok.mp h
        obtain rfl := Except.ok.inj h
        have hle := List.length_eraseIdx_le s.atBiu i
        dsimp only at hlt
        omega
    · rw [MemSystem.atBiu_eq hsend (fun i hi => hresp ⟨i, hi⟩) h] at hlt
      omega

/-- If the miss buffer is not larger than the queue of the answers, there is room for the answer
of each transaction that is sent. -/
theorem returning_lt (hsize : p.missPendingBufferSize ≤ p.biuRespQueueSize)
    (h : Run.Reachable (step p) {} s) (hsends : s.sends) :
    s.traffic.returning < p.biuRespQueueSize := by
  have hlen := (merged_of_reachable h).length_le
  have hmiss := (Sound.of_reachable h).room.miss_le
  have hpos : 0 < s.l2.biuReqQueue.length := List.length_pos_of_ne_nil hsends.1
  simp only [L2Traffic.transactions, List.length_append, traffic] at hlen hmiss
  simp only [L2Traffic.returning, traffic]
  omega

end L2System

namespace MemSystem

variable {p : L2Params} {q : BusParams} {s : MemSystem p q}

/-- The assertions of the bus are other ones. -/
theorem bus_failsIn {b : BusState} (op : BusOp) :
    Run.FailsIn (fun a => a ≠ .biuRespQueueOverflow ∧ a ≠ .biuRespNotServiced)
      (op.handle q b) := by
  cases op with
  | reqArrives =>
    simp only [BusOp.handle]
    split
    · exact .ok _
    · refine .bind (.bind (.bind (spartaAssert_failsIn (by simp)) fun _ => .ok _) fun _ => .ok _)
        fun _ => .ok _
  | mssReqArrives =>
    simp only [BusOp.handle]
    split
    · exact .ok _
    · exact .bind (.ite (.error (by simp)) (.ok _)) fun _ => .ok _
  | ackArrives =>
    simp only [BusOp.handle]
    split
    · exact .ok _
    · exact .bind (.ite (.ok _) (.error (by simp))) fun _ => .ok _
  | handleMssAck =>
    simp only [BusOp.handle, BusState.handleMSSAck]
    split
    · exact .error (by simp)
    · exact .ok _
  | handleBiuReq =>
    simp only [BusOp.handle, BusState.handleBIUReq]
    split
    · exact .error (by simp)
    · exact .ok _
  | handleMssReq => exact .ok _

/-- With room for an answer that arrives the assertions on `biu_resp_queue_` do not fail. -/
theorem step_ne_error (hat : s.l2.atBiu = s.bus.outstanding)
    (hreach : Run.Reachable (L2System.step p) {} s.l2)
    (hle : s.l2.traffic.returning ≤ p.biuRespQueueSize) {op : MemOp} {a : Assertion}
    (ha : a = .biuRespQueueOverflow ∨ a = .biuRespNotServiced) :
    s.step p q op ≠ .error (.assertion a) := by
  intro h
  cases op with
  | l2 op =>
    rcases Run.bind_eq_error.mp h with hen | ⟨u, hready, h⟩
    · exact enabled_ne_assertion hen
    rcases Run.bind_eq_error.mp h with h | ⟨l2, -, h⟩
    · obtain ⟨⟨i, rfl⟩, -⟩ := L2System.assertion_of_reachable hreach h
      cases enabled_eq_ok.mp hready
    · cases h
  | bus op =>
    rcases Run.bind_eq_error.mp h with hen | ⟨u, -, h⟩
    · exact enabled_ne_assertion hen
    rcases Run.bind_eq_error.mp h with h | ⟨l2, -, h⟩
    · rcases hb : op.handle q s.bus with e | b
      · rw [hb] at h
        obtain rfl : e = a := by simpa [checked] using h
        obtain ⟨hne, hne'⟩ := bus_failsIn op e hb
        exact ha.elim hne hne'
      · rw [hb] at h
        cases h
    · cases h
  | respArrives =>
    rcases Run.bind_eq_error.mp h with hen | ⟨u, -, h⟩
    · exact enabled_ne_assertion hen
    rcases hfront : Port.front s.bus.resps s.bus.now with _ | ⟨t, rest⟩
    · simp only [hfront] at h
      cases h
    · -- the answer was outstanding, so there is room for it
      obtain ⟨due, -, hresps⟩ := Port.front_eq_some hfront
      have hlen : s.l2.l2.biuRespQueue.length < p.biuRespQueueSize := by
        simp only [L2Traffic.returning, L2System.traffic, hat, BusState.outstanding, hresps,
          Port.vals, List.map_cons, List.cons_append, List.length_cons] at hle
        omega
      have hok : ∃ s', s.getResp t rest = .ok s' := by
        refine ⟨_, Run.bind_eq_ok.mpr ⟨_, Run.bind_eq_ok.mpr ⟨_, appendQueue_eq_ok.mpr
          ⟨hlen.le, rfl⟩, Run.bind_eq_ok.mpr ⟨(), ?_, rfl⟩⟩, rfl⟩⟩
        simpa [Nat.succ_le_iff] using hlen
      obtain ⟨s', hs'⟩ := hok
      simp only [hfront, hs'] at h
      cases h
  | creditsArrive =>
    rcases Run.bind_eq_error.mp h with hen | ⟨u, -, h⟩
    · exact enabled_ne_assertion hen
    rcases hfront : Port.front s.bus.credits s.bus.now with _ | ⟨n, rest⟩
    · simp only [hfront] at h
      cases h
    · simp only [hfront] at h
      cases h

end MemSystem

/-- In a run in which the L2 cache sends a transaction only while fewer than `biu_resp_queue_size`
are sent and not taken, `biu_resp_queue_` is never longer than that and its assertions do not
fail. -/
theorem biu_resp_queue_bounded (p : L2Params) (q : BusParams) {ops : List MemOp}
    {s : MemSystem p q}
    (hroom : ∀ t, Run.Takes (MemSystem.step p q) {} ops t (.l2 .handleBiuReq) → t.l2.sends →
      t.bus.outstanding.length + t.l2.l2.biuRespQueue.length < p.biuRespQueueSize)
    (hs : Run.Visits (MemSystem.step p q) {} ops s) :
    s.l2.l2.biuRespQueue.length ≤ p.biuRespQueueSize ∧
      ∀ op, s.step p q op ≠ .error (.assertion .biuRespQueueOverflow) ∧
        s.step p q op ≠ .error (.assertion .biuRespNotServiced) := by
  have hle : s.l2.traffic.returning ≤ p.biuRespQueueSize := by
    have hinv : (s.l2.atBiu = s.bus.outstanding ∧ L2System.Phased s.l2) ∧
        s.l2.traffic.returning ≤ p.biuRespQueueSize := by
      apply hs.invariant (I := fun s => (s.l2.atBiu = s.bus.outstanding ∧ L2System.Phased s.l2) ∧
        s.l2.traffic.returning ≤ p.biuRespQueueSize)
      · refine ⟨⟨rfl, ?_⟩, Nat.zero_le _⟩
        intro h
        cases h
      · rintro op s s' ⟨⟨hat, P⟩, hle⟩ htakes hstep
        obtain ⟨hat', hsame | ⟨op', hop', hsend⟩⟩ := MemSystem.step_cases hat hstep
        · rw [hsame]
          exact ⟨⟨hsame ▸ hat', P⟩, hle⟩
        · refine ⟨⟨hat', P.step hop'⟩, ?_⟩
          rcases L2System.returning_step P hop' with hless | ⟨rfl, hsends, heq⟩
          · exact hless.trans hle
          · obtain rfl := hsend rfl
            have hlt := hroom s htakes hsends
            rw [heq, L2Traffic.returning]
            simp only [L2System.traffic, hat]
            exact hlt
    exact hinv.2
  obtain ⟨hat, hreach⟩ := MemSystem.reachable_l2 hs.reachable
  have hqueue : s.l2.l2.biuRespQueue.length ≤ s.l2.traffic.returning := by
    simp only [L2Traffic.returning, L2System.traffic]
    omega
  exact ⟨hqueue.trans hle, fun op => ⟨MemSystem.step_ne_error hat hreach hle (.inl rfl),
    MemSystem.step_ne_error hat hreach hle (.inr rfl)⟩⟩

/-- An L2 cache with as many entries for answers as the miss buffer has. -/
def roomyL2 : L2Params := { smallL2 with biuRespQueueSize := 1 }

/-- A miss is sent to the memory and its answer arrives. -/
def answeredMissOps : List MemOp :=
  [.l2 .tick, .l2 .postTick, .l2 .nextCycle,
   .l2 (.req .icache { id := 0, phyAddr := 0 }), .creditsArrive, .l2 .tick,
   .l2 (.handleReq .icache), .l2 .postTick, .l2 .createReq, .l2 .nextCycle,
   .l2 .tick, .l2 .postTick, .l2 .issueReq, .l2 .nextCycle,
   .l2 .tick, .l2 .lookup, .l2 .postTick, .l2 .nextCycle,
   .l2 .tick, .l2 .result, .l2 .handleBiuReq, .l2 .postTick, .l2 .nextCycle,
   .bus .reqArrives, .l2 .tick, .bus .handleBiuReq, .l2 .postTick, .l2 .nextCycle,
   .l2 .tick, .l2 .postTick, .l2 .nextCycle,
   .bus .mssReqArrives, .l2 .tick, .l2 .postTick, .l2 .nextCycle,
   .l2 .tick, .bus .handleMssReq, .l2 .postTick, .l2 .nextCycle,
   .bus .ackArrives, .l2 .tick, .bus .handleMssAck, .l2 .postTick, .l2 .nextCycle,
   .creditsArrive, .l2 .tick, .l2 .postTick, .l2 .nextCycle,
   .respArrives]

theorem biu_resp_queue_bounded_sample :
    ∃ s, Run.Visits (MemSystem.step roomyL2 fastBus) {} answeredMissOps s ∧
      s.l2.l2.biuRespQueue.length = 1 ∧ s.l2.l2.biuRespQueue.length ≤ roomyL2.biuRespQueueSize := by
  have heval : (answeredMissOps.foldlM (MemSystem.step roomyL2 fastBus) {}).toOption.map
      (fun s => s.l2.l2.biuRespQueue.length) = some 1 := by
    decide +kernel
  obtain ⟨s, hs, hlen⟩ := Run.ok_of_eval heval
  have hvisits := Run.Visits.last hs
  refine ⟨s, hvisits, hlen, (biu_resp_queue_bounded roomyL2 fastBus ?_ hvisits).1⟩
  intro t htakes hsends
  obtain ⟨hat, hreach⟩ := MemSystem.reachable_l2 htakes.visits.reachable
  have hlt := L2System.returning_lt (p := roomyL2) le_rfl hreach hsends
  simp only [L2Traffic.returning, L2System.traffic, hat] at hlt
  exact hlt

/-- An L2 cache with two entries in the miss buffer and one for answers. -/
def tightL2 : L2Params :=
  { smallL2 with
    biuRespQueueSize := 1
    missPendingBufferSize := 2
    missPendingBufferSize_pos := Nat.two_pos
    missPendingBufferSize_lt := u32_lt (nat_lit 2) }

/-- Two misses fill the miss buffer and a third request the queue before the pipeline, so neither
answer can be taken. -/
def overflowOps : List MemOp :=
  [.l2 .tick, .l2 .postTick, .l2 .nextCycle,
   .l2 (.req .icache { id := 0, phyAddr := 0 }), .l2 (.req .dcache { id := 0, phyAddr := 64 }),
   .creditsArrive, .l2 .tick, .l2 (.handleReq .icache), .l2 (.handleReq .dcache), .l2 .postTick,
   .l2 .createReq, .l2 .nextCycle,
   .l2 (.req .icache { id := 0, phyAddr := 128 }), .l2 .tick, .l2 (.handleReq .icache),
   .l2 .postTick, .l2 .createReq, .l2 .issueReq, .l2 .nextCycle,
   .l2 .tick, .l2 .lookup, .l2 .postTick, .l2 .createReq, .l2 .issueReq, .l2 .nextCycle,
   .l2 .tick, .l2 .result, .l2 .lookup, .l2 .handleBiuReq, .l2 .postTick, .l2 .createReq,
   .l2 .issueReq, .l2 .nextCycle,
   .bus .reqArrives, .l2 .tick, .l2 .result, .l2 .handleBiuReq, .bus .handleBiuReq, .l2 .postTick,
   .l2 .issueReq, .l2 .nextCycle,
   .bus .reqArrives, .l2 .tick, .l2 .postTick, .l2 .issueReq, .l2 .nextCycle,
   .bus .mssReqArrives, .l2 .tick, .l2 .postTick, .l2 .issueReq, .l2 .nextCycle,
   .l2 .tick, .bus .handleMssReq, .l2 .postTick, .l2 .issueReq, .l2 .nextCycle,
   .bus .ackArrives, .l2 .tick, .bus .handleMssAck, .bus .handleBiuReq, .l2 .postTick,
   .l2 .issueReq, .l2 .nextCycle,
   .creditsArrive, .l2 .tick, .l2 .postTick, .l2 .issueReq, .l2 .nextCycle,
   .bus .mssReqArrives, .respArrives, .l2 .tick, .l2 .handleBiuResp, .l2 .postTick, .l2 .createReq,
   .l2 .issueReq, .l2 .nextCycle,
   .l2 .tick, .bus .handleMssReq, .l2 .postTick, .l2 .createReq, .l2 .issueReq, .l2 .nextCycle,
   .bus .ackArrives, .l2 .tick, .bus .handleMssAck, .l2 .postTick, .l2 .createReq, .l2 .issueReq,
   .l2 .nextCycle,
   .creditsArrive, .l2 .tick, .l2 .postTick, .l2 .createReq, .l2 .issueReq, .l2 .nextCycle]

theorem biu_resp_queue_overflows :
    ¬∀ (p : L2Params) (q : BusParams) (s : MemSystem p q),
      Run.Reachable (MemSystem.step p q) {} s →
      ∀ op, s.step p q op ≠ .error (.assertion .biuRespNotServiced) := by
  intro hall
  have heval : (overflowOps.foldlM (MemSystem.step tightL2 fastBus) {}).toOption.map
      (fun s => match s.step tightL2 fastBus .respArrives with
        | .error e => some e
        | .ok _ => none) = some (some (.assertion .biuRespNotServiced)) := by
    decide +kernel
  obtain ⟨s, hs, hval⟩ := Run.ok_of_eval heval
  apply hall tightL2 fastBus s ⟨_, hs⟩ .respArrives
  split at hval
  · rename_i e he
    rw [he, Option.some.inj hval]
  · cases hval

end Olympia
