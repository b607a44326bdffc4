import Mathlib.Data.List.Perm.Basic
import Mathlib.Logic.Relation
import Olympia.ICache.System

/-!
# What the instruction cache does

`Move` says once what a step can do to a request: Fetch sends it, it arrives, it is looked up, it
waits for a line, it is replayed, it is answered.  Every step is a sequence of moves
(`step_moves`); an arbitration is a linefill, an access and a request to the L2 cache, so what holds
after each of them holds after all three.

A move has the cycle of the next access beside the state.  An access takes the cycle it runs in,
and the next one is in a later cycle.
-/

namespace Olympia

open ICache

namespace ICacheSystem

variable {p : ICacheParams} {addr : ℕ → ℕ} {s s' : ICacheSystem p} {op : ICacheOp}

/-- The next cycle in which the arbitration can run. -/
def nextAccess (s : ICacheSystem p) : ℕ :=
  if s.phase = .tick ∧ s.ic.evArbitrate.now = false then s.now + 1 else s.now

/-- What can happen to the requests, and what goes with it. -/
inductive Move (addr : ℕ → ℕ) : ℕ × ICacheSystem p → ℕ × ICacheSystem p → Prop where
  /-- Fetch sends a request. -/
  | request {arb c : ℕ} {s : ICacheSystem p} (h : 0 < s.creditsIcache)
      (hc : c = u32Sub s.creditsIcache 1) :
    Move addr (arb, s) (arb, { s with
      reqs := Port.send s.reqs (s.now + 1) s.requested
      creditsIcache := c
      requested := s.requested + 1 })
  | arrive {arb d r : ℕ} {s : ICacheSystem p} {rest : List (Arrival ℕ)}
      (h : s.reqs = ⟨d, r⟩ :: rest) :
    Move addr (arb, s) (arb, { s with
      reqs := rest
      ic := { s.ic with fetchReqQueue := s.ic.fetchReqQueue ++ [r] } })
  /-- The L2 cache answers. -/
  | answer {arb i : ℕ} {s : ICacheSystem p} {m : Arrival L2Access} (h : s.atL2[i]? = some m)
      (hdue : m.due ≤ s.now) (harb : s.now ≤ arb) :
    Move addr (arb, s) (arb, { s with
      atL2 := s.atL2.eraseIdx i
      ic := { s.ic with
        l2cacheRespQueue := s.ic.l2cacheRespQueue ++ [{ m.val with cacheState := .hit }] } })
  | reload {s : ICacheSystem p} {fill : L2Access} {rest : List L2Access}
      (h : s.ic.l2cacheRespQueue = fill :: rest) :
    Move addr (s.now, s) (s.now, { s with
      ic := { s.ic with
        l2cacheRespQueue := rest
        replayBuffer := s.ic.replayBuffer ++
          s.ic.pendingMissBuffer.filter (sameLine p addr (p.blockAddr fill.phyAddr))
        pendingMissBuffer := s.ic.pendingMissBuffer.filter fun r =>
          !sameLine p addr (p.blockAddr fill.phyAddr) r } })
  | replay {r : ℕ} {s : ICacheSystem p} {rest : List ℕ} (h : s.ic.replayBuffer = r :: rest) :
    Move addr (s.now, s) (s.now + 1, { s with
      ic := { s.ic with
        replayBuffer := rest
        evReplayReady := Port.send s.ic.evReplayReady (s.now + p.cacheLatency) r } })
  | hit {r : ℕ} {s : ICacheSystem p} {rest : List ℕ} (hrep : s.ic.replayBuffer = [])
      (h : s.ic.fetchReqQueue = r :: rest) :
    Move addr (s.now, s) (s.now + 1, { s with
      ic := { s.ic with
        objs := Function.update s.ic.objs r .hit
        fetchReqQueue := rest
        evRespond := Port.send s.ic.evRespond (s.now + p.cacheLatency) r } })
  /-- A miss of a block that is pending. -/
  | merge {r : ℕ} {s : ICacheSystem p} {rest : List ℕ} (hrep : s.ic.replayBuffer = [])
      (h : s.ic.fetchReqQueue = r :: rest)
      (hpend : s.ic.pendingMissBuffer.any (sameLine p addr (p.blockAddr (addr r))) = true) :
    Move addr (s.now, s) (s.now + 1, { s with
      ic := { s.ic with
        objs := Function.update s.ic.objs r .miss
        fetchReqQueue := rest
        pendingMissBuffer := s.ic.pendingMissBuffer ++ [r]
        evRespond := Port.send s.ic.evRespond (s.now + p.cacheLatency) r } })
  | miss {r : ℕ} {s : ICacheSystem p} {rest : List ℕ} (hrep : s.ic.replayBuffer = [])
      (h : s.ic.fetchReqQueue = r :: rest)
      (hpend : s.ic.pendingMissBuffer.any (sameLine p addr (p.blockAddr (addr r))) = false) :
    Move addr (s.now, s) (s.now + 1, { s with
      ic := { s.ic with
        objs := Function.update s.ic.objs r .miss
        fetchReqQueue := rest
        missQueue := s.ic.missQueue ++ [r]
        pendingMissBuffer := s.ic.pendingMissBuffer ++ [r]
        evRespond := Port.send s.ic.evRespond (s.now + p.cacheLatency) r } })
  /-- A request goes to the L2 cache. -/
  | send {arb r : ℕ} {s : ICacheSystem p} {rest : List ℕ} (h : s.ic.missQueue = r :: rest)
      (harb : arb ≤ s.now + 1) :
    Move addr (arb, s) (arb, { s with
      atL2 := s.atL2 ++ [⟨s.now + 2, addr r, s.ic.objs r⟩]
      ic := { s.ic with missQueue := rest } })
  | respondHit {arb d r : ℕ} {s : ICacheSystem p} {rest : List (Arrival ℕ)}
      (h : s.ic.evRespond = ⟨d, r⟩ :: rest) (hdue : d ≤ s.now) (hobj : s.ic.objs r = .hit) :
    Move addr (arb, s) (arb, { s with
      ic := { s.ic with evRespond := rest }
      resps := Port.send s.resps (s.now + 1) r
      credits := s.credits ++ [1]
      returned := s.returned ++ [r] })
  | respondMiss {arb d r : ℕ} {s : ICacheSystem p} {rest : List (Arrival ℕ)}
      (h : s.ic.evRespond = ⟨d, r⟩ :: rest) (hdue : d ≤ s.now) (hobj : s.ic.objs r ≠ .hit) :
    Move addr (arb, s) (arb, { s with
      ic := { s.ic with evRespond := rest }
      resps := Port.send s.resps (s.now + 1) r })
  | ready {arb d r : ℕ} {s : ICacheSystem p} {rest : List (Arrival ℕ)}
      (h : s.ic.evReplayReady = ⟨d, r⟩ :: rest) (hdue : d ≤ s.now) :
    Move addr (arb, s) (arb, { s with
      ic := { s.ic with objs := Function.update s.ic.objs r .hit, evReplayReady := rest }
      resps := Port.send s.resps (s.now + 1) r
      credits := s.credits ++ [1]
      returned := s.returned ++ [r] })
  /-- An answer arrives at Fetch. -/
  | deliver {arb d r : ℕ} {s : ICacheSystem p} {rest : List (Arrival ℕ)}
      (h : s.resps = ⟨d, r⟩ :: rest) :
    Move addr (arb, s) (arb, { s with
      resps := rest
      received := s.received ++ [(r, s.ic.objs r)] })
  | credit {arb n c : ℕ} {s : ICacheSystem p} {rest : List ℕ} (h : s.credits = n :: rest)
      (hc : c = u32Add s.creditsIcache n) :
    Move addr (arb, s) (arb, { s with
      credits := rest
      creditsIcache := c })
  /-- The events, the tags and the credits of the L2 cache. -/
  | frame {arb arb' : ℕ} {s : ICacheSystem p} (phase : MssPhase) (cache : p.cacheModel.State)
      (n : ℕ) (e e' : UniqueEvent) (hle : arb ≤ arb') :
    Move addr (arb, s) (arb', { s with
      phase := phase
      ic := { s.ic with
        l1Cache := cache
        l2cacheCredits := n
        evArbitrate := e
        evL2cacheRequest := e' } })
  | clock {s : ICacheSystem p} (hrespond : Port.quiet s.ic.evRespond s.now = true)
      (hready : Port.quiet s.ic.evReplayReady s.now = true)
      (hresps : Port.quiet s.resps s.now = true) :
    Move addr (s.now + 1, s) (s.now + 1, { s with now := s.now + 1 })

/-- A sequence of moves. -/
def Moves (addr : ℕ → ℕ) : ℕ × ICacheSystem p → ℕ × ICacheSystem p → Prop :=
  Relation.ReflTransGen (Move addr)

/-- What is left to do until everything is answered. -/
def work (s : ICacheSystem p) : ℕ :=
  9 * s.reqs.length + 8 * s.ic.fetchReqQueue.length + 3 * s.ic.missQueue.length +
    2 * s.atL2.length + s.ic.l2cacheRespQueue.length + 3 * s.ic.pendingMissBuffer.length +
    2 * s.ic.replayBuffer.length + s.ic.evReplayReady.length + s.ic.evRespond.length

/-- A sequence of moves that does something. -/
def Served (addr : ℕ → ℕ) (x x' : ℕ × ICacheSystem p) : Prop :=
  ∃ y z, Moves addr x y ∧ Move addr y z ∧ z.2.work < y.2.work ∧ Moves addr z x'

theorem Served.moves {x x' : ℕ × ICacheSystem p} (h : Served addr x x') : Moves addr x x' := by
  obtain ⟨y, z, hxy, hyz, -, hzx⟩ := h
  exact (hxy.tail hyz).trans hzx

/-! ## The moves of the handlers -/

/-- `makeL2CacheRequest_` sends at most the front of its queue. -/
theorem makeL2CacheRequest_moves (addr : ℕ → ℕ) (s : ICacheSystem p) {arb : ℕ}
    (harb : arb ≤ s.now + 1) :
    Moves addr (arb, s) (arb, s.emit (makeL2CacheRequest addr s.ic)) := by
  unfold makeL2CacheRequest
  rcases hq : s.ic.missQueue with _ | ⟨r, rest⟩
  · simp only [emit, Option.map_none, Option.toList_none, List.append_nil, Option.bind_none]
    exact .refl
  · dsimp only
    split
    · simp only [emit, Option.map_none, Option.toList_none, List.append_nil, Option.bind_none]
      exact .refl
    · refine .tail (.single (.send hq harb)) ?_
      split
      · simp only [emit, Option.map_none, Option.map_some, Option.toList_none, Option.toList_some,
          List.append_nil, Option.bind_none]
        exact .frame s.phase s.ic.l1Cache _ s.ic.evArbitrate _ le_rfl
      · simp only [emit, Option.map_none, Option.map_some, Option.toList_none, Option.toList_some,
          List.append_nil, Option.bind_none]
        exact .frame s.phase s.ic.l1Cache _ s.ic.evArbitrate _ le_rfl

/-- `makeL2CacheRequest_` looks at its queue and its credits only. -/
theorem makeL2CacheRequest_frame (ic : ICacheState p) (pending queue : List ℕ)
    (respond : List (Arrival ℕ)) :
    makeL2CacheRequest addr { ic with
        pendingMissBuffer := pending, evRespond := respond, fetchReqQueue := queue } =
      { makeL2CacheRequest addr ic with
        st := { (makeL2CacheRequest addr ic).st with
          pendingMissBuffer := pending, evRespond := respond, fetchReqQueue := queue } } := by
  rcases ic with ⟨_, _, _, _, _, _ | ⟨r, rest⟩, _, _, _, _, _, _⟩
  · rfl
  · unfold makeL2CacheRequest
    dsimp only
    split
    · rfl
    · split <;> rfl

theorem makeL2CacheRequest_pending (addr : ℕ → ℕ) (ic : ICacheState p) :
    (makeL2CacheRequest addr ic).st.pendingMissBuffer = ic.pendingMissBuffer ∧
      (makeL2CacheRequest addr ic).st.evRespond = ic.evRespond := by
  unfold makeL2CacheRequest
  rcases ic.missQueue with _ | ⟨r, rest⟩
  · exact ⟨rfl, rfl⟩
  · dsimp only
    split
    · exact ⟨rfl, rfl⟩
    · split <;> exact ⟨rfl, rfl⟩

theorem pushPending_eq_ok {out out' : ICacheOut p} {r : ℕ} :
    pushPending out r = .ok out' ↔
      out.st.pendingMissBuffer.length < ICacheParams.fetchQueueSize ∧
        { out with
          st := { out.st with pendingMissBuffer := out.st.pendingMissBuffer ++ [r] } } = out' := by
  unfold pushPending
  rw [Run.bind_eq_ok]
  constructor
  · rintro ⟨u, hroom, h⟩
    exact ⟨by simpa using hroom, Except.ok.inj h⟩
  · rintro ⟨hroom, rfl⟩
    exact ⟨(), by simpa using hroom, rfl⟩

/-- A read access is a hit, a miss of a pending block, or a miss that asks for its block. -/
theorem readAccess_moves {r : ℕ} {rest : List ℕ} {out : ICacheOut p}
    (hrep : s.ic.replayBuffer = []) (hq : s.ic.fetchReqQueue = r :: rest)
    (h : readAccess addr s.now s.ic r rest = .ok out) :
    Served addr (s.now, s) (s.now + 1, s.emit out) := by
  unfold readAccess at h
  rcases hlook : p.cacheModel.lookup p.l1AlwaysHit s.ic.l1Cache (addr r) with ⟨hit, cache⟩
  rw [hlook] at h
  have htags : Moves addr (s.now, s) (s.now, { s with ic := { s.ic with l1Cache := cache } }) :=
    .single (.frame s.phase cache s.ic.l2cacheCredits s.ic.evArbitrate s.ic.evL2cacheRequest le_rfl)
  cases hit with
  | true =>
    obtain rfl := Except.ok.inj h
    simp only [emit, Option.map_none, Option.toList_none, List.append_nil, Option.bind_none]
    refine ⟨_, _, htags, .hit (s := { s with ic := { s.ic with l1Cache := cache } }) hrep hq, ?_,
      .refl⟩
    simp only [work, hq, Port.length_send, List.length_cons]
    omega
  | false =>
    obtain ⟨out', hadd, h⟩ := Run.bind_eq_ok.mp h
    obtain rfl := Except.ok.inj h
    unfold addToMissQueue at hadd
    split at hadd
    · rename_i hpend
      obtain ⟨-, rfl⟩ := pushPending_eq_ok.mp hadd
      simp only [emit, Option.map_none, Option.toList_none, List.append_nil, Option.bind_none]
      refine ⟨_, _, htags,
        .merge (s := { s with ic := { s.ic with l1Cache := cache } }) hrep hq hpend, ?_, .refl⟩
      simp only [work, hq, Port.length_send, List.length_append, List.length_cons, List.length_nil]
      omega
    · rename_i hpend
      obtain ⟨-, rfl⟩ := pushPending_eq_ok.mp hadd
      refine ⟨_, _, htags, .miss (s := { s with ic := { s.ic with l1Cache := cache } }) hrep hq
        (Bool.eq_false_of_not_eq_true hpend), ?_, ?_⟩
      · simp only [work, hq, Port.length_send, List.length_append, List.length_cons,
          List.length_nil]
        omega
      have hsend := makeL2CacheRequest_moves addr { s with
        ic := { s.ic with
          l1Cache := cache
          objs := Function.update s.ic.objs r .miss
          fetchReqQueue := rest
          missQueue := s.ic.missQueue ++ [r]
          pendingMissBuffer := s.ic.pendingMissBuffer ++ [r]
          evRespond := Port.send s.ic.evRespond (s.now + p.cacheLatency) r } } (le_refl (s.now + 1))
      rw [makeL2CacheRequest_frame { s.ic with
        l1Cache := cache
        objs := Function.update s.ic.objs r .miss
        missQueue := s.ic.missQueue ++ [r] }] at hsend
      have hkeep := makeL2CacheRequest_pending addr { s.ic with
        l1Cache := cache
        objs := Function.update s.ic.objs r .miss
        missQueue := s.ic.missQueue ++ [r] }
      simp only [requestBlock, setCacheState, respondLater, hkeep.1, hkeep.2]
      exact hsend

theorem access_moves {out : ICacheOut p} (h : access addr s.now s.ic = .ok out) :
    (s.ic.replayBuffer = [] ∧ s.ic.fetchReqQueue = [] ∧ out = { st := s.ic }) ∨
      Served addr (s.now, s) (s.now + 1, s.emit out) := by
  unfold access at h
  rcases hrep : s.ic.replayBuffer with _ | ⟨r, rest⟩
  · rcases hq : s.ic.fetchReqQueue with _ | ⟨r, rest⟩
    · rw [hrep, hq] at h
      exact .inl ⟨rfl, rfl, (Except.ok.inj h).symm⟩
    · rw [hrep, hq] at h
      exact .inr (readAccess_moves hrep hq h)
  · rw [hrep] at h
    obtain rfl := Except.ok.inj h
    simp only [emit, Option.map_none, Option.toList_none, List.append_nil, Option.bind_none]
    refine .inr ⟨_, _, .refl, .replay hrep, ?_, .refl⟩
    simp only [work, hrep, Port.length_send, List.length_cons]
    omega

theorem linefill_moves (addr : ℕ → ℕ) (s : ICacheSystem p) :
    (s.ic.l2cacheRespQueue = [] ∧ linefill addr s.ic = s.ic) ∨
      Served addr (s.now, s) (s.now, { s with ic := linefill addr s.ic }) := by
  unfold linefill
  rcases hq : s.ic.l2cacheRespQueue with _ | ⟨fill, rest⟩
  · exact .inl ⟨rfl, rfl⟩
  · refine .inr ⟨_, _, .refl, .reload hq, ?_, .single (.frame s.phase _ s.ic.l2cacheCredits _
      s.ic.evL2cacheRequest le_rfl)⟩
    have hparts := (List.filter_append_perm (sameLine p addr (p.blockAddr fill.phyAddr))
      s.ic.pendingMissBuffer).length_eq
    simp only [List.length_append] at hparts
    simp only [work, hq, List.length_append, List.length_cons]
    omega

/-- The arbitration: a linefill, an access and a request to the L2 cache. -/
theorem doArbitration_moves {out : ICacheOut p} (h : doArbitration addr s.now s.ic = .ok out) :
    Moves addr (s.now, s) (s.now + 1, s.emit out) ∧
      (s.ic.l2cacheRespQueue ≠ [] ∨ s.ic.replayBuffer ≠ [] ∨ s.ic.fetchReqQueue ≠ [] →
        Served addr (s.now, s) (s.now + 1, s.emit out)) := by
  obtain ⟨acc, hacc, h⟩ := Run.bind_eq_ok.mp h
  obtain rfl := Except.ok.inj h
  have hfire : Moves addr (s.now, s) (s.now, { s with
      ic := { s.ic with evArbitrate := s.ic.evArbitrate.fire } }) :=
    .single (.frame s.phase s.ic.l1Cache s.ic.l2cacheCredits _ s.ic.evL2cacheRequest le_rfl)
  have hend : Moves addr (s.now + 1, s.emit acc)
      (s.now + 1, s.emit { acc with st := rearbitrate acc.st }) := by
    unfold rearbitrate
    split
    · exact .single (.frame s.phase acc.st.l1Cache acc.st.l2cacheCredits _
        acc.st.evL2cacheRequest le_rfl)
    · exact .refl
  have haccess := access_moves (s := { s with
    ic := linefill addr { s.ic with evArbitrate := s.ic.evArbitrate.fire } }) hacc
  rcases linefill_moves addr { s with ic := { s.ic with evArbitrate := s.ic.evArbitrate.fire } }
    with ⟨hresp, hsame⟩ | ⟨y, z, hy, hyz, hlt, hz⟩
  · rcases haccess with ⟨hrep, hfetch, hout⟩ | ⟨y, z, hy, hyz, hlt, hz⟩
    · -- nothing is in the queues
      dsimp only at hresp hsame hrep hfetch hout
      rw [hsame] at hrep hfetch
      refine ⟨hfire.trans (.trans (.single ?_) hend), ?_⟩
      · rw [hout, hsame]
        simp only [emit, Option.map_none, Option.toList_none, List.append_nil, Option.bind_none]
        exact .frame s.phase s.ic.l1Cache s.ic.l2cacheCredits _ s.ic.evL2cacheRequest
          (Nat.le_succ _)
      · rintro (hne | hne | hne)
        · exact absurd hresp hne
        · exact absurd hrep hne
        · exact absurd hfetch hne
    · dsimp only at hsame
      rw [hsame] at hy
      have hserved : Served addr (s.now, s)
          (s.now + 1, s.emit { acc with st := rearbitrate acc.st }) :=
        ⟨y, z, hfire.trans hy, hyz, hlt, hz.trans hend⟩
      exact ⟨hserved.moves, fun _ => hserved⟩
  · have hrest : Moves addr (s.now, { s with
        ic := linefill addr { s.ic with evArbitrate := s.ic.evArbitrate.fire } })
        (s.now + 1, s.emit acc) := by
      rcases haccess with ⟨-, -, hout⟩ | hserved
      · rw [hout]
        simp only [emit, Option.map_none, Option.toList_none, List.append_nil, Option.bind_none]
        exact .single (.frame s.phase _ _ _ _ (Nat.le_succ _))
      · exact hserved.moves
    have hserved : Served addr (s.now, s)
        (s.now + 1, s.emit { acc with st := rearbitrate acc.st }) :=
      ⟨y, z, hfire.trans hy, hyz, hlt, (hz.trans hrest).trans hend⟩
    exact ⟨hserved.moves, fun _ => hserved⟩

/-! ## The events

What is left in a queue has its event scheduled. -/

/-- The requests to the L2 cache that wait have a reason. -/
def RequestAwake (ic : ICacheState p) : Prop :=
  ic.missQueue ≠ [] → ic.l2cacheCredits = 0 ∨ ic.evL2cacheRequest.Pending

def ArbitrateAwake (ic : ICacheState p) : Prop :=
  ic.l2cacheRespQueue ≠ [] ∨ ic.replayBuffer ≠ [] ∨ ic.fetchReqQueue ≠ [] → ic.evArbitrate.Pending

/-- Whatever was scheduled before, `makeL2CacheRequest_` leaves the queue awake. -/
theorem makeL2CacheRequest_awake (ic : ICacheState p) :
    RequestAwake (makeL2CacheRequest addr ic).st := by
  unfold makeL2CacheRequest
  rcases hq : ic.missQueue with _ | ⟨r, rest⟩
  · intro hne
    exact absurd hq hne
  · dsimp only
    split
    · rename_i hnone
      intro _
      exact .inl hnone
    · split
      · intro _
        exact .inr UniqueEvent.pending_scheduleNext
      · rename_i hlast
        intro hne
        left
        by_contra hcredit
        exact hlast ⟨Nat.pos_of_ne_zero hcredit, hne⟩

theorem makeL2CacheRequest_arbitrate (ic : ICacheState p) :
    (makeL2CacheRequest addr ic).st.evArbitrate = ic.evArbitrate := by
  unfold makeL2CacheRequest
  rcases ic.missQueue with _ | ⟨r, rest⟩
  · rfl
  · dsimp only
    split
    · rfl
    · split <;> rfl

theorem makeL2CacheRequest_arbitrateAwake {ic : ICacheState p} (h : ArbitrateAwake ic) :
    ArbitrateAwake (makeL2CacheRequest addr ic).st := by
  unfold makeL2CacheRequest
  rcases ic.missQueue with _ | ⟨r, rest⟩
  · exact h
  · dsimp only
    split
    · exact h
    · split <;> exact h

theorem readAccess_events {now r : ℕ} {rest : List ℕ} {ic : ICacheState p} {out : ICacheOut p}
    (h : readAccess addr now ic r rest = .ok out) :
    out.st.evArbitrate = ic.evArbitrate ∧ (RequestAwake ic → RequestAwake out.st) := by
  unfold readAccess at h
  rcases hlook : p.cacheModel.lookup p.l1AlwaysHit ic.l1Cache (addr r) with ⟨hit, cache⟩
  rw [hlook] at h
  cases hit with
  | true =>
    obtain rfl := Except.ok.inj h
    exact ⟨rfl, id⟩
  | false =>
    obtain ⟨out', hadd, h⟩ := Run.bind_eq_ok.mp h
    obtain rfl := Except.ok.inj h
    unfold addToMissQueue at hadd
    split at hadd
    · obtain ⟨-, rfl⟩ := pushPending_eq_ok.mp hadd
      exact ⟨rfl, id⟩
    · obtain ⟨-, rfl⟩ := pushPending_eq_ok.mp hadd
      exact ⟨makeL2CacheRequest_arbitrate _, fun _ => makeL2CacheRequest_awake _⟩

theorem access_events {now : ℕ} {ic : ICacheState p} {out : ICacheOut p}
    (h : access addr now ic = .ok out) :
    out.st.evArbitrate = ic.evArbitrate ∧ (RequestAwake ic → RequestAwake out.st) := by
  unfold access at h
  split at h
  · obtain rfl := Except.ok.inj h
    exact ⟨rfl, id⟩
  · exact readAccess_events h
  · obtain rfl := Except.ok.inj h
    exact ⟨rfl, id⟩

theorem linefill_events (addr : ℕ → ℕ) (ic : ICacheState p) :
    (linefill addr ic).evArbitrate.now = ic.evArbitrate.now ∧
      (RequestAwake ic → RequestAwake (linefill addr ic)) := by
  unfold linefill
  split
  · exact ⟨rfl, id⟩
  · exact ⟨rfl, id⟩

theorem rearbitrate_awake (ic : ICacheState p) : ArbitrateAwake (rearbitrate ic) := by
  unfold rearbitrate
  split
  · intro _
    exact UniqueEvent.pending_scheduleNext
  · rename_i hnone
    intro hsome
    exact absurd hsome hnone

/-- The arbitration leaves everything awake, and does not run again in the cycle. -/
theorem doArbitration_events {now : ℕ} {ic : ICacheState p} {out : ICacheOut p}
    (h : doArbitration addr now ic = .ok out) :
    out.st.evArbitrate.now = false ∧ (RequestAwake ic → RequestAwake out.st) ∧
      ArbitrateAwake out.st := by
  obtain ⟨acc, hacc, h⟩ := Run.bind_eq_ok.mp h
  obtain rfl := Except.ok.inj h
  have hfill := linefill_events addr { ic with evArbitrate := ic.evArbitrate.fire }
  obtain ⟨hev, hreq⟩ := access_events hacc
  refine ⟨?_, ?_, rearbitrate_awake _⟩
  · have hnow : acc.st.evArbitrate.now = false := by rw [hev, hfill.1, UniqueEvent.fire_now]
    unfold rearbitrate
    split
    · exact hnow
    · exact hnow
  · intro hawake
    have hdone := hreq (hfill.2 hawake)
    unfold rearbitrate
    split
    · exact hdone
    · exact hdone

/-! ## The moves of a step -/

theorem nextAccess_portUpdate (h : s.phase = .portUpdate) : s.nextAccess = s.now := by
  simp [nextAccess, h]

theorem nextAccess_tick (h : s.phase = .tick) (hdone : s.ic.evArbitrate.now = false) :
    s.nextAccess = s.now + 1 := by
  simp [nextAccess, h, hdone]

theorem nextAccess_of_due (h : s.ic.evArbitrate.now = true) : s.nextAccess = s.now := by
  simp [nextAccess, h]

/-- Moves in the tick phase that leave the event of the arbitration alone. -/
theorem Moves.keep (h : Moves addr (s.nextAccess, s) (s.nextAccess, s')) (hnow : s'.now = s.now)
    (hphase : s'.phase = s.phase) (hev : s'.ic.evArbitrate.now = s.ic.evArbitrate.now) :
    Moves addr (s.nextAccess, s) (s'.nextAccess, s') := by
  have hsame : s'.nextAccess = s.nextAccess := by simp only [nextAccess, hnow, hphase, hev]
  rw [hsame]
  exact h

theorem now_le_nextAccess (s : ICacheSystem p) : s.now ≤ s.nextAccess := by
  unfold nextAccess
  split <;> omega

theorem nextAccess_le (s : ICacheSystem p) : s.nextAccess ≤ s.now + 1 := by
  unfold nextAccess
  split <;> omega

/-- What happens before the tick phase. -/
theorem portUpdate_moves (hphase : op.phase = .portUpdate) (h : s.step addr op = .ok s') :
    Moves addr (s.now, s) (s.now, s') ∧ s'.now = s.now := by
  obtain ⟨-, hdue, h⟩ := step_eq_ok.mp h
  cases op with
  | reqArrives =>
    obtain ⟨⟨r, rest⟩, hfront⟩ := Option.isSome_iff_exists.mp hdue
    obtain ⟨d, -, hreqs⟩ := Port.front_eq_some hfront
    simp only [handle, hfront] at h
    obtain rfl := Except.ok.inj h
    refine ⟨.tail (.single (.arrive hreqs)) ?_, rfl⟩
    exact .frame s.phase s.ic.l1Cache s.ic.l2cacheCredits _ s.ic.evL2cacheRequest le_rfl
  | l2Resp i c =>
    have hle : s.canAnswer i = true := hdue
    unfold canAnswer at hle
    rcases hm : s.atL2[i]? with _ | m
    · simp [hm] at hle
    · simp only [hm, Option.any_some, decide_eq_true_iff] at hle
      simp only [handle, hm] at h
      obtain rfl := Except.ok.inj h
      refine ⟨?_, rfl⟩
      unfold getRespFromL2Cache
      dsimp only
      split
      · rename_i hhit
        subst hhit
        refine .tail (.single (.answer hm hle le_rfl)) ?_
        exact .frame s.phase s.ic.l1Cache s.ic.l2cacheCredits _ s.ic.evL2cacheRequest le_rfl
      · exact .refl
  | l2Credits ack =>
    obtain rfl := Except.ok.inj h
    refine ⟨.single ?_, rfl⟩
    unfold getCreditsFromL2Cache
    dsimp only
    split
    · exact .frame s.phase s.ic.l1Cache _ s.ic.evArbitrate _ le_rfl
    · exact .frame s.phase s.ic.l1Cache _ s.ic.evArbitrate s.ic.evL2cacheRequest le_rfl
  | tick =>
    obtain rfl := Except.ok.inj h
    refine ⟨.single ?_, rfl⟩
    exact .frame .tick s.ic.l1Cache s.ic.l2cacheCredits s.ic.evArbitrate s.ic.evL2cacheRequest
      le_rfl
  | arbitrate => cases hphase
  | l2Request => cases hphase
  | respond => cases hphase
  | replayReady => cases hphase
  | respArrives => cases hphase
  | creditArrives => cases hphase
  | fetchReq => cases hphase
  | nextCycle => cases hphase

/-- A step is a sequence of moves. -/
theorem step_moves (h : s.step addr op = .ok s') :
    Moves addr (s.nextAccess, s) (s'.nextAccess, s') := by
  obtain ⟨hphase, hdue, hhandle⟩ := step_eq_ok.mp h
  cases op with
  | arbitrate =>
    obtain ⟨out, hout, hhandle⟩ := Run.bind_eq_ok.mp hhandle
    obtain rfl := Except.ok.inj hhandle
    have hlater : (s.emit out).nextAccess = s.now + 1 :=
      nextAccess_tick hphase (doArbitration_events hout).1
    rw [nextAccess_of_due hdue, hlater]
    exact (doArbitration_moves hout).1
  | l2Request =>
    obtain rfl := Except.ok.inj hhandle
    refine Moves.keep ?_ rfl rfl (congrArg UniqueEvent.now (makeL2CacheRequest_arbitrate _))
    refine .trans (.single (.frame s.phase s.ic.l1Cache s.ic.l2cacheCredits s.ic.evArbitrate
      s.ic.evL2cacheRequest.fire le_rfl)) ?_
    exact makeL2CacheRequest_moves addr
      { s with ic := { s.ic with evL2cacheRequest := s.ic.evL2cacheRequest.fire } }
      (nextAccess_le s)
  | respond =>
    obtain ⟨⟨r, rest⟩, hfront⟩ := Option.isSome_iff_exists.mp hdue
    obtain ⟨d, hle, hq⟩ := Port.front_eq_some hfront
    simp only [handle, hfront] at hhandle
    obtain rfl := Except.ok.inj hhandle
    refine Moves.keep (.single ?_) rfl rfl rfl
    by_cases hobj : s.ic.objs r = .hit
    · simp only [emit, sendResponse, hobj, if_true, Option.map_none, Option.map_some,
        Option.toList_none, Option.toList_some, List.append_nil, Option.bind_some]
      exact .respondHit hq hle hobj
    · simp only [emit, sendResponse, hobj, if_false, Option.map_none, Option.map_some,
        Option.toList_none, Option.toList_some, List.append_nil, Option.bind_none]
      exact .respondMiss hq hle hobj
  | replayReady =>
    obtain ⟨⟨r, rest⟩, hfront⟩ := Option.isSome_iff_exists.mp hdue
    obtain ⟨d, hle, hq⟩ := Port.front_eq_some hfront
    simp only [handle, hfront] at hhandle
    obtain rfl := Except.ok.inj hhandle
    refine Moves.keep (.single ?_) rfl rfl rfl
    simp only [emit, sendReplay, setCacheState, Option.map_none, Option.map_some,
      Option.toList_none, Option.toList_some, List.append_nil, Option.bind_some]
    exact .ready hq hle
  | respArrives =>
    obtain ⟨⟨r, rest⟩, hfront⟩ := Option.isSome_iff_exists.mp hdue
    obtain ⟨d, -, hresps⟩ := Port.front_eq_some hfront
    simp only [handle, hfront] at hhandle
    obtain rfl := Except.ok.inj hhandle
    exact Moves.keep (.single (.deliver hresps)) rfl rfl rfl
  | creditArrives =>
    have hdue : s.credits ≠ [] := of_decide_eq_true hdue
    obtain ⟨n, rest, hq⟩ := List.exists_cons_of_ne_nil hdue
    simp only [handle, hq] at hhandle
    obtain rfl := Except.ok.inj hhandle
    exact Moves.keep (.single (.credit hq rfl)) rfl rfl rfl
  | fetchReq =>
    have hcredit : 0 < s.creditsIcache := of_decide_eq_true hdue
    obtain rfl := Except.ok.inj hhandle
    exact Moves.keep (.single (.request hcredit rfl)) rfl rfl rfl
  | nextCycle =>
    have hdue : s.tickDone = true := hdue
    simp only [tickDone, Bool.and_eq_true, Bool.not_eq_true'] at hdue
    obtain ⟨⟨⟨⟨⟨harb, -⟩, hrespond⟩, hready⟩, hresps⟩, -⟩ := hdue
    have hlater : s'.nextAccess = s.now + 1 := by
      rw [← Except.ok.inj hhandle]
      exact nextAccess_portUpdate rfl
    rw [nextAccess_tick hphase harb, hlater]
    obtain rfl := Except.ok.inj hhandle
    refine .tail (.single (.clock (s := s) hrespond hready hresps)) ?_
    exact .frame (s := { s with now := s.now + 1 }) .portUpdate s.ic.l1Cache
      s.ic.l2cacheCredits _ _ le_rfl
  | _ =>
    obtain ⟨hmoves, hnow⟩ := portUpdate_moves rfl h
    rw [nextAccess_portUpdate hphase]
    refine hmoves.tail ?_
    refine .frame s'.phase s'.ic.l1Cache s'.ic.l2cacheCredits s'.ic.evArbitrate
      s'.ic.evL2cacheRequest ?_
    rw [← hnow]
    exact now_le_nextAccess s'

end ICacheSystem

end Olympia
