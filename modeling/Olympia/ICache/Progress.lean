import Olympia.ICache.Answers

/-!
# The instruction cache comes to rest with everything answered

What waits in a queue of the cache has its event scheduled (`Awake`), and every run of a handler
that finds something to do brings a request nearer to its answer (`work`).  So the cache comes to
rest, and when it is at rest every request has been answered.
-/

namespace Olympia

open ICache

namespace ICacheSystem

variable {p : ICacheParams} {addr : ℕ → ℕ} {s s' : ICacheSystem p} {x x' : ℕ × ICacheSystem p}

/-! ## Nothing is left asleep -/

/-- What waits in a queue has its event scheduled; while something can arrive, no handler has run
in the cycle. -/
structure Awake (s : ICacheSystem p) : Prop where
  request : RequestAwake s.ic
  arbitrate : ArbitrateAwake s.ic
  fresh : s.phase = .portUpdate →
    s.ic.evArbitrate.ran = false ∧ s.ic.evL2cacheRequest.ran = false

theorem Awake.step {op : ICacheOp} (H : Awake s) (h : s.step addr op = .ok s') : Awake s' := by
  obtain ⟨hphase, hdue, h⟩ := step_eq_ok.mp h
  have htick : op.phase = .tick → s.phase ≠ .portUpdate := by
    intro heq hport
    rw [hphase, heq] at hport
    cases hport
  cases op with
  | reqArrives =>
    obtain ⟨harb, hreq⟩ := H.fresh hphase
    obtain ⟨⟨r, rest⟩, hfront⟩ := Option.isSome_iff_exists.mp hdue
    simp only [handle, hfront] at h
    obtain rfl := Except.ok.inj h
    exact ⟨H.request, fun _ => UniqueEvent.pending_scheduleNow harb,
      fun _ => ⟨UniqueEvent.scheduleNow_ran.trans harb, hreq⟩⟩
  | l2Resp i c =>
    obtain ⟨harb, hreq⟩ := H.fresh hphase
    rcases hm : s.atL2[i]? with _ | m
    · simp only [handle, hm] at h
      obtain rfl := Except.ok.inj h
      exact H
    · simp only [handle, hm, getRespFromL2Cache] at h
      obtain rfl := Except.ok.inj h
      split
      · exact ⟨H.request, fun _ => UniqueEvent.pending_scheduleNow harb,
          fun _ => ⟨UniqueEvent.scheduleNow_ran.trans harb, hreq⟩⟩
      · exact ⟨H.request, H.arbitrate, H.fresh⟩
  | l2Credits ack =>
    obtain ⟨harb, hreq⟩ := H.fresh hphase
    obtain rfl := Except.ok.inj h
    unfold getCreditsFromL2Cache
    dsimp only
    split
    · exact ⟨fun _ => .inr (UniqueEvent.pending_scheduleNow hreq), H.arbitrate,
        fun _ => ⟨harb, UniqueEvent.scheduleNow_ran.trans hreq⟩⟩
    · rename_i hnone
      exact ⟨fun hne => absurd hne hnone, H.arbitrate, H.fresh⟩
  | arbitrate =>
    obtain ⟨out, hout, h⟩ := Run.bind_eq_ok.mp h
    obtain rfl := Except.ok.inj h
    obtain ⟨-, hrequest, harbitrate⟩ := doArbitration_events hout
    exact ⟨hrequest H.request, harbitrate, fun hport => absurd hport (htick rfl)⟩
  | l2Request =>
    obtain rfl := Except.ok.inj h
    have harb : ArbitrateAwake { s.ic with evL2cacheRequest := s.ic.evL2cacheRequest.fire } :=
      H.arbitrate
    exact ⟨makeL2CacheRequest_awake _, makeL2CacheRequest_arbitrateAwake harb,
      fun hport => absurd hport (htick rfl)⟩
  | respond =>
    obtain ⟨⟨r, rest⟩, hfront⟩ := Option.isSome_iff_exists.mp hdue
    simp only [handle, hfront] at h
    obtain rfl := Except.ok.inj h
    exact ⟨H.request, H.arbitrate, H.fresh⟩
  | replayReady =>
    obtain ⟨⟨r, rest⟩, hfront⟩ := Option.isSome_iff_exists.mp hdue
    simp only [handle, hfront] at h
    obtain rfl := Except.ok.inj h
    exact ⟨H.request, H.arbitrate, H.fresh⟩
  | respArrives =>
    obtain ⟨⟨r, rest⟩, hfront⟩ := Option.isSome_iff_exists.mp hdue
    simp only [handle, hfront] at h
    obtain rfl := Except.ok.inj h
    exact ⟨H.request, H.arbitrate, H.fresh⟩
  | creditArrives =>
    have hdue : s.credits ≠ [] := of_decide_eq_true hdue
    obtain ⟨n, rest, hq⟩ := List.exists_cons_of_ne_nil hdue
    simp only [handle, hq] at h
    obtain rfl := Except.ok.inj h
    exact ⟨H.request, H.arbitrate, H.fresh⟩
  | fetchReq =>
    obtain rfl := Except.ok.inj h
    exact ⟨H.request, H.arbitrate, H.fresh⟩
  | tick =>
    obtain rfl := Except.ok.inj h
    exact ⟨H.request, H.arbitrate, fun hport => by cases hport⟩
  | nextCycle =>
    obtain rfl := Except.ok.inj h
    have hdue : s.tickDone = true := hdue
    simp only [tickDone, Bool.and_eq_true, Bool.not_eq_true'] at hdue
    obtain ⟨⟨⟨⟨⟨harb, hreq⟩, -⟩, -⟩, -⟩, -⟩ := hdue
    refine ⟨?_, ?_, fun _ => ⟨rfl, rfl⟩⟩
    · intro hne
      exact (H.request hne).imp id fun hp => hp.nextCycle hreq
    · intro hne
      exact (H.arbitrate hne).nextCycle harb

theorem Awake.of_reachable (h : Run.Reachable (ICacheSystem.step addr) ({} : ICacheSystem p) s) :
    Awake s := by
  refine h.invariant ⟨?_, ?_, fun _ => ⟨rfl, rfl⟩⟩ fun op s s' H hstep => H.step hstep
  · intro hne
    exact absurd rfl hne
  · intro hne
    simp at hne

/-! ## Every handler makes progress -/

/-- Only a request of Fetch adds work. -/
theorem work_move (m : Move addr x x') :
    x'.2.work + 9 * x.2.requested ≤ x.2.work + 9 * x'.2.requested := by
  cases m with
  | @reload s fill rest h =>
    have hparts := (List.filter_append_perm (sameLine p addr (p.blockAddr fill.phyAddr))
      s.ic.pendingMissBuffer).length_eq
    simp only [List.length_append] at hparts
    simp only [work, h, List.length_append, List.length_cons]
    omega
  | @answer arb i s m h hdue harb =>
    obtain ⟨hi, -⟩ := List.getElem?_eq_some_iff.mp h
    simp only [work, List.length_eraseIdx, if_pos hi, List.length_append, List.length_cons,
      List.length_nil]
    omega
  | request h hc =>
    simp only [work, Port.length_send]
    omega
  | arrive h =>
    simp only [work, h, List.length_append, List.length_cons, List.length_nil]
    omega
  | replay h =>
    simp only [work, h, Port.length_send, List.length_cons]
    omega
  | hit hrep h =>
    simp only [work, h, Port.length_send, List.length_cons]
    omega
  | merge hrep h hpend =>
    simp only [work, h, Port.length_send, List.length_append, List.length_cons, List.length_nil]
    omega
  | miss hrep h hpend =>
    simp only [work, h, Port.length_send, List.length_append, List.length_cons, List.length_nil]
    omega
  | send h harb =>
    simp only [work, h, List.length_append, List.length_cons, List.length_nil]
    omega
  | respondHit h hdue hobj =>
    simp only [work, h, List.length_cons]
    omega
  | respondMiss h hdue hobj =>
    simp only [work, h, List.length_cons]
    omega
  | ready h hdue =>
    simp only [work, h, List.length_cons]
    omega
  | deliver h => exact le_rfl
  | credit h hc => exact le_rfl
  | frame phase cache n e e' hle => exact le_rfl
  | clock hrespond hready hresps => exact le_rfl

theorem work_moves (m : Moves addr x x') :
    x'.2.work + 9 * x.2.requested ≤ x.2.work + 9 * x'.2.requested := by
  induction m with
  | refl => exact le_rfl
  | tail _ m ih =>
    have hlast := work_move m
    omega

theorem Served.work_lt (h : Served addr x x') :
    x'.2.work + 9 * x.2.requested < x.2.work + 9 * x'.2.requested := by
  obtain ⟨y, z, hxy, hyz, hlt, hzx⟩ := h
  have h₁ := work_moves hxy
  have h₂ := work_move hyz
  have h₃ := work_moves hzx
  have hreq : y.2.requested = z.2.requested := by
    cases hyz with
    | request h hc =>
      simp only [work, Port.length_send] at hlt
      omega
    | _ => rfl
  omega

/-- A step that finds something to do. -/
def serves (s : ICacheSystem p) : ICacheOp → Bool
  | .reqArrives | .respond | .replayReady => true
  | .l2Resp _ c => c = .hit
  | .arbitrate =>
    s.ic.l2cacheRespQueue ≠ [] ∨ s.ic.replayBuffer ≠ [] ∨ s.ic.fetchReqQueue ≠ []
  | .l2Request => s.ic.missQueue ≠ [] ∧ s.ic.l2cacheCredits ≠ 0
  | _ => false

theorem step_work {op : ICacheOp} (h : s.step addr op = .ok s') (hserves : s.serves op = true) :
    s'.work + 9 * s.requested < s.work + 9 * s'.requested := by
  obtain ⟨hphase, hdue, h⟩ := step_eq_ok.mp h
  cases op with
  | reqArrives =>
    obtain ⟨⟨r, rest⟩, hfront⟩ := Option.isSome_iff_exists.mp hdue
    obtain ⟨d, -, hq⟩ := Port.front_eq_some hfront
    simp only [handle, hfront] at h
    obtain rfl := Except.ok.inj h
    simp only [work, getRequestFromFetch, hq, List.length_append, List.length_cons,
      List.length_nil]
    omega
  | l2Resp i c =>
    obtain rfl : c = .hit := of_decide_eq_true hserves
    have hdue : s.canAnswer i = true := hdue
    rcases hm : s.atL2[i]? with _ | m
    · simp [canAnswer, hm] at hdue
    · obtain ⟨hi, -⟩ := List.getElem?_eq_some_iff.mp hm
      simp only [handle, hm] at h
      obtain rfl := Except.ok.inj h
      simp only [work, getRespFromL2Cache, if_true, List.length_eraseIdx, if_pos hi,
        List.length_append, List.length_cons, List.length_nil]
      omega
  | arbitrate =>
    obtain ⟨out, hout, h⟩ := Run.bind_eq_ok.mp h
    obtain rfl := Except.ok.inj h
    exact ((doArbitration_moves hout).2 (of_decide_eq_true hserves)).work_lt
  | l2Request =>
    obtain ⟨hq, hcredit⟩ := of_decide_eq_true hserves
    obtain ⟨r, rest, hq⟩ := List.exists_cons_of_ne_nil hq
    obtain rfl := Except.ok.inj h
    unfold makeL2CacheRequest
    simp only [hq, if_neg hcredit]
    split
    · simp only [work, emit, hq, Option.map_some, Option.toList_some, List.length_append,
        List.length_cons, List.length_nil]
      omega
    · simp only [work, emit, hq, Option.map_some, Option.toList_some, List.length_append,
        List.length_cons, List.length_nil]
      omega
  | respond =>
    obtain ⟨⟨r, rest⟩, hfront⟩ := Option.isSome_iff_exists.mp hdue
    obtain ⟨d, -, hq⟩ := Port.front_eq_some hfront
    simp only [handle, hfront] at h
    obtain rfl := Except.ok.inj h
    simp only [work, emit, sendResponse, hq, Option.map_none, Option.toList_none, List.append_nil,
      List.length_cons]
    omega
  | replayReady =>
    obtain ⟨⟨r, rest⟩, hfront⟩ := Option.isSome_iff_exists.mp hdue
    obtain ⟨d, -, hq⟩ := Port.front_eq_some hfront
    simp only [handle, hfront] at h
    obtain rfl := Except.ok.inj h
    simp only [work, emit, sendReplay, setCacheState, hq, Option.map_none, Option.toList_none,
      List.append_nil, List.length_cons]
    omega
  | _ => cases hserves

/-! ## The pending misses have room -/

theorem Placed.access_ok (P : Placed s) : ∃ out, access addr s.now s.ic = .ok out := by
  unfold access
  split
  · exact ⟨_, rfl⟩
  · rename_i r rest hrep hq
    have hcredits := P.credits
    simp only [held, fresh, waiting, hq, List.length_append, List.length_cons] at hcredits
    have hroom : s.ic.pendingMissBuffer.length < ICacheParams.fetchQueueSize := by omega
    unfold readAccess
    rcases p.cacheModel.lookup p.l1AlwaysHit s.ic.l1Cache (addr r) with ⟨hit, cache⟩
    cases hit with
    | true => exact ⟨_, rfl⟩
    | false =>
      have hadd : ∃ out,
          addToMissQueue addr (setCacheState { s.ic with l1Cache := cache } r .miss) r =
            .ok out := by
        unfold addToMissQueue
        split
        · exact ⟨_, pushPending_eq_ok.mpr ⟨hroom, rfl⟩⟩
        · refine ⟨_, pushPending_eq_ok.mpr ⟨?_, rfl⟩⟩
          rw [requestBlock, (makeL2CacheRequest_pending addr _).1]
          exact hroom
      obtain ⟨out, hout⟩ := hadd
      exact ⟨_, Run.bind_eq_ok.mpr ⟨out, hout, rfl⟩⟩
  · exact ⟨_, rfl⟩

/-- The arbitration does not stop at an assertion. -/
theorem Sound.doArbitration_ok (H : Sound addr (s.now, s)) :
    ∃ out, doArbitration addr s.now s.ic = .ok out := by
  have hfire : Moves addr (s.now, s) (s.now, { s with
      ic := { s.ic with evArbitrate := s.ic.evArbitrate.fire } }) :=
    .single (.frame s.phase s.ic.l1Cache s.ic.l2cacheCredits _ s.ic.evL2cacheRequest le_rfl)
  have hfill : Sound addr (s.now, { s with
      ic := linefill addr { s.ic with evArbitrate := s.ic.evArbitrate.fire } }) := by
    rcases linefill_moves addr { s with ic := { s.ic with evArbitrate := s.ic.evArbitrate.fire } }
      with ⟨-, hsame⟩ | hserved
    · dsimp only at hsame
      rw [hsame]
      exact H.moves hfire
    · exact (H.moves hfire).moves hserved.moves
  obtain ⟨out, hout⟩ := hfill.placed.access_ok
  exact ⟨_, Run.bind_eq_ok.mpr ⟨out, hout, rfl⟩⟩

/-- No handler stops at an assertion. -/
theorem Sound.no_assertion (H : Sound addr (s.nextAccess, s)) (op : ICacheOp) (a : Assertion) :
    s.step addr op ≠ .error (.assertion a) := by
  intro h
  obtain ⟨hen, h⟩ := enabled_checked_eq_error h
  obtain ⟨-, hdue⟩ := of_decide_eq_true hen
  cases op with
  | arbitrate =>
    rw [nextAccess_of_due hdue] at H
    obtain ⟨out, hout⟩ := H.doArbitration_ok
    simp only [handle, hout, bind, Except.bind] at h
    cases h
  | reqArrives =>
    obtain ⟨⟨r, rest⟩, hfront⟩ := Option.isSome_iff_exists.mp hdue
    simp only [handle, hfront] at h
    cases h
  | l2Resp i c =>
    rcases hm : s.atL2[i]? with _ | m
    · simp only [handle, hm] at h
      cases h
    · simp only [handle, hm] at h
      cases h
  | respond =>
    obtain ⟨⟨r, rest⟩, hfront⟩ := Option.isSome_iff_exists.mp hdue
    simp only [handle, hfront] at h
    cases h
  | replayReady =>
    obtain ⟨⟨r, rest⟩, hfront⟩ := Option.isSome_iff_exists.mp hdue
    simp only [handle, hfront] at h
    cases h
  | respArrives =>
    obtain ⟨⟨r, rest⟩, hfront⟩ := Option.isSome_iff_exists.mp hdue
    simp only [handle, hfront] at h
    cases h
  | creditArrives =>
    rcases hq : s.credits with _ | ⟨n, rest⟩
    · simp only [handle, hq] at h
      cases h
    · simp only [handle, hq] at h
      cases h
  | l2Credits ack => cases h
  | l2Request => cases h
  | fetchReq => cases h
  | tick => cases h
  | nextCycle => cases h

/-! ## What Fetch has seen -/

/-- The answers to a request that have arrived at Fetch. -/
def seen (s : ICacheSystem p) (r : ℕ) : List CacheState :=
  (s.received.filter fun x => x.1 = r).map Prod.snd

/-- What has arrived is the beginning of what Fetch is told. -/
theorem seen_isPrefix (s : ICacheSystem p) (r : ℕ) : s.seen r <+: s.voice r :=
  ⟨_, rfl⟩

/-- Nothing has arrived of a hit that has not been answered. -/
theorem seen_of_hits {r : ℕ} (V : Voiced s) (hr : r ∈ s.hits) : s.seen r = [] := by
  have hlen := congrArg List.length (V.hits r hr)
  have hpos : 0 < (Port.vals s.ic.evRespond).count r :=
    List.count_pos_iff.mpr (List.mem_filter.mp hr).1
  simp only [voice, List.length_append, List.length_replicate, List.length_cons,
    List.length_nil] at hlen
  apply List.eq_nil_of_length_eq_zero
  unfold seen
  omega

/-- What Fetch has seen of a request, from its place. -/
theorem seen_cases (P : Placed s) (V : Voiced s) (r : ℕ) :
    s.seen r ∈ [[], [.miss], [.hit], [.miss, .hit]] ∧ (.hit ∈ s.seen r → r ∈ s.returned) := by
  have hpre := seen_isPrefix s r
  by_cases hr : r < s.requested
  · have hmem : r ∈ s.returned ++ s.held := P.places.mem_iff.mpr (List.mem_range.mpr hr)
    simp only [held, List.mem_append] at hmem
    rcases hmem with hmem | (hmem | hmem) | hmem
    · refine ⟨?_, fun _ => hmem⟩
      rcases (V.answered r hmem).2 with hv | hv
      · rw [hv] at hpre
        simp only [List.prefix_cons_iff, List.prefix_nil] at hpre
        rcases hpre with h | ⟨t, h, rfl⟩ <;> simp [h]
      · rw [hv] at hpre
        simp only [List.prefix_cons_iff, List.prefix_nil] at hpre
        rcases hpre with h | ⟨t, h, rfl | ⟨t', rfl, rfl⟩⟩ <;> simp [h]
    · rw [V.fresh r hmem, List.prefix_nil] at hpre
      simp [hpre]
    · rw [(V.waiting r hmem).2] at hpre
      simp only [List.prefix_cons_iff, List.prefix_nil] at hpre
      rcases hpre with h | ⟨t, h, rfl⟩ <;> simp [h]
    · simp [seen_of_hits V hmem]
  · rw [V.later r (not_lt.mp hr), List.prefix_nil] at hpre
    simp [hpre]

/-- Nothing is scheduled, and nothing is on its way. -/
structure AtRest (s : ICacheSystem p) : Prop where
  arbitrate : ¬s.ic.evArbitrate.Pending
  request : ¬s.ic.evL2cacheRequest.Pending
  respond : s.ic.evRespond = []
  ready : s.ic.evReplayReady = []
  reqs : s.reqs = []
  resps : s.resps = []
  credits : s.credits = []
  atL2 : s.atL2 = []

/-- A cache at rest that has a credit of the L2 cache holds no request. -/
theorem AtRest.held_eq_nil (R : AtRest s) (H : Sound addr (s.nextAccess, s)) (A : Awake s)
    (hcredit : s.ic.l2cacheCredits ≠ 0) : s.held = [] := by
  have hqueues : s.ic.l2cacheRespQueue = [] ∧ s.ic.replayBuffer = [] ∧
      s.ic.fetchReqQueue = [] := by
    by_contra hne
    apply R.arbitrate
    apply A.arbitrate
    tauto
  have hmiss : s.ic.missQueue = [] := by
    by_contra hne
    rcases A.request hne with hzero | hpend
    · exact hcredit hzero
    · exact R.request hpend
  have hpending : s.ic.pendingMissBuffer = [] := by
    -- a pending request would have a fill outstanding
    apply List.eq_nil_iff_forall_not_mem.mpr
    intro r hr
    have hfill := H.filled (p.blockAddr (addr r))
    have hany : s.ic.pendingMissBuffer.any (sameLine p addr (p.blockAddr (addr r))) = true :=
      List.any_eq_true.mpr ⟨r, hr, decide_eq_true rfl⟩
    dsimp only at hfill
    rw [hany] at hfill
    simp [fills, hmiss, R.atL2, hqueues.1] at hfill
  simp [held, fresh, waiting, hits, hqueues, hpending, R.respond, R.ready, R.reqs]

end ICacheSystem

open ICacheSystem

/-- In every state the instruction cache reaches, with any Fetch that obeys the credit protocol and
any L2 cache that answers each request once as a hit: every request is in one place, or has been
answered and its credit returned.  Fetch sees of a request at most a miss and then at most one hit,
and a hit only of a request whose credit has been returned once.  The credits add up.  A block has a
pending request exactly if one fill of it is outstanding, and never two.  What waits for the L2
cache at the end of a cycle has no credit, or its event is scheduled.  No assertion fails.  Only a
request of Fetch adds work and every handler that finds something to do takes some away, and once
the cache is at rest every request has been answered with one hit and one credit. -/
theorem icache_answers_once (p : ICacheParams) (addr : ℕ → ℕ) {s : ICacheSystem p}
    (h : Run.Reachable (ICacheSystem.step addr) {} s) :
    ((s.returned ++ s.held).Perm (List.range s.requested) ∧
      (∀ r, s.seen r ∈ [[], [.miss], [.hit], [.miss, .hit]]) ∧
      (∀ r, .hit ∈ s.seen r → s.returned.count r = 1)) ∧
    s.creditsIcache + s.credits.sum + s.held.length = ICacheParams.fetchQueueSize ∧
    (∀ block, ((∃ r ∈ s.ic.pendingMissBuffer, p.blockAddr (addr r) = block) ↔
      s.fills addr block = 1) ∧ s.fills addr block ≤ 1) ∧
    (s.phase = .tick → s.tickDone = true → s.ic.missQueue ≠ [] →
      s.ic.l2cacheCredits = 0 ∨ s.ic.evL2cacheRequest.next = true) ∧
    (∀ op a, s.step addr op ≠ .error (.assertion a)) ∧
    (∀ op s', s.step addr op = .ok s' →
      s'.work + 9 * s.requested ≤ s.work + 9 * s'.requested ∧
        (s.serves op = true → s'.work + 9 * s.requested < s.work + 9 * s'.requested)) ∧
    (s.AtRest → s.ic.l2cacheCredits ≠ 0 → s.creditsIcache = ICacheParams.fetchQueueSize ∧
      ∀ r < s.requested, s.returned.count r = 1 ∧
        (s.seen r = [.hit] ∨ s.seen r = [.miss, .hit])) := by
  have H := Sound.of_reachable h
  have A := Awake.of_reachable h
  have P : s.Placed := H.placed
  have V : s.Voiced := H.voiced
  have F : Filled addr s := H.filled
  have honce : ∀ r, r ∈ s.returned → s.returned.count r = 1 := by
    intro r hr
    exact List.count_eq_one_of_mem (List.nodup_append.mp P.nodup).1 hr
  refine ⟨⟨P.places, ?_, ?_⟩, P.credits, ?_, ?_, H.no_assertion, ?_, ?_⟩
  · intro r
    exact (seen_cases P V r).1
  · intro r hr
    exact honce r ((seen_cases P V r).2 hr)
  · intro block
    refine ⟨?_, F.fills_le block⟩
    rw [F block]
    simp [List.any_eq_true, sameLine]
  · intro hphase hdone hne
    simp only [tickDone, Bool.and_eq_true, Bool.not_eq_true'] at hdone
    obtain ⟨⟨⟨⟨⟨-, hreq⟩, -⟩, -⟩, -⟩, -⟩ := hdone
    exact (A.request hne).imp id fun hp => hp.next_of_now hreq
  · intro op s' hstep
    have hle := work_moves (step_moves hstep)
    exact ⟨hle, step_work hstep⟩
  · intro hrest hcredit
    have hheld := hrest.held_eq_nil H A hcredit
    have hcredits := P.credits
    have hplaces := P.places
    rw [hheld] at hcredits hplaces
    refine ⟨by simpa [hrest.credits] using hcredits, ?_⟩
    intro r hr
    have hmem : r ∈ s.returned := by simpa using hplaces.mem_iff.mpr (List.mem_range.mpr hr)
    refine ⟨honce r hmem, ?_⟩
    have hseen : s.voice r = s.seen r := by simp [voice, seen, hrest.resps, hrest.respond]
    rw [← hseen]
    exact (V.answered r hmem).2

/-- A small cache: it has its tags, and never replaces a line. -/
def smallICache : ICacheParams where
  cacheModel := .unbounded 64

/-- Two requests of one block miss; the L2 cache answers, both are replayed, and Fetch has seen
their hits. -/
def missedOps : List ICacheOp :=
  [.l2Credits 1, .tick, .creditArrives, .fetchReq, .fetchReq, .nextCycle,
   .reqArrives, .reqArrives, .tick, .arbitrate, .nextCycle,
   .tick, .respond, .arbitrate, .nextCycle,
   .tick, .respond, .respArrives, .nextCycle,
   .l2Resp 0 .hit, .l2Credits 1, .tick, .respArrives, .arbitrate, .nextCycle,
   .tick, .replayReady, .arbitrate, .creditArrives, .nextCycle,
   .tick, .respArrives, .replayReady, .creditArrives, .nextCycle,
   .tick, .respArrives, .nextCycle]

theorem icache_answers_once_sample :
    ∃ s, missedOps.foldlM (ICacheSystem.step (fun r => 8 * r)) ({} : ICacheSystem smallICache) =
        .ok s ∧
      s.received = [(0, .miss), (1, .miss), (0, .hit), (1, .hit)] ∧
      s.creditsIcache + s.credits.sum + s.held.length = ICacheParams.fetchQueueSize := by
  have heval : (missedOps.foldlM (ICacheSystem.step (fun r => 8 * r))
      ({} : ICacheSystem smallICache)).toOption.map (fun s => s.received) =
      some [(0, .miss), (1, .miss), (0, .hit), (1, .hit)] := by
    decide +kernel
  obtain ⟨s, hs, hreceived⟩ := Run.ok_of_eval heval
  obtain ⟨-, hcredits, -⟩ := icache_answers_once smallICache _ ⟨missedOps, hs⟩
  exact ⟨s, hs, hreceived, hcredits⟩

end Olympia
