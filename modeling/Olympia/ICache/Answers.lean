import Mathlib.Data.List.Perm.Basic
import Olympia.ICache.Moves

/-!
# The instruction cache answers every request once

A request is new, waits for its line, waits for the answer of a hit, or has been answered.  `voice`
is what Fetch is told of it, in order: what it has seen, and what is on its way.  The state of the
object is shared, so an answer on its way says what the object says when it arrives; `Reported`
bounds these times.  A miss is replayed at least two cycles after its lookup: the request that asks
for a block waits for the L2 cache, and the others of the block are behind it.  So the answer of
the miss has arrived before the replay writes to the object.
-/

namespace Olympia

open ICache

namespace ICacheSystem

variable {p : ICacheParams} {addr : ℕ → ℕ} {s s' : ICacheSystem p} {x x' : ℕ × ICacheSystem p}
  {r r' k k' : ℕ}

/-! ## Where a request is -/

/-- The requests that have not been looked up. -/
def fresh (s : ICacheSystem p) : List ℕ := Port.vals s.reqs ++ s.ic.fetchReqQueue

/-- The misses. -/
def waiting (s : ICacheSystem p) : List ℕ :=
  s.ic.pendingMissBuffer ++ s.ic.replayBuffer ++ Port.vals s.ic.evReplayReady

/-- The hits that have not been answered. -/
def hits (s : ICacheSystem p) : List ℕ :=
  (Port.vals s.ic.evRespond).filter fun r => s.ic.objs r = .hit

/-- The requests that the cache holds or that are on their way to it. -/
def held (s : ICacheSystem p) : List ℕ := s.fresh ++ s.waiting ++ s.hits

/-- What Fetch is told of a request. -/
def voice (s : ICacheSystem p) (r : ℕ) : List CacheState :=
  (s.received.filter fun x => x.1 = r).map Prod.snd ++
    List.replicate ((Port.vals s.resps).count r + (Port.vals s.ic.evRespond).count r) (s.ic.objs r)

/-! ## What Fetch is told -/

theorem not_mem_of_voice_eq_nil (h : s.voice r = []) : r ∉ Port.vals s.ic.evRespond := by
  have hcount := (List.append_eq_nil_iff.mp h).2
  rw [List.replicate_eq_nil_iff] at hcount
  apply List.count_eq_zero.mp
  omega

/-- A lookup tells its result, in the end. -/
theorem voice_lookup (ic : ICacheState p) {c : CacheState} {d : ℕ} (h : s.voice r = [])
    (hobjs : ic.objs = Function.update s.ic.objs r c)
    (hrespond : ic.evRespond = Port.send s.ic.evRespond d r) :
    voice { s with ic := ic } r = [c] ∧
      ∀ r', r' ≠ r → voice { s with ic := ic } r' = s.voice r' := by
  obtain ⟨hrec, hcount⟩ := List.append_eq_nil_iff.mp h
  rw [List.replicate_eq_nil_iff] at hcount
  constructor
  · simp only [voice, hrec, hobjs, hrespond, Port.vals_send, List.count_append,
      List.count_singleton_self, Function.update_self, List.nil_append]
    rw [← Nat.add_assoc, hcount]
    rfl
  · intro r' hne
    simp only [voice, hobjs, hrespond, Port.vals_send, List.count_append,
      Function.update_of_ne hne, List.count_singleton, beq_iff_eq, hne.symm, if_false,
      Nat.add_zero]

/-- What is sent to Fetch was scheduled. -/
theorem voice_respond {d : ℕ} {rest : List (Arrival ℕ)} (h : s.ic.evRespond = ⟨d, r⟩ :: rest)
    (due : ℕ) (credits returned : List ℕ) (r' : ℕ) :
    voice { s with
      ic := { s.ic with evRespond := rest }
      resps := Port.send s.resps due r
      credits := credits
      returned := returned } r' = s.voice r' := by
  simp only [voice, h, Port.vals_send, Port.vals_cons, List.count_append, List.count_cons,
    List.count_nil]
  congr 2
  omega

/-- What arrives is what the object says. -/
theorem voice_deliver {d : ℕ} {rest : List (Arrival ℕ)} (h : s.resps = ⟨d, r⟩ :: rest) (r' : ℕ) :
    voice { s with resps := rest, received := s.received ++ [(r, s.ic.objs r)] } r' =
      s.voice r' := by
  by_cases hr : r = r'
  · subst hr
    simp only [voice, h, Port.vals_cons, List.count_cons_self, List.filter_append,
      List.map_append, List.append_assoc]
    rw [Nat.add_right_comm _ 1, List.replicate_succ]
    simp
  · simp [voice, h, List.filter_append, hr]

/-- The replay tells a hit, when nothing else is on its way. -/
theorem voice_ready (rest : List (Arrival ℕ)) (due : ℕ) (credits returned : List ℕ)
    (hrespond : r ∉ Port.vals s.ic.evRespond) (hresps : r ∉ Port.vals s.resps) :
    let s' : ICacheSystem p := { s with
      ic := { s.ic with objs := Function.update s.ic.objs r .hit, evReplayReady := rest }
      resps := Port.send s.resps due r
      credits := credits
      returned := returned }
    s'.voice r = s.voice r ++ [.hit] ∧ ∀ r', r' ≠ r → s'.voice r' = s.voice r' := by
  have hzero := List.count_eq_zero.mpr hrespond
  have hzero' := List.count_eq_zero.mpr hresps
  constructor
  · simp [voice, hzero, hzero']
  · intro r' hne
    simp only [voice, Port.vals_send, List.count_append, Function.update_of_ne hne,
      List.count_singleton, beq_iff_eq, hne.symm, if_false, Nat.add_zero]

/-- The requests are in one place each, and each has its credit. -/
structure Placed (s : ICacheSystem p) : Prop where
  places : (s.returned ++ s.held).Perm (List.range s.requested)
  credits : s.creditsIcache + s.credits.sum + s.held.length = ICacheParams.fetchQueueSize

/-- What Fetch is told of a request fits its place. -/
structure Voiced (s : ICacheSystem p) : Prop where
  later : ∀ r, s.requested ≤ r → s.voice r = []
  fresh : ∀ r ∈ s.fresh, s.voice r = []
  waiting : ∀ r ∈ s.waiting, s.ic.objs r = .miss ∧ s.voice r = [.miss]
  hits : ∀ r ∈ s.hits, s.voice r = [.hit]
  answered : ∀ r ∈ s.returned,
    s.ic.objs r = .hit ∧ (s.voice r = [.hit] ∨ s.voice r = [.miss, .hit])

/-! ## The times of the answers -/

/-- Whatever is on its way to Fetch about a request arrives before the cycle `k`. -/
def ReportedBy (s : ICacheSystem p) (r k : ℕ) : Prop :=
  (∀ m ∈ s.ic.evRespond, m.val = r → m.due + 2 ≤ k) ∧ ∀ m ∈ s.resps, m.val = r → m.due + 1 ≤ k

/-- The oldest pending request of a block has been reported. -/
def FirstReportedBy (addr : ℕ → ℕ) (s : ICacheSystem p) (phyAddr k : ℕ) : Prop :=
  ∃ r, s.ic.pendingMissBuffer.find? (sameLine p addr (p.blockAddr phyAddr)) = some r ∧
    s.ReportedBy r k

/-- What is on its way about a miss arrives before its replay. -/
structure Reported (addr : ℕ → ℕ) (arb : ℕ) (s : ICacheSystem p) : Prop where
  pending : ∀ r ∈ s.ic.pendingMissBuffer, s.ReportedBy r (arb + p.cacheLatency + 1)
  atL2 : ∀ m ∈ s.atL2, FirstReportedBy addr s m.val.phyAddr (m.due + p.cacheLatency)
  filling : ∀ fill ∈ s.ic.l2cacheRespQueue,
    FirstReportedBy addr s fill.phyAddr (arb + p.cacheLatency)
  replay : ∀ r ∈ s.ic.replayBuffer, s.ReportedBy r (arb + p.cacheLatency + 1)
  next : ∀ r ∈ s.ic.replayBuffer.head?, s.ReportedBy r (arb + p.cacheLatency)
  ready : ∀ m ∈ s.ic.evReplayReady, s.ReportedBy m.val m.due

/-- The times of the events and of what is on its way to Fetch. -/
structure Timed (s : ICacheSystem p) : Prop where
  respond : Port.Timed s.ic.evRespond s.now (s.now + p.cacheLatency)
  ready : Port.Timed s.ic.evReplayReady s.now (s.now + p.cacheLatency)
  resps : Port.Timed s.resps s.now (s.now + 1)

/-! ## The blocks -/

/-- The fills of a block that are outstanding. -/
def fills (addr : ℕ → ℕ) (s : ICacheSystem p) (block : ℕ) : ℕ :=
  s.ic.missQueue.countP (sameLine p addr block) +
    (Port.vals s.atL2).countP (fun fill => p.blockAddr fill.phyAddr = block) +
    s.ic.l2cacheRespQueue.countP (fun fill => p.blockAddr fill.phyAddr = block)

/-- A block with a pending request has one fill outstanding, another has none. -/
def Filled (addr : ℕ → ℕ) (s : ICacheSystem p) : Prop :=
  ∀ block, s.fills addr block = (s.ic.pendingMissBuffer.any (sameLine p addr block)).toNat

/-- What every move keeps. -/
structure Sound (addr : ℕ → ℕ) (x : ℕ × ICacheSystem p) : Prop where
  placed : Placed x.2
  voiced : Voiced x.2
  timed : Timed x.2
  filled : Filled addr x.2
  reported : Reported addr x.1 x.2

/-! ## The moves keep the times -/

theorem Timed.move (H : Timed x.2) (m : Move addr x x') : Timed x'.2 := by
  cases m with
  | replay h => exact { H with ready := H.ready.send (Nat.le_add_right _ _) }
  | hit hrep h => exact { H with respond := H.respond.send (Nat.le_add_right _ _) }
  | merge hrep h hpend => exact { H with respond := H.respond.send (Nat.le_add_right _ _) }
  | miss hrep h hpend => exact { H with respond := H.respond.send (Nat.le_add_right _ _) }
  | respondHit h hdue hobj =>
    have hold := H.respond
    rw [h] at hold
    exact { H with respond := hold.tail, resps := H.resps.send (Nat.le_succ _) }
  | respondMiss h hdue hobj =>
    have hold := H.respond
    rw [h] at hold
    exact { H with respond := hold.tail, resps := H.resps.send (Nat.le_succ _) }
  | ready h hdue =>
    have hold := H.ready
    rw [h] at hold
    exact { H with ready := hold.tail, resps := H.resps.send (Nat.le_succ _) }
  | deliver h =>
    have hold := H.resps
    rw [h] at hold
    exact { H with resps := hold.tail }
  | clock hrespond hready hresps =>
    refine ⟨(H.respond.of_quiet hrespond).mono le_rfl ?_, (H.ready.of_quiet hready).mono le_rfl ?_,
      (H.resps.of_quiet hresps).mono le_rfl (Nat.le_succ _)⟩
    · dsimp only
      omega
    · dsimp only
      omega
  | _ => exact ⟨H.respond, H.ready, H.resps⟩

/-! ## The moves keep the blocks -/

/-- A request whose block is asked for has a pending request before it. -/
theorem Filled.exists_pending {block : ℕ} (H : Filled addr s) (h : 0 < s.fills addr block) :
    ∃ r, s.ic.pendingMissBuffer.find? (sameLine p addr block) = some r := by
  rw [H block] at h
  have hany : s.ic.pendingMissBuffer.any (sameLine p addr block) = true := by
    by_contra hnone
    rw [Bool.eq_false_of_not_eq_true hnone] at h
    cases h
  rw [← Option.isSome_iff_exists, List.find?_isSome]
  exact List.any_eq_true.mp hany

theorem Filled.fills_le (H : Filled addr s) (block : ℕ) : s.fills addr block ≤ 1 := by
  rw [H block]
  exact Bool.toNat_le _

/-- The block of an answer is not at the L2 cache. -/
theorem Filled.atL2_ne {fill : L2Access} {rest : List L2Access} (H : Filled addr s)
    (h : s.ic.l2cacheRespQueue = fill :: rest) (m : Arrival L2Access) (hm : m ∈ s.atL2) :
    p.blockAddr m.val.phyAddr ≠ p.blockAddr fill.phyAddr := by
  intro heq
  have hle := H.fills_le (p.blockAddr fill.phyAddr)
  have hpos : 0 < (Port.vals s.atL2).countP
      (fun f => p.blockAddr f.phyAddr = p.blockAddr fill.phyAddr) :=
    List.countP_pos_iff.mpr ⟨m.val, List.mem_map_of_mem hm, decide_eq_true heq⟩
  simp only [fills, h, List.countP_cons, decide_true, if_true] at hle
  omega

theorem Filled.filling_ne {fill : L2Access} {rest : List L2Access} (H : Filled addr s)
    (h : s.ic.l2cacheRespQueue = fill :: rest) (fill' : L2Access) (hfill : fill' ∈ rest) :
    p.blockAddr fill'.phyAddr ≠ p.blockAddr fill.phyAddr := by
  intro heq
  have hle := H.fills_le (p.blockAddr fill.phyAddr)
  have hpos : 0 < rest.countP (fun f => p.blockAddr f.phyAddr = p.blockAddr fill.phyAddr) :=
    List.countP_pos_iff.mpr ⟨fill', hfill, decide_eq_true heq⟩
  simp only [fills, h, List.countP_cons, decide_true, if_true] at hle
  omega

theorem Filled.move (H : Filled addr x.2) (m : Move addr x x') : Filled addr x'.2 := by
  cases m with
  | @answer _ i s m h hdue harb =>
    intro block
    obtain ⟨hi, hget⟩ := List.getElem?_eq_some_iff.mp h
    have hperm := (List.getElem_cons_eraseIdx_perm hi).map Arrival.val
    have hcount := hperm.countP_eq (fun fill => p.blockAddr fill.phyAddr = block)
    have hold := H block
    simp only [fills, Port.vals, List.map_cons, List.countP_cons, List.countP_append,
      List.countP_nil, hget] at hcount hold ⊢
    omega
  | @reload s fill rest h =>
    intro block
    have hold := H block
    simp only [fills, h, List.countP_cons] at hold ⊢
    by_cases hblock : p.blockAddr fill.phyAddr = block
    · have hle := H.fills_le block
      simp only [fills, h, List.countP_cons, hblock] at hle
      have hnone : (s.ic.pendingMissBuffer.filter fun r =>
          !sameLine p addr (p.blockAddr fill.phyAddr) r).any (sameLine p addr block) = false := by
        rw [hblock]
        simp
      rw [hnone]
      simp only [decide_true, if_true] at hle
      simp only [Bool.toNat_false]
      omega
    · have hsame : (s.ic.pendingMissBuffer.filter fun r =>
          !sameLine p addr (p.blockAddr fill.phyAddr) r).any (sameLine p addr block) =
          s.ic.pendingMissBuffer.any (sameLine p addr block) := by
        rw [Bool.eq_iff_iff, List.any_eq_true, List.any_eq_true]
        constructor
        · rintro ⟨r, hr, hsame⟩
          exact ⟨r, (List.mem_filter.mp hr).1, hsame⟩
        · rintro ⟨r, hr, hsame⟩
          refine ⟨r, List.mem_filter.mpr ⟨hr, ?_⟩, hsame⟩
          simp only [sameLine, decide_eq_true_iff] at hsame
          simp only [sameLine, hsame, Bool.not_eq_true', decide_eq_false_iff_not]
          exact fun h => hblock h.symm
      rw [hsame, ← hold]
      simp [hblock]
  | @merge r s rest hrep h hpend =>
    intro block
    have hold := H block
    simp only [fills] at hold ⊢
    rw [hold, List.any_append, List.any_cons, List.any_nil, Bool.or_false]
    by_cases hblock : p.blockAddr (addr r) = block
    · rw [hblock] at hpend
      rw [hpend, Bool.true_or]
    · simp [sameLine, hblock]
  | @miss r s rest hrep h hpend =>
    intro block
    have hold := H block
    simp only [fills, List.countP_append, List.countP_cons, List.countP_nil] at hold ⊢
    rw [List.any_append, List.any_cons, List.any_nil, Bool.or_false]
    by_cases hblock : p.blockAddr (addr r) = block
    · rw [hblock] at hpend
      have hsame : sameLine p addr block r = true := decide_eq_true hblock
      rw [hpend] at hold ⊢
      simp only [hsame, if_true, Bool.false_or, Bool.toNat_false, Bool.toNat_true] at hold ⊢
      omega
    · have hother : sameLine p addr block r = false := decide_eq_false hblock
      simp only [hother, Bool.false_eq_true, if_false, Bool.or_false]
      omega
  | @send _ r s rest h harb =>
    intro block
    have hold := H block
    simp only [fills, h, Port.vals, List.map_append, List.map_cons, List.map_nil,
      List.countP_cons, List.countP_append, List.countP_nil] at hold ⊢
    by_cases hblock : p.blockAddr (addr r) = block
    · simp only [sameLine, hblock, decide_true, if_true] at hold ⊢
      omega
    · simp only [sameLine, hblock, decide_false, Bool.false_eq_true, if_false] at hold ⊢
      omega
  | _ => exact H

/-! ## The moves keep the places -/

/-- When a replay is ready, nothing is on its way about its request. -/
theorem Timed.quiet_of_reported (T : Timed s) (h : s.ReportedBy r k) (hk : k ≤ s.now) :
    r ∉ Port.vals s.ic.evRespond ∧ r ∉ Port.vals s.resps := by
  constructor
  · intro hr
    obtain ⟨m, hm, hval⟩ := List.mem_map.mp hr
    have hge := T.respond.ge m hm
    have hle := h.1 m hm hval
    omega
  · intro hr
    obtain ⟨m, hm, hval⟩ := List.mem_map.mp hr
    have hge := T.resps.ge m hm
    have hle := h.2 m hm hval
    omega

/-- Writing to an object that is not in `ev_respond_` changes no hit. -/
theorem hits_update {c : CacheState} (h : r ∉ Port.vals s.ic.evRespond) :
    ((Port.vals s.ic.evRespond).filter fun r' => Function.update s.ic.objs r c r' = .hit) =
      s.hits := by
  apply List.filter_congr
  intro r' hr'
  have hne : r' ≠ r := by
    rintro rfl
    exact h hr'
  rw [Function.update_of_ne hne]

/-- The hits after a lookup. -/
theorem hits_lookup {c : CacheState} (d : ℕ) (h : r ∉ Port.vals s.ic.evRespond) :
    ((Port.vals (Port.send s.ic.evRespond d r)).filter fun r' =>
      Function.update s.ic.objs r c r' = .hit) = s.hits ++ if c = .hit then [r] else [] := by
  rw [Port.vals_send, List.filter_append, hits_update h]
  congr 1
  simp only [List.filter_cons, Function.update_self, List.filter_nil, decide_eq_true_iff]

theorem Placed.nodup (H : Placed s) : (s.returned ++ s.held).Nodup :=
  H.places.nodup_iff.mpr List.nodup_range

/-- A miss goes from its queue to the pending misses. -/
theorem Placed.missed {ic : ICacheState p} {rest : List ℕ} (H : Placed s)
    (h : s.ic.fetchReqQueue = r :: rest)
    (hhits : ((Port.vals ic.evRespond).filter fun r => ic.objs r = .hit) =
      s.hits ++ if CacheState.miss = .hit then [r] else [])
    (hq : ic.fetchReqQueue = rest)
    (hpend : ic.pendingMissBuffer = s.ic.pendingMissBuffer ++ [r])
    (hrep : ic.replayBuffer = s.ic.replayBuffer)
    (hready : ic.evReplayReady = s.ic.evReplayReady) :
    Placed { s with ic := ic } := by
  have hcredits := H.credits
  rw [if_neg (by decide), List.append_nil] at hhits
  constructor
  · refine List.perm_iff_count.mpr fun y => ?_
    have hold := List.perm_iff_count.mp H.places y
    rw [held, hits, hhits]
    simp only [held, fresh, waiting, h, hq, hpend, hrep, hready, List.count_append,
      List.count_cons, List.count_nil] at hold ⊢
    omega
  · rw [held, hits, hhits]
    simp only [held, fresh, waiting, h, hq, hpend, hrep, hready, List.length_append,
      List.length_cons, List.length_nil] at hcredits ⊢
    omega

theorem Placed.move (H : Placed x.2) (V : Voiced x.2) (T : Timed x.2)
    (R : Reported addr x.1 x.2) (m : Move addr x x') : Placed x'.2 := by
  have hplaces := List.perm_iff_count.mp H.places
  have hcredits := H.credits
  cases m with
  | @request arb c s h hc =>
    have hlt : s.creditsIcache < 2 ^ 32 := by
      simp only [ICacheParams.fetchQueueSize] at hcredits
      omega
    rw [u32Sub_of_le h hlt] at hc
    constructor
    · refine List.perm_iff_count.mpr fun y => ?_
      have hold := hplaces y
      rw [List.range_succ]
      simp only [held, fresh, waiting, hits, Port.vals_send, List.count_append] at hold ⊢
      omega
    · simp only [held, fresh, waiting, hits, Port.vals_send, List.length_append,
        List.length_singleton] at hcredits ⊢
      omega
  | @arrive arb d r s rest h =>
    constructor
    · refine List.perm_iff_count.mpr fun y => ?_
      have hold := hplaces y
      simp only [held, fresh, waiting, hits, h, Port.vals_cons, List.count_append,
        List.count_cons, List.count_nil] at hold ⊢
      omega
    · simp only [held, fresh, waiting, hits, h, Port.vals_cons, List.length_append,
        List.length_cons, List.length_nil] at hcredits ⊢
      omega
  | @reload s fill rest h =>
    have hparts := List.filter_append_perm (sameLine p addr (p.blockAddr fill.phyAddr))
      s.ic.pendingMissBuffer
    constructor
    · refine List.perm_iff_count.mpr fun y => ?_
      have hold := hplaces y
      have hcount := List.perm_iff_count.mp hparts y
      simp only [held, fresh, waiting, hits, List.count_append] at hold hcount ⊢
      omega
    · have hlen := hparts.length_eq
      simp only [held, fresh, waiting, hits, List.length_append] at hcredits hlen ⊢
      omega
  | @replay r s rest h =>
    constructor
    · refine List.perm_iff_count.mpr fun y => ?_
      have hold := hplaces y
      simp only [held, fresh, waiting, hits, h, Port.vals_send, List.count_append,
        List.count_cons, List.count_nil] at hold ⊢
      omega
    · simp only [held, fresh, waiting, hits, h, Port.vals_send, List.length_append,
        List.length_cons, List.length_nil] at hcredits ⊢
      omega
  | @hit r s rest hrep h =>
    have hr : r ∉ Port.vals s.ic.evRespond :=
      not_mem_of_voice_eq_nil (V.fresh r (by simp [fresh, h]))
    have hhits := hits_lookup (c := .hit) (s.now + p.cacheLatency) hr
    constructor
    · refine List.perm_iff_count.mpr fun y => ?_
      have hold := hplaces y
      rw [held, hits, hhits, if_pos rfl]
      simp only [held, fresh, waiting, h, List.count_append, List.count_cons,
        List.count_nil] at hold ⊢
      omega
    · rw [held, hits, hhits, if_pos rfl]
      simp only [held, fresh, waiting, h, List.length_append, List.length_cons,
        List.length_nil] at hcredits ⊢
      omega
  | @merge r s rest hrep h hpend =>
    have hr : r ∉ Port.vals s.ic.evRespond :=
      not_mem_of_voice_eq_nil (V.fresh r (by simp [fresh, h]))
    exact .missed H h (hits_lookup (c := .miss) (s.now + p.cacheLatency) hr) rfl rfl rfl rfl
  | @miss r s rest hrep h hpend =>
    have hr : r ∉ Port.vals s.ic.evRespond :=
      not_mem_of_voice_eq_nil (V.fresh r (by simp [fresh, h]))
    exact .missed H h (hits_lookup (c := .miss) (s.now + p.cacheLatency) hr) rfl rfl rfl rfl
  | @respondHit arb d r s rest h hdue hobj =>
    constructor
    · refine List.perm_iff_count.mpr fun y => ?_
      have hold := hplaces y
      simp only [held, fresh, waiting, hits, h, hobj, Port.vals_cons, List.filter_cons,
        decide_true, if_true, List.count_append, List.count_cons, List.count_nil] at hold ⊢
      omega
    · simp only [held, fresh, waiting, hits, h, hobj, Port.vals_cons, List.filter_cons,
        decide_true, if_true, List.length_append, List.length_cons, List.sum_append,
        List.sum_cons, List.sum_nil] at hcredits ⊢
      omega
  | @respondMiss arb d r s rest h hdue hobj =>
    have hhits : ((Port.vals rest).filter fun r' => s.ic.objs r' = .hit) = s.hits := by
      simp [hits, h, hobj]
    constructor
    · rw [held, hits, hhits]
      exact H.places
    · rw [held, hits, hhits]
      exact hcredits
  | @ready arb d r s rest h hdue =>
    have hready := R.ready ⟨d, r⟩ (by rw [h]; exact List.mem_cons_self)
    have hhits := hits_update (c := .hit) (T.quiet_of_reported hready hdue).1
    constructor
    · refine List.perm_iff_count.mpr fun y => ?_
      have hold := hplaces y
      rw [held, hits, hhits]
      simp only [held, fresh, waiting, h, Port.vals_cons, List.count_append, List.count_cons,
        List.count_nil] at hold ⊢
      omega
    · rw [held, hits, hhits]
      simp only [held, fresh, waiting, h, Port.vals_cons, List.length_append, List.length_cons,
        List.sum_append, List.sum_cons, List.sum_nil] at hcredits ⊢
      omega
  | @credit arb n c s rest h hc =>
    rw [u32Add_of_lt] at hc
    · refine ⟨H.places, ?_⟩
      simp only [h, List.sum_cons] at hcredits
      simp only [held, fresh, waiting, hits] at hcredits ⊢
      omega
    · simp only [h, List.sum_cons, ICacheParams.fetchQueueSize] at hcredits
      omega
  | _ => exact ⟨H.places, H.credits⟩

/-! ## The moves keep what Fetch is told -/

theorem Placed.lt_requested (H : Placed s) (h : r ∈ s.returned ++ s.held) : r < s.requested :=
  List.mem_range.mp (H.places.mem_iff.mp h)

/-- The request that is looked up is nowhere else. -/
theorem Placed.fetch_front {rest : List ℕ} (H : Placed s) (h : s.ic.fetchReqQueue = r :: rest) :
    r ∉ Port.vals s.reqs ∧ r ∉ rest := by
  have hcount := List.nodup_iff_count_le_one.mp H.nodup r
  simp only [held, fresh, h, List.count_append, List.count_cons_self] at hcount
  constructor
  · apply List.count_eq_zero.mp
    omega
  · apply List.count_eq_zero.mp
    omega

/-- The request that is answered after its replay is nowhere else. -/
theorem Placed.ready_front {d : ℕ} {rest : List (Arrival ℕ)} (H : Placed s)
    (h : s.ic.evReplayReady = ⟨d, r⟩ :: rest) :
    r ∉ s.ic.pendingMissBuffer ∧ r ∉ s.ic.replayBuffer ∧ r ∉ Port.vals rest := by
  have hcount := List.nodup_iff_count_le_one.mp H.nodup r
  simp only [held, waiting, h, Port.vals_cons, List.count_append, List.count_cons_self] at hcount
  refine ⟨?_, ?_, ?_⟩
  · apply List.count_eq_zero.mp
    omega
  · apply List.count_eq_zero.mp
    omega
  · apply List.count_eq_zero.mp
    omega

/-- A lookup that misses. -/
theorem Voiced.missed {ic : ICacheState p} {rest : List ℕ} {d : ℕ} (H : Voiced s) (P : Placed s)
    (h : s.ic.fetchReqQueue = r :: rest)
    (hobjs : ic.objs = Function.update s.ic.objs r .miss)
    (hrespond : ic.evRespond = Port.send s.ic.evRespond d r)
    (hq : ic.fetchReqQueue = rest)
    (hpend : ic.pendingMissBuffer = s.ic.pendingMissBuffer ++ [r])
    (hrep : ic.replayBuffer = s.ic.replayBuffer)
    (hready : ic.evReplayReady = s.ic.evReplayReady) :
    Voiced { s with ic := ic } := by
  have hr : s.voice r = [] := H.fresh r (by simp [ICacheSystem.fresh, h])
  obtain ⟨hnew, hold⟩ := voice_lookup ic hr hobjs hrespond
  have hlt : r < s.requested := P.lt_requested (by simp [held, ICacheSystem.fresh, h])
  refine ⟨?_, ?_, ?_, ?_, ?_⟩
  · intro r' hr'
    have hr' : s.requested ≤ r' := hr'
    rw [hold r' (by omega)]
    exact H.later r' hr'
  · intro r' hr'
    simp only [ICacheSystem.fresh, hq, List.mem_append] at hr'
    have hne : r' ≠ r := by
      rintro rfl
      exact hr'.elim (P.fetch_front h).1 (P.fetch_front h).2
    rw [hold r' hne]
    apply H.fresh
    rw [ICacheSystem.fresh, h]
    exact List.mem_append.mpr (hr'.imp id (List.mem_cons_of_mem r))
  · intro r' hr'
    by_cases hne : r' = r
    · subst hne
      refine ⟨?_, hnew⟩
      simp [hobjs]
    · have hmem : r' ∈ s.waiting := by
        simpa [ICacheSystem.waiting, hpend, hrep, hready, hne] using hr'
      rw [hold r' hne]
      simp only [hobjs, Function.update_of_ne hne]
      exact H.waiting r' hmem
  · intro r' hr'
    rw [ICacheSystem.hits, hrespond, hobjs, hits_lookup d (not_mem_of_voice_eq_nil hr),
      if_neg (by decide), List.append_nil] at hr'
    have hne : r' ≠ r := by
      rintro rfl
      rw [H.hits r' hr'] at hr
      cases hr
    rw [hold r' hne]
    exact H.hits r' hr'
  · intro r' hr'
    obtain ⟨hobj, hvoice⟩ := H.answered r' hr'
    have hne : r' ≠ r := by
      rintro rfl
      rw [hr] at hvoice
      simp at hvoice
    rw [hold r' hne]
    simp only [hobjs, Function.update_of_ne hne]
    exact ⟨hobj, hvoice⟩

theorem Voiced.move (H : Voiced x.2) (P : Placed x.2) (T : Timed x.2)
    (R : Reported addr x.1 x.2) (m : Move addr x x') : Voiced x'.2 := by
  cases m with
  | @request arb c s h hc =>
    refine ⟨?_, ?_, H.waiting, H.hits, H.answered⟩
    · intro r hr
      exact H.later r (Nat.le_of_succ_le hr)
    · intro r hr
      simp only [ICacheSystem.fresh, Port.vals_send, List.mem_append, List.mem_singleton] at hr
      rcases hr with (hr | rfl) | hr
      · exact H.fresh r (List.mem_append_left _ hr)
      · exact H.later s.requested le_rfl
      · exact H.fresh r (List.mem_append_right _ hr)
  | @arrive arb d r s rest h =>
    refine ⟨H.later, ?_, H.waiting, H.hits, H.answered⟩
    intro r' hr'
    apply H.fresh
    simp only [ICacheSystem.fresh, h, Port.vals_cons, List.mem_append, List.mem_cons,
      List.not_mem_nil, or_false] at hr' ⊢
    tauto
  | @reload s fill rest h =>
    refine ⟨H.later, H.fresh, ?_, H.hits, H.answered⟩
    intro r' hr'
    apply H.waiting
    simp only [ICacheSystem.waiting, List.mem_append, List.mem_filter] at hr' ⊢
    tauto
  | @replay r s rest h =>
    refine ⟨H.later, H.fresh, ?_, H.hits, H.answered⟩
    intro r' hr'
    apply H.waiting
    simp only [ICacheSystem.waiting, h, Port.vals_send, List.mem_append, List.mem_cons,
      List.not_mem_nil, or_false] at hr' ⊢
    tauto
  | @hit r s rest hrep h =>
    have hr : s.voice r = [] := H.fresh r (by simp [ICacheSystem.fresh, h])
    have hlt : r < s.requested := P.lt_requested (by simp [held, ICacheSystem.fresh, h])
    obtain ⟨hnew, hold⟩ := voice_lookup { s.ic with
      objs := Function.update s.ic.objs r .hit
      fetchReqQueue := rest
      evRespond := Port.send s.ic.evRespond (s.now + p.cacheLatency) r } hr rfl rfl
    refine ⟨?_, ?_, ?_, ?_, ?_⟩
    · intro r' hr'
      have hr' : s.requested ≤ r' := hr'
      rw [hold r' (by omega)]
      exact H.later r' hr'
    · intro r' hr'
      simp only [ICacheSystem.fresh, List.mem_append] at hr'
      have hne : r' ≠ r := by
        rintro rfl
        exact hr'.elim (P.fetch_front h).1 (P.fetch_front h).2
      rw [hold r' hne]
      apply H.fresh
      rw [ICacheSystem.fresh, h]
      exact List.mem_append.mpr (hr'.imp id (List.mem_cons_of_mem r))
    · intro r' hr'
      obtain ⟨hobj, hvoice⟩ := H.waiting r' hr'
      have hne : r' ≠ r := by
        rintro rfl
        rw [hr] at hvoice
        cases hvoice
      rw [hold r' hne]
      simp only [Function.update_of_ne hne]
      exact ⟨hobj, hvoice⟩
    · intro r' hr'
      rw [ICacheSystem.hits, hits_lookup _ (not_mem_of_voice_eq_nil hr), if_pos rfl] at hr'
      by_cases hne : r' = r
      · rw [hne]
        exact hnew
      · rw [hold r' hne]
        exact H.hits r' (by simpa [hne] using hr')
    · intro r' hr'
      obtain ⟨hobj, hvoice⟩ := H.answered r' hr'
      have hne : r' ≠ r := by
        rintro rfl
        rw [hr] at hvoice
        simp at hvoice
      rw [hold r' hne]
      simp only [Function.update_of_ne hne]
      exact ⟨hobj, hvoice⟩
  | merge hrep h hpend => exact .missed H P h rfl rfl rfl rfl rfl rfl
  | miss hrep h hpend => exact .missed H P h rfl rfl rfl rfl rfl rfl
  | @respondHit arb d r s rest h hdue hobj =>
    have hsame := voice_respond h (s.now + 1) (s.credits ++ [1]) (s.returned ++ [r])
    refine ⟨?_, ?_, ?_, ?_, ?_⟩
    · intro r' hr'
      rw [hsame]
      exact H.later r' hr'
    · intro r' hr'
      rw [hsame]
      exact H.fresh r' hr'
    · intro r' hr'
      rw [hsame]
      exact H.waiting r' hr'
    · intro r' hr'
      rw [hsame]
      apply H.hits
      rw [ICacheSystem.hits, h, Port.vals_cons]
      exact List.mem_filter.mpr ⟨List.mem_cons_of_mem r (List.mem_filter.mp hr').1,
        (List.mem_filter.mp hr').2⟩
    · intro r' hr'
      rw [hsame]
      rcases List.mem_append.mp hr' with hr' | hr'
      · exact H.answered r' hr'
      · rw [List.mem_singleton.mp hr']
        refine ⟨hobj, .inl (H.hits r ?_)⟩
        simp [ICacheSystem.hits, h, hobj]
  | @respondMiss arb d r s rest h hdue hobj =>
    have hsame := voice_respond h (s.now + 1) s.credits s.returned
    refine ⟨?_, ?_, ?_, ?_, ?_⟩
    · intro r' hr'
      rw [hsame]
      exact H.later r' hr'
    · intro r' hr'
      rw [hsame]
      exact H.fresh r' hr'
    · intro r' hr'
      rw [hsame]
      exact H.waiting r' hr'
    · intro r' hr'
      rw [hsame]
      apply H.hits
      rw [ICacheSystem.hits, h, Port.vals_cons]
      exact List.mem_filter.mpr ⟨List.mem_cons_of_mem r (List.mem_filter.mp hr').1,
        (List.mem_filter.mp hr').2⟩
    · intro r' hr'
      rw [hsame]
      exact H.answered r' hr'
  | @ready arb d r s rest h hdue =>
    have hready : s.ReportedBy r d := R.ready ⟨d, r⟩ (by rw [h]; exact List.mem_cons_self)
    obtain ⟨hrespond, hresps⟩ := T.quiet_of_reported hready hdue
    obtain ⟨hnew, hold⟩ := voice_ready rest (s.now + 1) (s.credits ++ [1])
      (s.returned ++ [r]) hrespond hresps
    obtain ⟨-, hr⟩ := H.waiting r (by simp [ICacheSystem.waiting, h])
    have hlt : r < s.requested := P.lt_requested (by simp [held, ICacheSystem.waiting, h])
    have hne : ∀ r', s.voice r' ≠ [.miss] → r' ≠ r := by
      rintro r' hvoice rfl
      exact hvoice hr
    refine ⟨?_, ?_, ?_, ?_, ?_⟩
    · intro r' hr'
      have hr' : s.requested ≤ r' := hr'
      rw [hold r' (by omega)]
      exact H.later r' hr'
    · intro r' hr'
      have hvoice := H.fresh r' hr'
      rw [hold r' (hne r' (by simp [hvoice]))]
      exact hvoice
    · intro r' hr'
      obtain ⟨hpend, hrep, hrest⟩ := P.ready_front h
      have hr'ne : r' ≠ r := by
        rintro rfl
        simp only [ICacheSystem.waiting, List.mem_append] at hr'
        rcases hr' with (hr' | hr') | hr'
        · exact hpend hr'
        · exact hrep hr'
        · exact hrest hr'
      rw [hold r' hr'ne]
      simp only [Function.update_of_ne hr'ne]
      apply H.waiting
      simp only [ICacheSystem.waiting, h, Port.vals_cons, List.mem_append, List.mem_cons] at hr' ⊢
      tauto
    · intro r' hr'
      rw [ICacheSystem.hits, hits_update hrespond] at hr'
      have hvoice := H.hits r' hr'
      rw [hold r' (hne r' (by simp [hvoice]))]
      exact hvoice
    · intro r' hr'
      rcases List.mem_append.mp hr' with hr' | hr'
      · obtain ⟨hobj, hvoice⟩ := H.answered r' hr'
        have hr'ne : r' ≠ r := by
          apply hne
          rcases hvoice with hvoice | hvoice <;> simp [hvoice]
        rw [hold r' hr'ne]
        simp only [Function.update_of_ne hr'ne]
        exact ⟨hobj, hvoice⟩
      · rw [List.mem_singleton.mp hr']
        refine ⟨by simp, .inr ?_⟩
        rw [hnew, hr]
        rfl
  | @deliver arb d r s rest h =>
    have hsame := voice_deliver h
    refine ⟨?_, ?_, ?_, ?_, ?_⟩
    · intro r' hr'
      rw [hsame]
      exact H.later r' hr'
    · intro r' hr'
      rw [hsame]
      exact H.fresh r' hr'
    · intro r' hr'
      rw [hsame]
      exact H.waiting r' hr'
    · intro r' hr'
      rw [hsame]
      exact H.hits r' hr'
    · intro r' hr'
      rw [hsame]
      exact H.answered r' hr'
  | _ => exact ⟨H.later, H.fresh, H.waiting, H.hits, H.answered⟩

/-! ## The moves keep the order of the answers -/

theorem ReportedBy.mono (h : s.ReportedBy r k) (hle : k ≤ k') : s.ReportedBy r k' :=
  ⟨fun m hm hval => (h.1 m hm hval).trans hle, fun m hm hval => (h.2 m hm hval).trans hle⟩

/-- A lookup reports only its own request. -/
theorem ReportedBy.lookup {ic : ICacheState p} {d : ℕ} (h : s.ReportedBy r' k) (hne : r' ≠ r)
    (hrespond : ic.evRespond = Port.send s.ic.evRespond d r) :
    ReportedBy { s with ic := ic } r' k := by
  refine ⟨?_, h.2⟩
  intro m hm hval
  rw [hrespond] at hm
  rcases List.mem_append.mp hm with hm | hm
  · exact h.1 m hm hval
  · rw [List.mem_singleton.mp hm] at hval
    exact absurd hval.symm hne

/-- An answer that is sent is on its way as long as it was when it was scheduled. -/
theorem ReportedBy.respond {d : ℕ} {rest : List (Arrival ℕ)} (T : Timed s)
    (hq : s.ic.evRespond = ⟨d, r⟩ :: rest) (credits returned : List ℕ) (h : s.ReportedBy r' k) :
    ReportedBy { s with
      ic := { s.ic with evRespond := rest }
      resps := Port.send s.resps (s.now + 1) r
      credits := credits
      returned := returned } r' k := by
  constructor
  · intro m hm hval
    exact h.1 m (by rw [hq]; exact List.mem_cons_of_mem _ hm) hval
  · intro m hm hval
    rcases List.mem_append.mp hm with hm | hm
    · exact h.2 m hm hval
    · have hmem : ⟨d, r⟩ ∈ s.ic.evRespond := by rw [hq]; exact List.mem_cons_self
      rw [List.mem_singleton.mp hm] at hval ⊢
      have hle := h.1 _ hmem hval
      have hge := T.respond.ge _ hmem
      dsimp only at hle hge ⊢
      omega

/-- What is known at a time is known for the next access. -/
theorem Reported.mono {arb arb' : ℕ} (H : Reported addr arb s) (hle : arb ≤ arb') :
    Reported addr arb' s := by
  refine ⟨?_, H.atL2, ?_, ?_, ?_, H.ready⟩
  · intro r hr
    exact (H.pending r hr).mono (by omega)
  · intro fill hfill
    obtain ⟨r, hfind, hr⟩ := H.filling fill hfill
    exact ⟨r, hfind, hr.mono (by omega)⟩
  · intro r hr
    exact (H.replay r hr).mono (by omega)
  · intro r hr
    exact (H.next r hr).mono (by omega)

/-- A move that leaves the misses where they are, and delays no answer about them. -/
theorem Reported.keep {arb : ℕ} (H : Reported addr arb s)
    (hpend : s'.ic.pendingMissBuffer = s.ic.pendingMissBuffer)
    (hrep : s'.ic.replayBuffer = s.ic.replayBuffer)
    (hready : ∀ m ∈ s'.ic.evReplayReady, m ∈ s.ic.evReplayReady)
    (hatL2 : s'.atL2 = s.atL2) (hfill : s'.ic.l2cacheRespQueue = s.ic.l2cacheRespQueue)
    (hk : ∀ r ∈ s'.waiting, ∀ k, s.ReportedBy r k → s'.ReportedBy r k) :
    Reported addr arb s' := by
  have hmem : ∀ r ∈ s.ic.pendingMissBuffer, r ∈ s'.waiting := by
    intro r hr
    simp [ICacheSystem.waiting, hpend, hr]
  have hmem' : ∀ r ∈ s.ic.replayBuffer, r ∈ s'.waiting := by
    intro r hr
    simp [ICacheSystem.waiting, hrep, hr]
  have hfirst : ∀ phyAddr k, FirstReportedBy addr s phyAddr k →
      FirstReportedBy addr s' phyAddr k := by
    rintro phyAddr k ⟨r, hfind, hr⟩
    exact ⟨r, by rw [hpend]; exact hfind, hk r (hmem r (List.mem_of_find?_eq_some hfind)) k hr⟩
  refine ⟨?_, ?_, ?_, ?_, ?_, ?_⟩
  · rw [hpend]
    intro r hr
    exact hk r (hmem r hr) _ (H.pending r hr)
  · rw [hatL2]
    intro m hm
    exact hfirst _ _ (H.atL2 m hm)
  · rw [hfill]
    intro fill hf
    exact hfirst _ _ (H.filling fill hf)
  · rw [hrep]
    intro r hr
    exact hk r (hmem' r hr) _ (H.replay r hr)
  · rw [hrep]
    intro r hr
    exact hk r (hmem' r (List.mem_of_mem_head? hr)) _ (H.next r hr)
  · intro m hm
    apply hk m.val ?_ _ (H.ready m (hready m hm))
    rw [ICacheSystem.waiting]
    exact List.mem_append_right _ (List.mem_map_of_mem hm)

/-- A lookup that misses puts its request behind the others. -/
theorem Reported.missed {ic : ICacheState p} {rest : List ℕ} (H : Reported addr s.now s)
    (V : Voiced s) (T : Timed s) (h : s.ic.fetchReqQueue = r :: rest)
    (hrespond : ic.evRespond = Port.send s.ic.evRespond (s.now + p.cacheLatency) r)
    (hpend : ic.pendingMissBuffer = s.ic.pendingMissBuffer ++ [r])
    (hrep : ic.replayBuffer = s.ic.replayBuffer)
    (hready : ic.evReplayReady = s.ic.evReplayReady)
    (hfill : ic.l2cacheRespQueue = s.ic.l2cacheRespQueue) :
    Reported addr (s.now + 1) { s with ic := ic } := by
  have hr : s.voice r = [] := V.fresh r (by simp [ICacheSystem.fresh, h])
  have hkeep : ∀ r' ∈ s.waiting, ∀ k, s.ReportedBy r' k → ReportedBy { s with ic := ic } r' k := by
    intro r' hr' k hk
    apply hk.lookup ?_ hrespond
    rintro rfl
    rw [(V.waiting r' hr').2] at hr
    cases hr
  have hpending : ∀ r' ∈ s.ic.pendingMissBuffer, r' ∈ s.waiting := by
    intro r' hr'
    simp [ICacheSystem.waiting, hr']
  have hreplay : ∀ r' ∈ s.ic.replayBuffer, r' ∈ s.waiting := by
    intro r' hr'
    simp [ICacheSystem.waiting, hr']
  have hfirst : ∀ phyAddr k, FirstReportedBy addr s phyAddr k →
      FirstReportedBy addr { s with ic := ic } phyAddr k := by
    rintro phyAddr k ⟨r', hfind, hr'⟩
    refine ⟨r', ?_, hkeep r' (hpending r' (List.mem_of_find?_eq_some hfind)) k hr'⟩
    rw [hpend, List.find?_append, hfind, Option.some_or]
  have H := H.mono (Nat.le_succ _)
  refine ⟨?_, ?_, ?_, ?_, ?_, ?_⟩
  · intro r' hr'
    rw [hpend] at hr'
    rcases List.mem_append.mp hr' with hr' | hr'
    · exact hkeep r' (hpending r' hr') _ (H.pending r' hr')
    · -- the answer of the miss itself
      rw [List.mem_singleton.mp hr']
      constructor
      · intro m hm hval
        rw [hrespond] at hm
        rcases List.mem_append.mp hm with hm | hm
        · exact absurd (hval ▸ List.mem_map_of_mem hm) (not_mem_of_voice_eq_nil hr)
        · rw [List.mem_singleton.mp hm]
          dsimp only
          omega
      · intro m hm hval
        have hle := T.resps.le m hm
        omega
  · intro m hm
    exact hfirst _ _ (H.atL2 m hm)
  · rw [hfill]
    intro fill hf
    exact hfirst _ _ (H.filling fill hf)
  · rw [hrep]
    intro r' hr'
    exact hkeep r' (hreplay r' hr') _ (H.replay r' hr')
  · rw [hrep]
    intro r' hr'
    exact hkeep r' (hreplay r' (List.mem_of_mem_head? hr')) _ (H.next r' hr')
  · rw [hready]
    intro m hm
    apply hkeep m.val ?_ _ (H.ready m hm)
    rw [ICacheSystem.waiting]
    exact List.mem_append_right _ (List.mem_map_of_mem hm)

/-- A linefill: the request that has asked for the block is in front, and the others of the block
behind it. -/
theorem Reported.filled {fill : L2Access} {rest : List L2Access} (H : Reported addr s.now s)
    (F : Filled addr s) (h : s.ic.l2cacheRespQueue = fill :: rest) :
    Reported addr s.now { s with
      ic := { s.ic with
        l2cacheRespQueue := rest
        replayBuffer := s.ic.replayBuffer ++
          s.ic.pendingMissBuffer.filter (sameLine p addr (p.blockAddr fill.phyAddr))
        pendingMissBuffer := s.ic.pendingMissBuffer.filter fun r =>
          !sameLine p addr (p.blockAddr fill.phyAddr) r } } := by
  have hfirst : ∀ phyAddr k, p.blockAddr phyAddr ≠ p.blockAddr fill.phyAddr →
      FirstReportedBy addr s phyAddr k → FirstReportedBy addr { s with
      ic := { s.ic with
        l2cacheRespQueue := rest
        replayBuffer := s.ic.replayBuffer ++
          s.ic.pendingMissBuffer.filter (sameLine p addr (p.blockAddr fill.phyAddr))
        pendingMissBuffer := s.ic.pendingMissBuffer.filter fun r =>
          !sameLine p addr (p.blockAddr fill.phyAddr) r } } phyAddr k := by
    rintro phyAddr k hne ⟨r, hfind, hr⟩
    refine ⟨r, ?_, hr⟩
    rw [List.find?_filter, ← hfind]
    congr 1
    funext r'
    by_cases hr' : p.blockAddr (addr r') = p.blockAddr phyAddr
    · simp [sameLine, hr', hne]
    · simp [sameLine, hr']
  refine ⟨?_, ?_, ?_, ?_, ?_, H.ready⟩
  · intro r hr
    exact H.pending r (List.mem_filter.mp hr).1
  · intro m hm
    exact hfirst _ _ (F.atL2_ne h m hm) (H.atL2 m hm)
  · intro fill' hfill'
    exact hfirst _ _ (F.filling_ne h fill' hfill')
      (H.filling fill' (by rw [h]; exact List.mem_cons_of_mem _ hfill'))
  · intro r hr
    rcases List.mem_append.mp hr with hr | hr
    · exact H.replay r hr
    · exact H.pending r (List.mem_filter.mp hr).1
  · intro r hr
    rcases hrep : s.ic.replayBuffer with _ | ⟨r', rest'⟩
    · simp only [hrep, List.nil_append, List.head?_filter] at hr
      obtain ⟨r₁, hfind, hr₁⟩ := H.filling fill (by rw [h]; exact List.mem_cons_self)
      rw [hfind] at hr
      obtain rfl : r₁ = r := Option.some.inj hr
      exact hr₁
    · apply H.next
      simpa [hrep] using hr

/-- A request goes to the L2 cache: the answer cannot come in the next cycle. -/
theorem Reported.sent {arb : ℕ} {rest : List ℕ} (H : Reported addr arb s) (F : Filled addr s)
    (h : s.ic.missQueue = r :: rest) (harb : arb ≤ s.now + 1) :
    Reported addr arb { s with
      atL2 := s.atL2 ++ [⟨s.now + 2, addr r, s.ic.objs r⟩]
      ic := { s.ic with missQueue := rest } } := by
  refine ⟨H.pending, ?_, H.filling, H.replay, H.next, H.ready⟩
  intro m hm
  rcases List.mem_append.mp hm with hm | hm
  · exact H.atL2 m hm
  · have hpos : 0 < s.fills addr (p.blockAddr (addr r)) := by
      simp only [fills, h, List.countP_cons, sameLine, decide_true, if_true]
      omega
    obtain ⟨r', hfind⟩ := F.exists_pending hpos
    rw [List.mem_singleton.mp hm]
    exact ⟨r', hfind, (H.pending r' (List.mem_of_find?_eq_some hfind)).mono (by dsimp only; omega)⟩

theorem Reported.move (H : Reported addr x.1 x.2) (P : Placed x.2) (V : Voiced x.2) (T : Timed x.2)
    (F : Filled addr x.2) (m : Move addr x x') : Reported addr x'.1 x'.2 := by
  cases m with
  | @answer arb i s m h hdue harb =>
    refine ⟨H.pending, ?_, ?_, H.replay, H.next, H.ready⟩
    · intro m' hm'
      exact H.atL2 m' (List.mem_of_mem_eraseIdx hm')
    · intro fill hfill
      rcases List.mem_append.mp hfill with hfill | hfill
      · exact H.filling fill hfill
      · rw [List.mem_singleton.mp hfill]
        obtain ⟨r, hfind, hr⟩ := H.atL2 m (List.mem_of_getElem? h)
        exact ⟨r, hfind, hr.mono (by dsimp only; omega)⟩
  | reload h => exact .filled H F h
  | @replay r s rest h =>
    have hnext : s.ReportedBy r (s.now + p.cacheLatency) := H.next r (by simp [h])
    refine ⟨?_, H.atL2, ?_, ?_, ?_, ?_⟩
    · exact (H.mono (Nat.le_succ _)).pending
    · exact (H.mono (Nat.le_succ _)).filling
    · intro r' hr'
      exact (H.mono (Nat.le_succ _)).replay r' (by rw [h]; exact List.mem_cons_of_mem r hr')
    · intro r' hr'
      have hle := H.replay r' (by rw [h]; exact List.mem_cons_of_mem r (List.mem_of_mem_head? hr'))
      exact hle.mono (by dsimp only; omega)
    · intro m hm
      rcases List.mem_append.mp hm with hm | hm
      · exact H.ready m hm
      · rw [List.mem_singleton.mp hm]
        exact hnext
  | @hit r s rest hrep h =>
    refine (H.mono (Nat.le_succ _)).keep rfl rfl (fun m hm => hm) rfl rfl ?_
    intro r' hr' k hk
    apply hk.lookup ?_ rfl
    rintro rfl
    have hr : s.voice r' = [] := V.fresh r' (by simp [ICacheSystem.fresh, h])
    rw [(V.waiting r' hr').2] at hr
    cases hr
  | merge hrep h hpend => exact .missed H V T h rfl rfl rfl rfl rfl
  | miss hrep h hpend => exact .missed H V T h rfl rfl rfl rfl rfl
  | send h harb => exact .sent H F h harb
  | respondHit h hdue hobj =>
    exact H.keep rfl rfl (fun m hm => hm) rfl rfl fun r hr k hk => hk.respond T h _ _
  | respondMiss h hdue hobj =>
    exact H.keep rfl rfl (fun m hm => hm) rfl rfl fun r hr k hk => hk.respond T h _ _
  | @ready arb d r s rest h hdue =>
    refine H.keep rfl rfl ?_ rfl rfl ?_
    · intro m hm
      rw [h]
      exact List.mem_cons_of_mem _ hm
    · intro r' hr' k hk
      refine ⟨hk.1, ?_⟩
      intro m hm hval
      rcases List.mem_append.mp hm with hm | hm
      · exact hk.2 m hm hval
      · -- the answer is of another request
        rw [List.mem_singleton.mp hm] at hval
        obtain ⟨hpend, hrep, hrest⟩ := P.ready_front h
        obtain rfl : r = r' := hval
        simp only [ICacheSystem.waiting, List.mem_append] at hr'
        rcases hr' with (hr' | hr') | hr'
        · exact absurd hr' hpend
        · exact absurd hr' hrep
        · exact absurd hr' hrest
  | deliver h =>
    refine H.keep rfl rfl (fun m hm => hm) rfl rfl ?_
    intro r' hr' k hk
    refine ⟨hk.1, ?_⟩
    intro m hm hval
    exact hk.2 m (by rw [h]; exact List.mem_cons_of_mem _ hm) hval
  | @frame arb arb' s phase cache n e e' hle =>
    have H := H.mono hle
    exact ⟨H.pending, H.atL2, H.filling, H.replay, H.next, H.ready⟩
  | _ => exact ⟨H.pending, H.atL2, H.filling, H.replay, H.next, H.ready⟩

/-! ## Every reachable state -/

theorem Sound.move (H : Sound addr x) (m : Move addr x x') : Sound addr x' :=
  ⟨H.placed.move H.voiced H.timed H.reported m, H.voiced.move H.placed H.timed H.reported m,
    H.timed.move m, H.filled.move m, H.reported.move H.placed H.voiced H.timed H.filled m⟩

theorem Sound.moves (H : Sound addr x) (m : Moves addr x x') : Sound addr x' := by
  induction m with
  | refl => exact H
  | tail _ m ih => exact ih.move m

theorem Sound.init : Sound addr (0, ({} : ICacheSystem p)) := by
  refine ⟨⟨?_, rfl⟩, ⟨?_, ?_, ?_, ?_, ?_⟩, ⟨.nil, .nil, .nil⟩, ?_, ?_⟩
  · exact List.Perm.nil
  · intro r _
    rfl
  · intro r hr
    cases hr
  · intro r hr
    cases hr
  · intro r hr
    cases hr
  · intro r hr
    cases hr
  · intro block
    rfl
  · constructor <;> simp

theorem Sound.of_reachable (h : Run.Reachable (step addr) ({} : ICacheSystem p) s) :
    Sound addr (s.nextAccess, s) := by
  refine h.invariant (I := fun s => Sound addr (s.nextAccess, s)) .init ?_
  intro op s s' H hstep
  exact H.moves (step_moves hstep)

end ICacheSystem

end Olympia
