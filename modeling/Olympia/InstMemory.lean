import Olympia.ICache.Requests
import Olympia.Mss.MemAnswers

/-!
# The instruction cache with the memory system

The instruction cache, the L2 cache, the BIU and the MSS connected as `CPUTopology.cpp` connects
them, with any Fetch and any data cache that obey the credit protocol.  A request and an answer are
on their way for a cycle; a credit that `create_Req_` returns is sent with a delay of one, so it is
on its way for two.

`ICacheSystem` has any L2 cache that answers each request once and as a hit, and `L2System` any
requesters that have a credit for what they send.  Here each unit is what the other one asks for:
a run of both is a run of each (`InstMemory.Joined`).  So what holds of the instruction cache with
any such L2 cache holds of it with this one.

What is added is about both together.  A block that the instruction cache waits for has one fill
in all the queues, ports and buffers from `miss_queue_` to `l2cache_resp_queue_`, and the credits
between the two add up (`fetch_fills_once`).  When everything is at rest, every request of Fetch
has been answered, unless a transaction is asleep (`fetch_at_rest_has_answered`).
-/

namespace Olympia

open L2Cache

structure InstMemory (pi : ICacheParams) (p : L2Params) (q : BusParams) where
  icache : ICacheSystem pi := {}
  mem : MemSystem p q := {}
  /-- from `out_l2cache_req` to `in_icache_l2cache_req` -/
  reqs : List (Arrival L2Access) := []
  /-- from `out_l2cache_icache_resp` to `in_l2cache_resp` -/
  resps : List (Arrival MemoryRequest) := []
  /-- from `out_l2cache_icache_credits` to `in_l2cache_credits`, at first those of
  `sendInitialCredits_` -/
  credits : List (Arrival ℕ) := [⟨1, p.reqQueueSize .icache⟩]

inductive InstMemoryOp where
  | icache (op : ICacheOp)
  | mem (op : MemOp)
  /-- a request arrives at the L2 cache -/
  | reqArrives
  /-- an answer arrives at the instruction cache -/
  | respArrives
  | creditsArrive
  | tick
  | postTick
  | nextCycle
  deriving DecidableEq, Repr

/-- The steps of the memory system and of the other first-level cache, which leave the first-level
cache and the clock alone. -/
def MemOp.inner (c : L1Cache) : MemOp → Bool
  | .l2 (.req c' _) => c' ≠ c
  | .l2 .tick | .l2 .postTick | .l2 .nextCycle => false
  | _ => true

namespace MemSystem

variable {p : L2Params} {q : BusParams} {s s' : MemSystem p q} {c : L1Cache}

/-- A step of the memory system or of the other first-level cache. -/
theorem inner_step {op : MemOp} (hop : op.inner c = true) (h : s.step p q op = .ok s') :
    op.asks c = [] ∧ s'.l2.phase = s.l2.phase := by
  cases op with
  | l2 op =>
    refine ⟨?_, L2System.phase_step ?_ ?_ ?_ (step_l2 h)⟩
    · cases op with
      | req c' r => exact if_neg (of_decide_eq_true hop)
      | _ => rfl
    all_goals
      rintro rfl
      cases hop
  | _ => exact ⟨rfl, (traffic_of_bus (fun op' heq => by cases heq) h).2⟩

/-- A request can arrive as long as its queue has a free entry. -/
theorem req_ok (hs : Run.Reachable (MemSystem.step p q) {} s) (hphase : s.l2.phase = .portUpdate)
    {r : MemoryRequest} (hroom : (s.l2.l2.reqQueue c).length < p.reqQueueSize c) :
    ∃ l2, s.l2.handle p (.req c r) = .ok l2 ∧
      s.step p q (.l2 (.req c r)) = .ok { s with l2 := l2 } := by
  have S := sound_of_reachable hs
  have howed : L2System.owed s.l2.accepted s.l2.returned c < p.reqQueueSize c := by
    have hplaced : s.l2.accepted.countP (fun x => x.1 = c) =
        s.l2.returned c + (s.l2.l2.reqQueue c).length := S.placed.credits c
    unfold L2System.owed
    omega
  have hdue : s.l2.due p (.req c r) = true := decide_eq_true howed
  rcases hl2 : s.l2.handle p (.req c r) with e | l2
  · obtain ⟨⟨i, hi⟩, -⟩ := S.handle_failsIn hdue e hl2
    cases hi
  · have hstep := L2System.step_eq_ok.mpr ⟨hphase, hdue, hl2⟩
    exact ⟨l2, rfl, Run.bind_eq_ok.mpr ⟨(), enabled_eq_ok.mpr rfl,
      Run.bind_eq_ok.mpr ⟨l2, hstep, rfl⟩⟩⟩

end MemSystem

namespace InstMemory

variable {pi : ICacheParams} {p : L2Params} {q : BusParams} {addr : ℕ → ℕ}

/-- Nothing is left to arrive on the ports between the two. -/
def portsDone (s : InstMemory pi p q) : Bool :=
  Port.quiet s.reqs s.icache.now && Port.quiet s.resps s.icache.now &&
    Port.quiet s.credits s.icache.now

/-- A request arrives. -/
def getReq (s : InstMemory pi p q) (r : L2Access) (rest : List (Arrival L2Access)) :
    Except Assertion (InstMemory pi p q) := do
  let l2 ← s.mem.l2.handle p
    (.req .icache { id := 0, phyAddr := r.phyAddr, cacheState := r.cacheState })
  return { s with mem := { s.mem with l2 := l2 }, reqs := rest }

def step (addr : ℕ → ℕ) (s : InstMemory pi p q) : InstMemoryOp → Except Stop (InstMemory pi p q)
  | .icache op => do
    enabled (op.inner ∧ s.mem.l2.phase = op.phase)
    let icache ← s.icache.step addr op
    return { s with
      icache := icache
      reqs := s.reqs ++ (s.icache.requests addr op).map (Arrival.mk (s.icache.now + 1)) }
  | .mem op => do
    enabled (op.inner .icache)
    let mem ← s.mem.step p q op
    return { s with
      mem := mem
      resps := s.resps ++ (s.mem.answers .icache op).map (Arrival.mk (s.icache.now + 1))
      credits := s.credits ++ (s.mem.creditsTo .icache op).map (Arrival.mk (s.icache.now + 2)) }
  | .reqArrives => do
    enabled (s.mem.l2.phase = .portUpdate)
    match Port.front s.reqs s.icache.now with
    | none => .error .disabled
    | some (r, rest) => checked (s.getReq r rest)
  | .respArrives => do
    enabled (s.mem.l2.phase = .portUpdate)
    match Port.front s.resps s.icache.now with
    | none => .error .disabled
    | some (r, rest) =>
      .ok { s with icache := s.icache.receive ⟨r.phyAddr, r.cacheState⟩, resps := rest }
  | .creditsArrive => do
    enabled (s.mem.l2.phase = .portUpdate)
    match Port.front s.credits s.icache.now with
    | none => .error .disabled
    | some (n, rest) => .ok { s with
        icache := { s.icache with ic := ICache.getCreditsFromL2Cache s.icache.ic n }
        credits := rest }
  | .tick => do
    enabled s.portsDone
    let icache ← s.icache.step addr .tick
    let mem ← s.mem.step p q (.l2 .tick)
    return { s with icache := icache, mem := mem }
  | .postTick => do
    enabled s.icache.tickDone
    let mem ← s.mem.step p q (.l2 .postTick)
    return { s with mem := mem }
  | .nextCycle => do
    let icache ← s.icache.step addr .nextCycle
    let mem ← s.mem.step p q (.l2 .nextCycle)
    return { s with icache := icache, mem := mem }

/-! ## A run of both is a run of each -/

variable {s s' : InstMemory pi p q} {op : InstMemoryOp}

/-- The addresses between the two: on the way to the L2 cache, in it, and on the way back. -/
def between (s : InstMemory pi p q) : List ℕ :=
  (Port.vals s.reqs).map L2Access.phyAddr ++
    (s.mem.l2.traffic.heldFor .icache).map MemoryRequest.phyAddr ++
    (Port.vals s.resps).map MemoryRequest.phyAddr

/-- What every step keeps. -/
structure Joined (addr : ℕ → ℕ) (s : InstMemory pi p q) : Prop where
  icache : Run.Reachable (ICacheSystem.step addr) {} s.icache
  mem : Run.Reachable (MemSystem.step p q) {} s.mem
  addressed : ∃ f, s.mem.l2.traffic.Addressed f
  credits : s.icache.ic.l2cacheCredits + (Port.vals s.credits).sum + s.reqs.length +
    (s.mem.l2.l2.reqQueue .icache).length = p.reqQueueSize .icache
  /-- what the instruction cache has asked for is somewhere between the two -/
  places : s.icache.asked.Perm s.between
  hits : ∀ r ∈ Port.vals s.resps, r.cacheState = .hit
  /-- the answer to what is at the L2 cache will not come too early -/
  ahead : ∀ m ∈ s.icache.atL2, m.due ≤ s.icache.now + 1 ∨
    ∃ a ∈ s.reqs, a.val.phyAddr = m.val.phyAddr ∧ m.due ≤ a.due + 1
  behind : ∀ a ∈ s.resps, ∀ m ∈ s.icache.atL2, m.val.phyAddr = a.val.phyAddr → m.due ≤ a.due

namespace Joined

theorem init : Joined addr ({} : InstMemory pi p q) where
  icache := .refl _ _
  mem := .refl _ _
  addressed := ⟨id, L2System.addressed_init id⟩
  credits := by simp [Port.vals]
  places := .refl _
  hits r hr := by cases hr
  ahead m hm := by cases hm
  behind a ha := by cases ha

theorem asked_nodup (H : Joined addr s) : s.icache.asked.Nodup :=
  ICacheSystem.asked_nodup (ICacheSystem.Sound.of_reachable H.icache).filled

/-- A step of the instruction cache, which may send a request. -/
theorem icache_step (H : Joined addr s) (hsize : p.reqQueueSize .icache < 2 ^ 32) {op : ICacheOp}
    {ic : ICacheSystem pi} (hop : op.inner = true) (h : s.icache.step addr op = .ok ic) :
    Joined addr { s with
      icache := ic
      reqs := s.reqs ++ (s.icache.requests addr op).map (Arrival.mk (s.icache.now + 1)) } := by
  have hcredits := H.credits
  obtain ⟨hnow, -, hat, hpaid⟩ := ICacheSystem.inner_step hop (by omega) h
  have hreach := H.icache.step h
  have hnodup := ICacheSystem.asked_nodup (ICacheSystem.Sound.of_reachable hreach).filled
  refine ⟨hreach, H.mem, H.addressed, ?_, ?_, H.hits, ?_, ?_⟩
  · simp only [List.length_append, List.length_map]
    omega
  · have hplaces := H.places
    refine List.perm_iff_count.mpr fun a => ?_
    have hcount := hplaces.count_eq a
    simp only [ICacheSystem.asked, between, hat, Port.vals_append_map, List.map_append,
      List.count_append] at hcount ⊢
    omega
  · intro m hm
    rw [hat] at hm
    rw [hnow]
    rcases List.mem_append.mp hm with hm | hm
    · rcases H.ahead m hm with hle | ⟨a, ha, hsame, hle⟩
      · exact .inl hle
      · exact .inr ⟨a, List.mem_append_left _ ha, hsame, hle⟩
    · obtain ⟨r, hr, rfl⟩ := List.mem_map.mp hm
      exact .inr ⟨⟨s.icache.now + 1, r⟩, List.mem_append_right _ (List.mem_map_of_mem hr), rfl,
        le_rfl⟩
  · intro a ha m hm hsame
    rw [hat] at hm
    rcases List.mem_append.mp hm with hm | hm
    · exact H.behind a ha m hm hsame
    · -- the request would be at the L2 cache twice
      exfalso
      have hold : a.val.phyAddr ∈ s.icache.asked :=
        H.places.symm.subset (List.mem_append_right _
          (List.mem_map_of_mem (List.mem_map_of_mem ha)))
      have hnew : a.val.phyAddr ∈ (s.icache.requests addr op).map L2Access.phyAddr := by
        obtain ⟨r, hr, rfl⟩ := List.mem_map.mp hm
        exact hsame ▸ List.mem_map_of_mem hr
      rw [ICacheSystem.asked, hat, Port.vals_append_map, List.map_append] at hnodup
      exact (List.disjoint_of_nodup_append hnodup) hold hnew

/-- A step of the memory system that takes no request of the instruction cache. -/
theorem mem_step (H : Joined addr s) {op : MemOp} {mem : MemSystem p q}
    (hasks : op.asks .icache = []) (h : s.mem.step p q op = .ok mem) :
    Joined addr { s with
      mem := mem
      resps := s.resps ++ (s.mem.answers .icache op).map (Arrival.mk (s.icache.now + 1))
      credits := s.credits ++
        (s.mem.creditsTo .icache op).map (Arrival.mk (s.icache.now + 2)) } := by
  have hcredits := H.credits
  obtain ⟨f, A⟩ := H.addressed
  obtain ⟨f', A', hheld⟩ := MemSystem.heldFor_step H.mem A h
  have hheld := hheld .icache
  have hqueue := MemSystem.reqQueue_step H.mem h .icache
  rw [hasks, List.append_nil] at hheld
  rw [hasks, List.length_nil] at hqueue
  refine ⟨H.icache, H.mem.step h, ⟨f', A'⟩, ?_, ?_, ?_, H.ahead, ?_⟩
  · simp only [Port.vals_append_map, List.sum_append]
    omega
  · refine List.perm_iff_count.mpr fun a => ?_
    have hcount := H.places.count_eq a
    have hheld := hheld.count_eq a
    simp only [between, Port.vals_append_map, List.map_append, List.count_append]
      at hcount hheld ⊢
    omega
  · intro r hr
    rw [Port.vals_append_map] at hr
    rcases List.mem_append.mp hr with hr | hr
    · exact H.hits r hr
    · exact MemSystem.answers_hit H.mem hr
  · intro a ha m hm hsame
    rcases List.mem_append.mp ha with ha | ha
    · exact H.behind a ha m hm hsame
    · obtain ⟨r, hr, rfl⟩ := List.mem_map.mp ha
      rcases H.ahead m hm with hle | ⟨b, hb, hbsame, -⟩
      · exact hle
      · -- the request would be on its way and in the L2 cache
        exfalso
        have hin : r.phyAddr ∈ (s.mem.l2.traffic.heldFor .icache).map MemoryRequest.phyAddr :=
          hheld.subset (List.mem_append_right _ (List.mem_map_of_mem hr))
        have hreq : r.phyAddr ∈ (Port.vals s.reqs).map L2Access.phyAddr := by
          rw [show r.phyAddr = b.val.phyAddr from (hbsame.trans hsame).symm]
          exact List.mem_map_of_mem (List.mem_map_of_mem hb)
        have hnodup := (List.Perm.nodup_iff H.places).mp H.asked_nodup
        exact List.disjoint_of_nodup_append (List.nodup_append.mp hnodup).1 hreq hin

/-- A request that arrives has an entry in the queue, because it had a credit. -/
theorem getReq_ok (H : Joined addr s) (hphase : s.mem.l2.phase = .portUpdate) {due : ℕ}
    {r : L2Access} {rest : List (Arrival L2Access)} (hreqs : s.reqs = ⟨due, r⟩ :: rest) :
    ∃ mem, s.getReq r rest = .ok { s with mem := mem, reqs := rest } ∧
      s.mem.step p q (.l2 (.req .icache
        { id := 0, phyAddr := r.phyAddr, cacheState := r.cacheState })) = .ok mem := by
  have hcredits := H.credits
  rw [hreqs, List.length_cons] at hcredits
  obtain ⟨l2, hl2, hstep⟩ := MemSystem.req_ok H.mem hphase (c := .icache)
    (r := { id := 0, phyAddr := r.phyAddr, cacheState := r.cacheState }) (by omega)
  exact ⟨_, Run.bind_eq_ok.mpr ⟨l2, hl2, rfl⟩, hstep⟩

theorem reqArrives (H : Joined addr s) (hphase : s.mem.l2.phase = .portUpdate) {due : ℕ}
    {r : L2Access} {rest : List (Arrival L2Access)} (hreqs : s.reqs = ⟨due, r⟩ :: rest)
    (hdue : due ≤ s.icache.now) (h : s.getReq r rest = .ok s') : Joined addr s' := by
  obtain ⟨mem, hok, hstep⟩ := H.getReq_ok hphase hreqs
  obtain rfl := Except.ok.inj (hok.symm.trans h)
  have hcredits := H.credits
  obtain ⟨f, A⟩ := H.addressed
  obtain ⟨f', A', hheld⟩ := MemSystem.heldFor_step H.mem A hstep
  have hheld := hheld .icache
  have hqueue := MemSystem.reqQueue_step H.mem hstep .icache
  rw [hreqs, List.length_cons] at hcredits
  refine ⟨H.icache, H.mem.step hstep, ⟨f', A'⟩, ?_, ?_, H.hits, ?_, H.behind⟩
  · simp only [MemSystem.creditsTo, L2System.creditsTo, MemOp.asks, L2Op.asks, if_true,
      List.sum_nil, List.length_singleton] at hqueue
    dsimp only
    omega
  · refine List.perm_iff_count.mpr fun a => ?_
    have hcount := H.places.count_eq a
    have hheld := hheld.count_eq a
    simp only [MemSystem.answers, L2System.answers, MemOp.asks, L2Op.asks, if_true, List.map_nil,
      List.append_nil, List.count_append] at hheld
    simp only [between, hreqs, Port.vals_cons, List.map_cons, List.count_append,
      List.count_cons, List.count_nil] at hcount hheld ⊢
    omega
  · intro m hm
    rcases H.ahead m hm with hle | ⟨a, ha, hsame, hle⟩
    · exact .inl hle
    · rw [hreqs] at ha
      rcases List.mem_cons.mp ha with rfl | ha
      · left
        dsimp only at hle ⊢
        omega
      · exact .inr ⟨a, ha, hsame, hle⟩

theorem respArrives (H : Joined addr s) (hphase : s.icache.phase = .portUpdate) {due : ℕ}
    {r : MemoryRequest} {rest : List (Arrival MemoryRequest)} (hresps : s.resps = ⟨due, r⟩ :: rest)
    (hdue : due ≤ s.icache.now) :
    Joined addr { s with
      icache := s.icache.receive ⟨r.phyAddr, r.cacheState⟩, resps := rest } := by
  have hmem : (⟨due, r⟩ : Arrival MemoryRequest) ∈ s.resps := by
    rw [hresps]
    exact List.mem_cons_self
  have hhit : r.cacheState = .hit := H.hits r (List.mem_map_of_mem hmem)
  have hasked : r.phyAddr ∈ s.icache.asked :=
    H.places.symm.subset (List.mem_append_right _ (List.mem_map_of_mem (List.mem_map_of_mem hmem)))
  obtain ⟨i, hstep⟩ : ∃ i, s.icache.step addr (.l2Resp i .hit) =
      .ok (s.icache.receive ⟨r.phyAddr, r.cacheState⟩) :=
    ICacheSystem.receive_step hphase hhit hasked
      fun m hm hsame => (H.behind _ hmem m hm hsame).trans hdue
  have hperm : s.icache.asked.Perm
      (r.phyAddr :: (s.icache.receive ⟨r.phyAddr, r.cacheState⟩).asked) :=
    @ICacheSystem.receive_asked _ _ ⟨r.phyAddr, r.cacheState⟩ hhit hasked
  have hat : ∀ m ∈ (s.icache.receive ⟨r.phyAddr, r.cacheState⟩).atL2, m ∈ s.icache.atL2 := by
    intro m hm
    simp only [ICacheSystem.receive, hhit, if_true] at hm
    exact List.mem_of_mem_eraseP hm
  refine ⟨H.icache.step hstep, H.mem, H.addressed, ?_, ?_, ?_, ?_, ?_⟩
  · have hcredits := H.credits
    simp only [ICacheSystem.receive, ICache.getRespFromL2Cache, hhit, if_true]
    exact hcredits
  · refine List.perm_iff_count.mpr fun a => ?_
    have hcount := H.places.count_eq a
    have hperm := hperm.count_eq a
    simp only [between, hresps, Port.vals_cons, List.map_cons, List.count_append,
      List.count_cons] at hcount hperm ⊢
    omega
  · intro x hx
    refine H.hits x ?_
    rw [hresps]
    exact List.mem_cons_of_mem _ hx
  · intro m hm
    exact H.ahead m (hat m hm)
  · intro a ha m hm hsame
    refine H.behind a ?_ m (hat m hm) hsame
    rw [hresps]
    exact List.mem_cons_of_mem _ ha

theorem creditsArrive (H : Joined addr s) (hsize : p.reqQueueSize .icache < 2 ^ 32)
    (hphase : s.icache.phase = .portUpdate) {due n : ℕ} {rest : List (Arrival ℕ)}
    (hcred : s.credits = ⟨due, n⟩ :: rest) :
    Joined addr { s with
      icache := { s.icache with ic := ICache.getCreditsFromL2Cache s.icache.ic n }
      credits := rest } := by
  have hcredits := H.credits
  simp only [hcred, Port.vals_cons, List.sum_cons] at hcredits
  have hstep : s.icache.step addr (.l2Credits n) =
      .ok { s.icache with ic := ICache.getCreditsFromL2Cache s.icache.ic n } :=
    ICacheSystem.step_eq_ok.mpr ⟨hphase, rfl, rfl⟩
  refine ⟨H.icache.step hstep, H.mem, H.addressed, ?_, H.places, H.hits, H.ahead, H.behind⟩
  have hgot : (ICache.getCreditsFromL2Cache s.icache.ic n).l2cacheCredits =
      s.icache.ic.l2cacheCredits + n := by
    unfold ICache.getCreditsFromL2Cache
    dsimp only
    rw [u32Add_of_lt (by omega)]
    split <;> rfl
  dsimp only
  rw [hgot]
  omega

/-- The clock of the instruction cache. -/
theorem clock_step (H : Joined addr s) {op : ICacheOp} (hop : op = .tick ∨ op = .nextCycle)
    {ic : ICacheSystem pi} (h : s.icache.step addr op = .ok ic) :
    Joined addr { s with icache := ic } := by
  have hreach := H.icache.step h
  obtain ⟨-, -, h⟩ := ICacheSystem.step_eq_ok.mp h
  rcases hop with rfl | rfl
  · obtain rfl := Except.ok.inj h
    exact { H with icache := hreach }
  · obtain rfl := Except.ok.inj h
    refine { H with icache := hreach, ahead := fun m hm => ?_ }
    exact (H.ahead m hm).imp Nat.le_succ_of_le id

theorem step (H : Joined addr s) (hsize : p.reqQueueSize .icache < 2 ^ 32)
    (hphase : s.icache.phase = MemSystem.busPhase s.mem.l2.phase) (h : s.step addr op = .ok s') :
    Joined addr s' := by
  have hbegin : s.mem.l2.phase = .portUpdate → s.icache.phase = .portUpdate := by
    intro hmem
    rw [hphase, hmem]
    rfl
  cases op with
  | icache op =>
    obtain ⟨u, hen, h⟩ := Run.bind_eq_ok.mp h
    obtain ⟨ic, hic, h⟩ := Run.bind_eq_ok.mp h
    obtain rfl := Except.ok.inj h
    exact H.icache_step hsize (of_decide_eq_true (enabled_eq_ok.mp hen)).1 hic
  | mem op =>
    obtain ⟨u, hen, h⟩ := Run.bind_eq_ok.mp h
    obtain ⟨mem, hmem, h⟩ := Run.bind_eq_ok.mp h
    obtain rfl := Except.ok.inj h
    exact H.mem_step (MemSystem.inner_step (enabled_eq_ok.mp hen) hmem).1 hmem
  | reqArrives =>
    obtain ⟨u, hen, h⟩ := Run.bind_eq_ok.mp h
    rcases hfront : Port.front s.reqs s.icache.now with _ | ⟨r, rest⟩
    · simp only [hfront] at h
      cases h
    · obtain ⟨due, hdue, hreqs⟩ := Port.front_eq_some hfront
      simp only [hfront] at h
      exact H.reqArrives (of_decide_eq_true (enabled_eq_ok.mp hen)) hreqs hdue (checked_eq_ok.mp h)
  | respArrives =>
    obtain ⟨u, hen, h⟩ := Run.bind_eq_ok.mp h
    rcases hfront : Port.front s.resps s.icache.now with _ | ⟨r, rest⟩
    · simp only [hfront] at h
      cases h
    · obtain ⟨due, hdue, hresps⟩ := Port.front_eq_some hfront
      simp only [hfront] at h
      obtain rfl := Except.ok.inj h
      exact H.respArrives (hbegin (of_decide_eq_true (enabled_eq_ok.mp hen))) hresps hdue
  | creditsArrive =>
    obtain ⟨u, hen, h⟩ := Run.bind_eq_ok.mp h
    rcases hfront : Port.front s.credits s.icache.now with _ | ⟨n, rest⟩
    · simp only [hfront] at h
      cases h
    · obtain ⟨due, -, hcred⟩ := Port.front_eq_some hfront
      simp only [hfront] at h
      obtain rfl := Except.ok.inj h
      exact H.creditsArrive hsize (hbegin (of_decide_eq_true (enabled_eq_ok.mp hen))) hcred
  | tick =>
    obtain ⟨u, -, h⟩ := Run.bind_eq_ok.mp h
    obtain ⟨ic, hic, h⟩ := Run.bind_eq_ok.mp h
    obtain ⟨mem, hmem, h⟩ := Run.bind_eq_ok.mp h
    obtain rfl := Except.ok.inj h
    simpa [MemSystem.answers, L2System.answers, MemSystem.creditsTo, L2System.creditsTo] using
      (H.clock_step (.inl rfl) hic).mem_step rfl hmem
  | postTick =>
    obtain ⟨u, -, h⟩ := Run.bind_eq_ok.mp h
    obtain ⟨mem, hmem, h⟩ := Run.bind_eq_ok.mp h
    obtain rfl := Except.ok.inj h
    simpa [MemSystem.answers, L2System.answers, MemSystem.creditsTo, L2System.creditsTo] using
      H.mem_step rfl hmem
  | nextCycle =>
    obtain ⟨ic, hic, h⟩ := Run.bind_eq_ok.mp h
    obtain ⟨mem, hmem, h⟩ := Run.bind_eq_ok.mp h
    obtain rfl := Except.ok.inj h
    simpa [MemSystem.answers, L2System.answers, MemSystem.creditsTo, L2System.creditsTo] using
      (H.clock_step (.inr rfl) hic).mem_step rfl hmem

end Joined

/-- The phases of both agree. -/
theorem phase_step (hsize : s.icache.ic.l2cacheCredits < 2 ^ 32)
    (hphase : s.icache.phase = MemSystem.busPhase s.mem.l2.phase) (h : s.step addr op = .ok s') :
    s'.icache.phase = MemSystem.busPhase s'.mem.l2.phase := by
  cases op with
  | icache op =>
    obtain ⟨u, hen, h⟩ := Run.bind_eq_ok.mp h
    obtain ⟨ic, hic, h⟩ := Run.bind_eq_ok.mp h
    obtain rfl := Except.ok.inj h
    have hinner := (of_decide_eq_true (enabled_eq_ok.mp hen)).1
    exact (ICacheSystem.inner_step hinner hsize hic).2.1.trans hphase
  | mem op =>
    obtain ⟨u, hen, h⟩ := Run.bind_eq_ok.mp h
    obtain ⟨mem, hmem, h⟩ := Run.bind_eq_ok.mp h
    obtain rfl := Except.ok.inj h
    dsimp only
    rw [(MemSystem.inner_step (enabled_eq_ok.mp hen) hmem).2]
    exact hphase
  | reqArrives =>
    obtain ⟨u, -, h⟩ := Run.bind_eq_ok.mp h
    rcases hfront : Port.front s.reqs s.icache.now with _ | ⟨r, rest⟩
    · simp only [hfront] at h
      cases h
    · simp only [hfront] at h
      obtain ⟨l2, hl2, h⟩ := Run.bind_eq_ok.mp (checked_eq_ok.mp h)
      obtain rfl := Except.ok.inj h
      dsimp only
      rw [L2System.handle_phase hl2]
      exact hphase
  | respArrives =>
    obtain ⟨u, -, h⟩ := Run.bind_eq_ok.mp h
    rcases hfront : Port.front s.resps s.icache.now with _ | ⟨r, rest⟩
    · simp only [hfront] at h
      cases h
    · simp only [hfront] at h
      obtain rfl := Except.ok.inj h
      exact hphase
  | creditsArrive =>
    obtain ⟨u, -, h⟩ := Run.bind_eq_ok.mp h
    rcases hfront : Port.front s.credits s.icache.now with _ | ⟨n, rest⟩
    · simp only [hfront] at h
      cases h
    · simp only [hfront] at h
      obtain rfl := Except.ok.inj h
      exact hphase
  | tick =>
    obtain ⟨u, -, h⟩ := Run.bind_eq_ok.mp h
    obtain ⟨ic, hic, h⟩ := Run.bind_eq_ok.mp h
    obtain ⟨mem, hmem, h⟩ := Run.bind_eq_ok.mp h
    obtain rfl := Except.ok.inj h
    have hl2 := (L2System.step_eq_ok.mp (MemSystem.step_l2 hmem)).2.2
    dsimp only
    rw [L2System.handle_phase hl2]
    obtain rfl := Except.ok.inj (ICacheSystem.step_eq_ok.mp hic).2.2
    rfl
  | postTick =>
    obtain ⟨u, -, h⟩ := Run.bind_eq_ok.mp h
    obtain ⟨mem, hmem, h⟩ := Run.bind_eq_ok.mp h
    obtain rfl := Except.ok.inj h
    obtain ⟨htick, -, hl2⟩ := L2System.step_eq_ok.mp (MemSystem.step_l2 hmem)
    dsimp only
    rw [hphase, L2System.handle_phase hl2, htick]
    rfl
  | nextCycle =>
    obtain ⟨ic, hic, h⟩ := Run.bind_eq_ok.mp h
    obtain ⟨mem, hmem, h⟩ := Run.bind_eq_ok.mp h
    obtain rfl := Except.ok.inj h
    have hl2 := (L2System.step_eq_ok.mp (MemSystem.step_l2 hmem)).2.2
    dsimp only
    rw [L2System.handle_phase hl2]
    obtain rfl := Except.ok.inj (ICacheSystem.step_eq_ok.mp hic).2.2
    rfl

theorem joined_of_reachable (hsize : p.reqQueueSize .icache < 2 ^ 32)
    (h : Run.Reachable (step addr) ({} : InstMemory pi p q) s) :
    Joined addr s ∧ s.icache.phase = MemSystem.busPhase s.mem.l2.phase := by
  refine h.invariant (I := fun s => Joined addr s ∧
    s.icache.phase = MemSystem.busPhase s.mem.l2.phase) ⟨.init, rfl⟩ ?_
  rintro op s s' ⟨H, hphase⟩ hstep
  have hcredits := H.credits
  exact ⟨H.step hsize hphase hstep, phase_step (by omega) hphase hstep⟩

/-! ## The fills of a block -/

/-- The fills of a block that are outstanding, wherever they are. -/
def fills (addr : ℕ → ℕ) (s : InstMemory pi p q) (block : ℕ) : ℕ :=
  s.icache.ic.missQueue.countP (ICache.sameLine pi addr block) +
    s.between.countP (fun a => pi.blockAddr a = block) +
    s.icache.ic.l2cacheRespQueue.countP (fun fill => pi.blockAddr fill.phyAddr = block)

namespace Joined

theorem fills_eq (H : Joined addr s) (block : ℕ) :
    s.fills addr block = s.icache.fills addr block := by
  have hcount := H.places.countP_eq (fun a => decide (pi.blockAddr a = block))
  rw [ICacheSystem.asked, List.countP_map] at hcount
  rw [fills, ICacheSystem.fills, ← hcount]
  rfl

theorem pending_iff (H : Joined addr s) (block : ℕ) :
    ((∃ r ∈ s.icache.ic.pendingMissBuffer, pi.blockAddr (addr r) = block) ↔
      s.fills addr block = 1) ∧ s.fills addr block ≤ 1 := by
  have F : ICacheSystem.Filled addr s.icache := (ICacheSystem.Sound.of_reachable H.icache).filled
  rw [H.fills_eq]
  refine ⟨?_, F.fills_le block⟩
  rw [F block]
  simp [List.any_eq_true, ICache.sameLine]

/-- A step stops only at the assertions on the number of answers of the BIU. -/
theorem assertion (H : Joined addr s) {a : Assertion}
    (h : s.step addr op = .error (.assertion a)) :
    op = .mem .respArrives ∧ (a = .biuRespQueueOverflow ∨ a = .biuRespNotServiced) := by
  have hicache := (ICacheSystem.Sound.of_reachable H.icache).no_assertion
  cases op with
  | icache op =>
    rcases Run.bind_eq_error.mp h with hen | ⟨u, -, h⟩
    · exact absurd hen enabled_ne_assertion
    rcases Run.bind_eq_error.mp h with h | ⟨ic, -, h⟩
    · exact absurd h (hicache op a)
    · cases h
  | mem op =>
    rcases Run.bind_eq_error.mp h with hen | ⟨u, -, h⟩
    · exact absurd hen enabled_ne_assertion
    rcases Run.bind_eq_error.mp h with h | ⟨mem, -, h⟩
    · obtain ⟨rfl, ha⟩ := MemSystem.assertion_of_reachable H.mem h
      exact ⟨rfl, ha⟩
    · cases h
  | reqArrives =>
    rcases Run.bind_eq_error.mp h with hen | ⟨u, hen, h⟩
    · exact absurd hen enabled_ne_assertion
    rcases hfront : Port.front s.reqs s.icache.now with _ | ⟨r, rest⟩
    · simp only [hfront] at h
      cases h
    · obtain ⟨due, -, hreqs⟩ := Port.front_eq_some hfront
      obtain ⟨mem, hok, -⟩ := H.getReq_ok (of_decide_eq_true (enabled_eq_ok.mp hen)) hreqs
      simp only [hfront, hok] at h
      cases h
  | respArrives =>
    rcases Run.bind_eq_error.mp h with hen | ⟨u, -, h⟩
    · exact absurd hen enabled_ne_assertion
    rcases hfront : Port.front s.resps s.icache.now with _ | ⟨r, rest⟩
    · simp only [hfront] at h
      cases h
    · simp only [hfront] at h
      cases h
  | creditsArrive =>
    rcases Run.bind_eq_error.mp h with hen | ⟨u, -, h⟩
    · exact absurd hen enabled_ne_assertion
    rcases hfront : Port.front s.credits s.icache.now with _ | ⟨n, rest⟩
    · simp only [hfront] at h
      cases h
    · simp only [hfront] at h
      cases h
  | tick =>
    rcases Run.bind_eq_error.mp h with hen | ⟨u, -, h⟩
    · exact absurd hen enabled_ne_assertion
    rcases Run.bind_eq_error.mp h with h | ⟨ic, -, h⟩
    · exact absurd h (hicache .tick a)
    rcases Run.bind_eq_error.mp h with h | ⟨mem, -, h⟩
    · cases (MemSystem.assertion_of_reachable H.mem h).1
    · cases h
  | postTick =>
    rcases Run.bind_eq_error.mp h with hen | ⟨u, -, h⟩
    · exact absurd hen enabled_ne_assertion
    rcases Run.bind_eq_error.mp h with h | ⟨mem, -, h⟩
    · cases (MemSystem.assertion_of_reachable H.mem h).1
    · cases h
  | nextCycle =>
    rcases Run.bind_eq_error.mp h with h | ⟨ic, -, h⟩
    · exact absurd h (hicache .nextCycle a)
    rcases Run.bind_eq_error.mp h with h | ⟨mem, -, h⟩
    · cases (MemSystem.assertion_of_reachable H.mem h).1
    · cases h

end Joined

/-! ## Both at rest -/

/-- Nothing is scheduled, and nothing is on its way. -/
structure AtRest (s : InstMemory pi p q) : Prop where
  events : ¬s.icache.ic.evArbitrate.Pending ∧ ¬s.icache.ic.evL2cacheRequest.Pending
  answers : s.icache.ic.evRespond = [] ∧ s.icache.ic.evReplayReady = []
  fetch : s.icache.reqs = [] ∧ s.icache.resps = [] ∧ s.icache.credits = []
  ports : s.reqs = [] ∧ s.resps = [] ∧ s.credits = []
  mem : s.mem.AtRest

instance (s : InstMemory pi p q) : Decidable s.AtRest :=
  decidable_of_iff
    ((¬s.icache.ic.evArbitrate.Pending ∧ ¬s.icache.ic.evL2cacheRequest.Pending) ∧
      (s.icache.ic.evRespond = [] ∧ s.icache.ic.evReplayReady = []) ∧
      (s.icache.reqs = [] ∧ s.icache.resps = [] ∧ s.icache.credits = []) ∧
      (s.reqs = [] ∧ s.resps = [] ∧ s.credits = []) ∧ s.mem.AtRest)
    ⟨fun ⟨hevents, hanswers, hfetch, hports, hmem⟩ => ⟨hevents, hanswers, hfetch, hports, hmem⟩,
      fun h => ⟨h.events, h.answers, h.fetch, h.ports, h.mem⟩⟩

/-- With nothing left between the two, the instruction cache is at rest and has its credits. -/
theorem AtRest.icache (R : s.AtRest) (H : Joined addr s) (hbiu : s.mem.l2.l2.biuReqQueue = []) :
    s.icache.AtRest ∧ s.icache.ic.l2cacheCredits = p.reqQueueSize .icache := by
  obtain ⟨hreqs, hresps, hcred⟩ := R.ports
  have hheld := R.mem.heldFor_eq_nil H.mem hbiu .icache
  have hbetween : s.between = [] := by simp [between, hreqs, hresps, hheld, Port.vals]
  have hat : s.icache.atL2 = [] := by
    have hasked := H.places
    rw [hbetween] at hasked
    simpa [ICacheSystem.asked, Port.vals] using hasked.eq_nil
  have hqueue : s.mem.l2.l2.reqQueue .icache = [] := by
    simp only [L2Traffic.heldFor, List.append_eq_nil_iff] at hheld
    exact hheld.1.1
  refine ⟨⟨R.events.1, R.events.2, R.answers.1, R.answers.2, R.fetch.1, R.fetch.2.1, R.fetch.2.2,
    hat⟩, ?_⟩
  simpa [hreqs, hcred, hqueue, Port.vals] using H.credits

/-- Every request of Fetch has been answered, and its credit is back. -/
theorem AtRest.answered (R : s.AtRest) (H : Joined addr s) (hpos : 0 < p.reqQueueSize .icache)
    (hbiu : s.mem.l2.l2.biuReqQueue = []) :
    s.icache.creditsIcache = ICacheParams.fetchQueueSize ∧
    ∀ r < s.icache.requested, s.icache.returned.count r = 1 ∧
      (s.icache.seen r = [.hit] ∨ s.icache.seen r = [.miss, .hit]) := by
  obtain ⟨hrest, hcredits⟩ := R.icache H hbiu
  have hne : s.icache.ic.l2cacheCredits ≠ 0 := by omega
  have P : s.icache.Placed := (ICacheSystem.Sound.of_reachable H.icache).placed
  refine ⟨?_, fun r hr => hrest.answered H.icache hne hr⟩
  have hheld := hrest.held_eq_nil (ICacheSystem.Sound.of_reachable H.icache)
    (ICacheSystem.Awake.of_reachable H.icache) hne
  simpa [hheld, hrest.credits] using P.credits

end InstMemory

open InstMemory

/-- In every state that the instruction cache, the L2 cache, the BIU and the MSS reach, with any
Fetch and any data cache that obey the credit protocol: the instruction cache is in a state that it
reaches with any L2 cache that answers each request once as a hit, and the memory system in one
that it reaches with any requester that has credits.  A block has a pending request of Fetch
exactly if one fill of it is outstanding anywhere between the miss queue and the queue of the
answers, and never two.  The credits between the two add up, every answer on its way is a hit of a
block that a request of Fetch waits for, and only the assertions on the number of answers of the
BIU can fail. -/
theorem fetch_fills_once (pi : ICacheParams) (p : L2Params) (q : BusParams) (addr : ℕ → ℕ)
    (hsize : p.reqQueueSize .icache < 2 ^ 32) {s : InstMemory pi p q}
    (h : Run.Reachable (InstMemory.step addr) {} s) :
    (Run.Reachable (ICacheSystem.step addr) {} s.icache ∧
      Run.Reachable (MemSystem.step p q) {} s.mem) ∧
    (∀ block, ((∃ r ∈ s.icache.ic.pendingMissBuffer, pi.blockAddr (addr r) = block) ↔
      s.fills addr block = 1) ∧ s.fills addr block ≤ 1) ∧
    s.icache.ic.l2cacheCredits + (Port.vals s.credits).sum + s.reqs.length +
      (s.mem.l2.l2.reqQueue .icache).length = p.reqQueueSize .icache ∧
    (∀ r ∈ Port.vals s.resps, r.cacheState = .hit ∧
      ∃ x ∈ s.icache.ic.pendingMissBuffer, pi.blockAddr (addr x) = pi.blockAddr r.phyAddr) ∧
    (∀ op a, s.step addr op = .error (.assertion a) →
      op = .mem .respArrives ∧ (a = .biuRespQueueOverflow ∨ a = .biuRespNotServiced)) := by
  obtain ⟨H, -⟩ := joined_of_reachable hsize h
  refine ⟨⟨H.icache, H.mem⟩, H.pending_iff, H.credits, fun r hr => ⟨H.hits r hr, ?_⟩,
    fun op a => H.assertion⟩
  obtain ⟨hpend, hle⟩ := H.pending_iff (pi.blockAddr r.phyAddr)
  have hpos : 0 < s.between.countP (fun a => pi.blockAddr a = pi.blockAddr r.phyAddr) :=
    List.countP_pos_iff.mpr ⟨r.phyAddr, List.mem_append_right _ (List.mem_map_of_mem hr),
      decide_eq_true rfl⟩
  refine hpend.mpr (le_antisymm hle ?_)
  rw [fills]
  omega

/-- Two requests of one block miss in both caches; the answer of the memory fills the line, and
both are replayed. -/
def fetchedOps : List InstMemoryOp :=
  [.tick, .icache .creditArrives, .icache .fetchReq, .icache .fetchReq, .postTick, .nextCycle,
   .mem .creditsArrive, .creditsArrive, .icache .reqArrives, .icache .reqArrives, .tick,
   .icache .arbitrate, .postTick, .nextCycle,
   .reqArrives, .tick, .icache .respond, .icache .arbitrate, .mem (.l2 (.handleReq .icache)),
   .postTick, .mem (.l2 .createReq), .mem (.l2 .issueReq), .nextCycle,
   .tick, .icache .respArrives, .icache .respond, .mem (.l2 .lookup), .postTick,
   .mem (.l2 .issueReq), .nextCycle,
   .creditsArrive, .tick, .icache .respArrives, .mem (.l2 .result), .mem (.l2 .handleBiuReq),
   .postTick, .nextCycle,
   .mem (.bus .reqArrives), .tick, .mem (.bus .handleBiuReq), .postTick, .nextCycle,
   .tick, .postTick, .nextCycle,
   .mem (.bus .mssReqArrives), .tick, .postTick, .nextCycle,
   .tick, .mem (.bus .handleMssReq), .postTick, .nextCycle,
   .mem (.bus .ackArrives), .tick, .mem (.bus .handleMssAck), .postTick, .nextCycle,
   .mem .creditsArrive, .tick, .postTick, .nextCycle,
   .mem .respArrives, .tick, .mem (.l2 .handleBiuResp), .postTick, .mem (.l2 .createReq),
   .mem (.l2 .issueReq), .nextCycle,
   .tick, .mem (.l2 .lookup), .postTick, .mem (.l2 .issueReq), .nextCycle,
   .tick, .mem (.l2 .result), .mem (.l2 (.handleResp .icache)), .postTick, .nextCycle,
   .respArrives, .tick, .icache .arbitrate, .postTick, .nextCycle,
   .tick, .icache .replayReady, .icache .creditArrives, .icache .arbitrate, .postTick, .nextCycle,
   .tick, .icache .respArrives, .icache .replayReady, .icache .creditArrives, .postTick, .nextCycle,
   .tick, .icache .respArrives]

theorem fetch_fills_once_sample :
    ∃ s, (fetchedOps.take 33).foldlM (InstMemory.step (fun r => 8 * r))
        ({} : InstMemory smallICache twoEntryL2 fastBus) = .ok s ∧
      s.icache.ic.pendingMissBuffer = [0, 1] ∧ s.fills (fun r => 8 * r) 0 = 1 := by
  have heval : ((fetchedOps.take 33).foldlM (InstMemory.step (fun r => 8 * r))
      ({} : InstMemory smallICache twoEntryL2 fastBus)).toOption.map
        (fun s => s.icache.ic.pendingMissBuffer) = some [0, 1] := by
    decide +kernel
  obtain ⟨s, hs, hpend⟩ := Run.ok_of_eval heval
  obtain ⟨-, hfills, -⟩ := fetch_fills_once smallICache twoEntryL2 fastBus (fun r => 8 * r)
    (by decide) ⟨_, hs⟩
  refine ⟨s, hs, hpend, (hfills 0).1.mp ⟨0, ?_, rfl⟩⟩
  rw [hpend]
  exact List.mem_cons_self

/-- When the instruction cache and the memory system are at rest, and no transaction is asleep in
`biu_req_queue_`, every request of Fetch has been answered with one hit and one credit, and the
instruction cache and Fetch have all their credits. -/
theorem fetch_at_rest_has_answered (pi : ICacheParams) (p : L2Params) (q : BusParams)
    (addr : ℕ → ℕ) (hsize : p.reqQueueSize .icache < 2 ^ 32) (hpos : 0 < p.reqQueueSize .icache)
    {s : InstMemory pi p q} (h : Run.Reachable (InstMemory.step addr) {} s) (R : s.AtRest)
    (hbiu : s.mem.l2.l2.biuReqQueue = []) :
    s.icache.ic.l2cacheCredits = p.reqQueueSize .icache ∧
    s.icache.creditsIcache = ICacheParams.fetchQueueSize ∧
    ∀ r < s.icache.requested, s.icache.returned.count r = 1 ∧
      (s.icache.seen r = [.hit] ∨ s.icache.seen r = [.miss, .hit]) := by
  obtain ⟨H, -⟩ := joined_of_reachable hsize h
  exact ⟨(R.icache H hbiu).2, R.answered H hpos hbiu⟩

theorem fetch_at_rest_has_answered_sample :
    ∃ s, fetchedOps.foldlM (InstMemory.step (fun r => 8 * r))
        ({} : InstMemory smallICache twoEntryL2 fastBus) = .ok s ∧
      s.icache.requested = 2 ∧ s.icache.returned.count 1 = 1 := by
  have heval : (fetchedOps.foldlM (InstMemory.step (fun r => 8 * r))
      ({} : InstMemory smallICache twoEntryL2 fastBus)).toOption.map
        (fun s => (s.icache.requested, decide s.AtRest, s.mem.l2.l2.biuReqQueue)) =
          some (2, true, []) := by
    decide +kernel
  obtain ⟨s, hs, hval⟩ := Run.ok_of_eval heval
  simp only [Prod.mk.injEq] at hval
  obtain ⟨hrequested, hrest, hbiu⟩ := hval
  obtain ⟨-, -, hanswered⟩ := fetch_at_rest_has_answered smallICache twoEntryL2 fastBus
    (fun r => 8 * r) (by decide) (by decide) ⟨_, hs⟩ (of_decide_eq_true hrest) hbiu
  exact ⟨s, hs, hrequested, (hanswered 1 (by omega)).1⟩

end Olympia
