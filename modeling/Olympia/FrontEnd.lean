import Olympia.FetchEvent
import Olympia.InstMemory

/-!
# The front end

Fetch with its events, the instruction cache, the L2 cache, the BIU and the MSS, connected as
`CPUTopology.cpp` connects them, with any data cache, any Decode and any flushes.

Each unit runs as it does alone: a run of all is a run of Fetch among some cache, and a run of the
instruction memory under some Fetch (`FrontEnd.Joined`).  So what has been proved with any
surroundings holds here.  Together the two say that nothing is lost on the way from the trace to
Decode: when everything is at rest, Fetch has sent all that the generator returns, unless it waits
for a credit of Decode (`front_end_at_rest_has_sent`).
-/

namespace Olympia

/-- The steps of the instruction cache in which Fetch has a part. -/
def ICacheOp.ofFetch : ICacheOp → Bool
  | .fetchReq | .respArrives | .creditArrives => true
  | _ => false

def InstMemoryOp.ofFetch : InstMemoryOp → Bool
  | .icache op => op.ofFetch
  | _ => false

/-- Without Fetch nothing of it changes. -/
theorem ICacheSystem.step_still {pi : ICacheParams} {addr : ℕ → ℕ} {s s' : ICacheSystem pi}
    {op : ICacheOp} (hop : op.ofFetch = false) (h : s.step addr op = .ok s') :
    s'.received = s.received ∧ s'.creditsIcache = s.creditsIcache ∧
      s'.requested = s.requested := by
  obtain ⟨-, -, h⟩ := step_eq_ok.mp h
  cases op with
  | fetchReq => cases hop
  | respArrives => cases hop
  | creditArrives => cases hop
  | reqArrives =>
    rcases hm : Port.front s.reqs s.now with _ | ⟨r, rest⟩
    · simp only [handle, hm] at h
      obtain rfl := Except.ok.inj h
      exact ⟨rfl, rfl, rfl⟩
    · simp only [handle, hm] at h
      obtain rfl := Except.ok.inj h
      exact ⟨rfl, rfl, rfl⟩
  | l2Resp i c =>
    rcases hm : s.atL2[i]? with _ | m
    · simp only [handle, hm] at h
      obtain rfl := Except.ok.inj h
      exact ⟨rfl, rfl, rfl⟩
    · simp only [handle, hm] at h
      obtain rfl := Except.ok.inj h
      exact ⟨rfl, rfl, rfl⟩
  | arbitrate =>
    obtain ⟨out, -, h⟩ := Run.bind_eq_ok.mp h
    obtain rfl := Except.ok.inj h
    exact ⟨rfl, rfl, rfl⟩
  | respond =>
    rcases hm : Port.front s.ic.evRespond s.now with _ | ⟨r, rest⟩
    · simp only [handle, hm] at h
      obtain rfl := Except.ok.inj h
      exact ⟨rfl, rfl, rfl⟩
    · simp only [handle, hm] at h
      obtain rfl := Except.ok.inj h
      exact ⟨rfl, rfl, rfl⟩
  | replayReady =>
    rcases hm : Port.front s.ic.evReplayReady s.now with _ | ⟨r, rest⟩
    · simp only [handle, hm] at h
      obtain rfl := Except.ok.inj h
      exact ⟨rfl, rfl, rfl⟩
    · simp only [handle, hm] at h
      obtain rfl := Except.ok.inj h
      exact ⟨rfl, rfl, rfl⟩
  | l2Credits ack =>
    obtain rfl := Except.ok.inj h
    exact ⟨rfl, rfl, rfl⟩
  | l2Request =>
    obtain rfl := Except.ok.inj h
    exact ⟨rfl, rfl, rfl⟩
  | tick =>
    obtain rfl := Except.ok.inj h
    exact ⟨rfl, rfl, rfl⟩
  | nextCycle =>
    obtain rfl := Except.ok.inj h
    exact ⟨rfl, rfl, rfl⟩

theorem InstMemory.step_still {pi : ICacheParams} {p : L2Params} {q : BusParams} {addr : ℕ → ℕ}
    {s s' : InstMemory pi p q} {op : InstMemoryOp} (hop : op.ofFetch = false)
    (h : s.step addr op = .ok s') :
    s'.icache.received = s.icache.received ∧ s'.icache.creditsIcache = s.icache.creditsIcache ∧
      s'.icache.requested = s.icache.requested := by
  cases op with
  | icache op =>
    obtain ⟨-, -, h⟩ := Run.bind_eq_ok.mp h
    obtain ⟨icache, hstep, h⟩ := Run.bind_eq_ok.mp h
    obtain rfl := Except.ok.inj h
    exact ICacheSystem.step_still hop hstep
  | mem op =>
    obtain ⟨-, -, h⟩ := Run.bind_eq_ok.mp h
    obtain ⟨mem, -, h⟩ := Run.bind_eq_ok.mp h
    obtain rfl := Except.ok.inj h
    exact ⟨rfl, rfl, rfl⟩
  | reqArrives =>
    obtain ⟨-, -, h⟩ := Run.bind_eq_ok.mp h
    split at h
    · cases h
    · obtain ⟨l2, -, h⟩ := Run.bind_eq_ok.mp (checked_eq_ok.mp h)
      obtain rfl := Except.ok.inj h
      exact ⟨rfl, rfl, rfl⟩
  | respArrives =>
    obtain ⟨-, -, h⟩ := Run.bind_eq_ok.mp h
    split at h
    · cases h
    · obtain rfl := Except.ok.inj h
      exact ⟨rfl, rfl, rfl⟩
  | creditsArrive =>
    obtain ⟨-, -, h⟩ := Run.bind_eq_ok.mp h
    split at h
    · cases h
    · obtain rfl := Except.ok.inj h
      exact ⟨rfl, rfl, rfl⟩
  | tick =>
    obtain ⟨-, -, h⟩ := Run.bind_eq_ok.mp h
    obtain ⟨icache, hstep, h⟩ := Run.bind_eq_ok.mp h
    obtain ⟨mem, -, h⟩ := Run.bind_eq_ok.mp h
    obtain rfl := Except.ok.inj h
    exact ICacheSystem.step_still rfl hstep
  | postTick =>
    obtain ⟨-, -, h⟩ := Run.bind_eq_ok.mp h
    obtain ⟨mem, -, h⟩ := Run.bind_eq_ok.mp h
    obtain rfl := Except.ok.inj h
    exact ⟨rfl, rfl, rfl⟩
  | nextCycle =>
    obtain ⟨icache, hstep, h⟩ := Run.bind_eq_ok.mp h
    obtain ⟨mem, -, h⟩ := Run.bind_eq_ok.mp h
    obtain rfl := Except.ok.inj h
    exact ICacheSystem.step_still rfl hstep

/-! ### The steps in which Fetch has a part -/

namespace InstMemory

variable {pi : ICacheParams} {p : L2Params} {q : BusParams} {addr : ℕ → ℕ}
  {s s' : InstMemory pi p q}

theorem step_icache {op : ICacheOp} (h : s.step addr (.icache op) = .ok s') :
    s.icache.handle addr op = .ok s'.icache := by
  obtain ⟨-, -, h⟩ := Run.bind_eq_ok.mp h
  obtain ⟨icache, hstep, h⟩ := Run.bind_eq_ok.mp h
  obtain rfl := Except.ok.inj h
  exact (ICacheSystem.step_eq_ok.mp hstep).2.2

theorem step_fetchReq (h : s.step addr (.icache .fetchReq) = .ok s') :
    s'.icache.received = s.icache.received ∧
      s'.icache.creditsIcache = u32Sub s.icache.creditsIcache 1 ∧
      s'.icache.requested = s.icache.requested + 1 := by
  have hicache := Except.ok.inj (step_icache h)
  rw [← hicache]
  exact ⟨rfl, rfl, rfl⟩

theorem step_respArrives {r : ℕ} {rest : List (Arrival ℕ)}
    (hfront : Port.front s.icache.resps s.icache.now = some (r, rest))
    (h : s.step addr (.icache .respArrives) = .ok s') :
    s'.icache.received = s.icache.received ++ [(r, s.icache.ic.objs r)] ∧
      s'.icache.creditsIcache = s.icache.creditsIcache ∧
      s'.icache.requested = s.icache.requested := by
  have hhandle := step_icache h
  simp only [ICacheSystem.handle, hfront] at hhandle
  have hicache := Except.ok.inj hhandle
  rw [← hicache]
  exact ⟨rfl, rfl, rfl⟩

theorem step_creditArrives {n : ℕ} {rest : List ℕ} (hcredits : s.icache.credits = n :: rest)
    (h : s.step addr (.icache .creditArrives) = .ok s') :
    s'.icache.received = s.icache.received ∧
      s'.icache.creditsIcache = u32Add s.icache.creditsIcache n ∧
      s'.icache.requested = s.icache.requested := by
  have hhandle := step_icache h
  simp only [ICacheSystem.handle, hcredits] at hhandle
  have hicache := Except.ok.inj hhandle
  rw [← hicache]
  exact ⟨rfl, rfl, rfl⟩

end InstMemory

/-! ## The system -/

structure FrontEnd (pi : ICacheParams) (p : L2Params) (q : BusParams) where
  unit : FetchUnit
  memory : InstMemory pi p q := {}

inductive FrontEndOp where
  | fetch
  | send
  /-- credits of Decode arrive -/
  | credits (n : ℕ)
  /-- an answer arrives at Fetch -/
  | respArrives
  /-- a credit of the instruction cache arrives -/
  | creditArrives
  /-- `flushFetch_`, and what the generator returns after its reset -/
  | flush (trace : List FetchEntry)
  | memory (op : InstMemoryOp)
  | postTick
  | nextCycle

namespace FrontEnd

variable {pi : ICacheParams} {p : L2Params} {q : BusParams} {fp : FetchParams} {addr : ℕ → ℕ}

def init (trace : List FetchEntry) : FrontEnd pi p q := { unit := .init trace }

/-- The next request is for the address of the first instruction in `ibuf_`: `addr` gives the
addresses of the requests in their order. -/
def addressed (fp : FetchParams) (addr : ℕ → ℕ) (s : FrontEnd pi p q) : Bool :=
  (Fetch.refilled fp s.unit.fetch s.unit.trace).head?.map FetchEntry.pc =
    some (addr s.memory.icache.requested)

def step (fp : FetchParams) (addr : ℕ → ℕ) (s : FrontEnd pi p q) :
    FrontEndOp → Except Stop (FrontEnd pi p q)
  | .fetch => do
    enabled (s.memory.mem.l2.phase = .tick)
    let unit ← s.unit.step fp .fetch
    if Fetch.requests fp s.unit.fetch s.unit.trace then do
      enabled (s.addressed fp addr)
      let memory ← s.memory.step addr (.icache .fetchReq)
      return ⟨unit, memory⟩
    else return { s with unit := unit }
  | .send => do
    enabled (s.memory.mem.l2.phase = .tick)
    let unit ← s.unit.step fp .send
    return { s with unit := unit }
  | .credits n => do
    enabled (s.memory.mem.l2.phase = .tick)
    let unit ← s.unit.step fp (.credits n)
    return { s with unit := unit }
  | .respArrives =>
    match Port.front s.memory.icache.resps s.memory.icache.now with
    | none => .error .disabled
    | some (r, _) => do
      let memory ← s.memory.step addr (.icache .respArrives)
      let unit ← s.unit.step fp (.cacheResponse r (s.memory.icache.ic.objs r = .hit))
      return ⟨unit, memory⟩
  | .creditArrives =>
    match s.memory.icache.credits with
    | [] => .error .disabled
    | n :: _ => do
      let memory ← s.memory.step addr (.icache .creditArrives)
      let unit ← s.unit.step fp (.cacheCredit n)
      return ⟨unit, memory⟩
  | .flush trace => do
    -- the port to the cache is empty: what was sent in the cycle before has arrived
    enabled (s.memory.mem.l2.phase = .portUpdate ∧
      Port.quiet s.memory.icache.reqs s.memory.icache.now)
    let unit ← s.unit.step fp (.flush trace)
    return { s with unit := unit }
  | .memory op => do
    enabled (!op.ofFetch && op ≠ .postTick && op ≠ .nextCycle)
    let memory ← s.memory.step addr op
    return { s with memory := memory }
  | .postTick => do
    enabled (!s.unit.evFetch.now && !s.unit.evSend.now)
    let memory ← s.memory.step addr .postTick
    return { s with memory := memory }
  | .nextCycle => do
    let memory ← s.memory.step addr .nextCycle
    let unit ← s.unit.step fp .nextCycle
    return ⟨unit, memory⟩

variable {s s' : FrontEnd pi p q} {op : FrontEndOp} {trace : List FetchEntry}

/-- What every step keeps. -/
structure Joined (fp : FetchParams) (addr : ℕ → ℕ) (trace : List FetchEntry)
    (s : FrontEnd pi p q) : Prop where
  unit : Run.Reachable (FetchUnit.step fp) (FetchUnit.init trace) s.unit
  memory : Run.Reachable (InstMemory.step addr) {} s.memory
  credits : s.unit.fetch.creditsIcache = s.memory.icache.creditsIcache
  requested : s.unit.groups.length = s.memory.icache.requested
  /-- what the cache has answered with a hit is marked -/
  fetched : ∀ r group, s.unit.groups[r]? = some group → .hit ∈ s.memory.icache.seen r →
    ∀ i ∈ group, s.unit.table.status i.key = .fetched

namespace Joined

theorem init : Joined fp addr trace (init trace : FrontEnd pi p q) :=
  ⟨⟨[], rfl⟩, ⟨[], rfl⟩, rfl, rfl, fun _ _ hgroup => (by cases hgroup)⟩

/-- A step of Fetch that leaves the requests and the statuses alone. -/
theorem of_unit {uop : FetchUnitOp} {u : FetchUnit} (J : Joined fp addr trace s)
    (hu : s.unit.step fp uop = .ok u)
    (hcredits : u.fetch.creditsIcache = s.unit.fetch.creditsIcache)
    (hgroups : u.groups = s.unit.groups) (htable : u.table = s.unit.table) :
    Joined fp addr trace { s with unit := u } := by
  refine ⟨J.unit.step hu, J.memory, hcredits.trans J.credits, ?_, ?_⟩
  · rw [hgroups]
    exact J.requested
  · rw [hgroups, htable]
    exact J.fetched

/-- A step of the memory in which Fetch has no part. -/
theorem of_memory {mop : InstMemoryOp} {m : InstMemory pi p q} (J : Joined fp addr trace s)
    (hop : mop.ofFetch = false) (hm : s.memory.step addr mop = .ok m) :
    Joined fp addr trace { s with memory := m } := by
  obtain ⟨hreceived, hcredits, hrequested⟩ := InstMemory.step_still hop hm
  refine ⟨J.unit, J.memory.step hm, J.credits.trans hcredits.symm,
    J.requested.trans hrequested.symm, fun r group hgroup hhit => J.fetched r group hgroup ?_⟩
  rw [ICacheSystem.seen, hreceived] at hhit
  exact hhit

/-- Fetch requests a block. -/
theorem of_request {u : FetchUnit} {m : InstMemory pi p q} (J : Joined fp addr trace s)
    (hsize : p.reqQueueSize .icache < 2 ^ 32) (hu : s.unit.step fp .fetch = .ok u)
    (hm : s.memory.step addr (.icache .fetchReq) = .ok m)
    (hreq : Fetch.requests fp s.unit.fetch s.unit.trace = true) :
    Joined fp addr trace ⟨u, m⟩ := by
  have hsound := ICacheSystem.Sound.of_reachable
    (InstMemory.joined_of_reachable hsize J.memory).1.icache
  obtain ⟨hreceived, hmcredits, hrequested⟩ := InstMemory.step_fetchReq hm
  have hhandle := (FetchUnit.step_eq_ok.mp hu).2
  have htable : u.table = s.unit.table := by
    rw [← hhandle]
    rfl
  rcases FetchUnit.handle_fetch fp s.unit (congrArg FetchUnit.fetch hhandle) with ⟨hno, -⟩ |
    ⟨-, block, -, -, -, hcredits, hgroups⟩
  · rw [hno] at hreq
    cases hreq
  · rw [hhandle] at hgroups
    refine ⟨J.unit.step hu, J.memory.step hm, ?_, ?_, fun r group hgroup hhit => ?_⟩
    · rw [hcredits, hmcredits, J.credits]
    · rw [hgroups, hrequested, ← J.requested, List.length_append, List.length_singleton]
    · rw [ICacheSystem.seen, hreceived] at hhit
      have hlt : r < s.unit.groups.length := by
        have hreturned := (ICacheSystem.seen_cases hsound.placed hsound.voiced r).2 hhit
        have hmem := hsound.placed.places.subset (List.mem_append_left _ hreturned)
        rw [J.requested]
        exact List.mem_range.mp hmem
      rw [hgroups, List.getElem?_append_left hlt] at hgroup
      rw [htable]
      exact J.fetched r group hgroup hhit

/-- An answer arrives at Fetch. -/
theorem of_response {u : FetchUnit} {m : InstMemory pi p q} {r : ℕ} {rest : List (Arrival ℕ)}
    (J : Joined fp addr trace s)
    (hfront : Port.front s.memory.icache.resps s.memory.icache.now = some (r, rest))
    (hm : s.memory.step addr (.icache .respArrives) = .ok m)
    (hu : s.unit.step fp (.cacheResponse r (s.memory.icache.ic.objs r = .hit)) = .ok u) :
    Joined fp addr trace ⟨u, m⟩ := by
  obtain ⟨hreceived, hcredits, hrequested⟩ := InstMemory.step_respArrives hfront hm
  have hhandle := (FetchUnit.step_eq_ok.mp hu).2
  have hfetch : u.fetch = s.unit.fetch := by
    rw [← hhandle]
    rfl
  have hgroups : u.groups = s.unit.groups := by
    rw [← hhandle]
    rfl
  have htable : u.table = Fetch.receiveCacheResponse s.unit.table
      (s.unit.groups[r]?.getD []) (s.memory.icache.ic.objs r = .hit) := by
    rw [← hhandle]
    rfl
  refine ⟨J.unit.step hu, J.memory.step hm, ?_, ?_, fun r' group hgroup hhit i hi => ?_⟩
  · rw [hfetch, hcredits]
    exact J.credits
  · rw [hgroups, hrequested]
    exact J.requested
  · rw [hgroups] at hgroup
    rw [ICacheSystem.seen, hreceived, List.filter_append, List.map_append] at hhit
    rw [htable]
    rcases List.mem_append.mp hhit with hold | hnew
    · have hstatus := J.fetched r' group hgroup hold i hi
      unfold Fetch.receiveCacheResponse
      split
      · show (if _ then _ else _) = _
        rw [hstatus, ite_self]
      · exact hstatus
    · -- the answer is a hit of this request
      obtain ⟨x, hx, hxhit⟩ := List.mem_map.mp hnew
      obtain ⟨hx, hxr⟩ := List.mem_filter.mp hx
      obtain rfl := List.mem_singleton.mp hx
      obtain rfl := of_decide_eq_true hxr
      have hgroup : s.unit.groups[r]? = some group := hgroup
      have hhit : s.memory.icache.ic.objs r = .hit := hxhit
      simp only [Fetch.receiveCacheResponse, hhit, decide_true, if_true, hgroup, Option.getD_some]
      exact if_pos (List.mem_map_of_mem hi)

/-- A credit of the instruction cache arrives. -/
theorem of_credit {u : FetchUnit} {m : InstMemory pi p q} {n : ℕ} {rest : List ℕ}
    (J : Joined fp addr trace s) (hfront : s.memory.icache.credits = n :: rest)
    (hm : s.memory.step addr (.icache .creditArrives) = .ok m)
    (hu : s.unit.step fp (.cacheCredit n) = .ok u) : Joined fp addr trace ⟨u, m⟩ := by
  obtain ⟨hreceived, hcredits, hrequested⟩ := InstMemory.step_creditArrives hfront hm
  have hhandle := (FetchUnit.step_eq_ok.mp hu).2
  refine ⟨J.unit.step hu, J.memory.step hm, ?_, ?_, fun r group hgroup hhit => ?_⟩
  · rw [hcredits, ← J.credits, ← hhandle]
    rfl
  · rw [hrequested, ← J.requested, ← hhandle]
    rfl
  · rw [ICacheSystem.seen, hreceived] at hhit
    rw [← hhandle] at hgroup ⊢
    exact J.fetched r group hgroup hhit

theorem step (J : Joined fp addr trace s) (hsize : p.reqQueueSize .icache < 2 ^ 32)
    (h : s.step fp addr op = .ok s') : Joined fp addr trace s' := by
  cases op with
  | fetch =>
    obtain ⟨-, -, h⟩ := Run.bind_eq_ok.mp h
    obtain ⟨u, hu, h⟩ := Run.bind_eq_ok.mp h
    split at h
    · rename_i hreq
      obtain ⟨-, -, h⟩ := Run.bind_eq_ok.mp h
      obtain ⟨m, hm, h⟩ := Run.bind_eq_ok.mp h
      obtain rfl := Except.ok.inj h
      exact J.of_request hsize hu hm hreq
    · rename_i hno
      obtain rfl := Except.ok.inj h
      have hhandle := (FetchUnit.step_eq_ok.mp hu).2
      rcases FetchUnit.handle_fetch fp s.unit (congrArg FetchUnit.fetch hhandle) with
        ⟨-, -, -, hcredits, hgroups⟩ | ⟨hreq, -⟩
      · rw [hhandle] at hgroups
        exact J.of_unit hu hcredits hgroups (hhandle ▸ rfl)
      · exact absurd hreq hno
  | send =>
    obtain ⟨-, -, h⟩ := Run.bind_eq_ok.mp h
    obtain ⟨u, hu, h⟩ := Run.bind_eq_ok.mp h
    obtain rfl := Except.ok.inj h
    have hhandle := (FetchUnit.step_eq_ok.mp hu).2
    obtain ⟨-, hcredits, -⟩ :=
      FetchUnit.handle_send fp s.unit (congrArg FetchUnit.fetch hhandle)
    exact J.of_unit hu hcredits (hhandle ▸ rfl) (hhandle ▸ rfl)
  | credits n =>
    obtain ⟨-, -, h⟩ := Run.bind_eq_ok.mp h
    obtain ⟨u, hu, h⟩ := Run.bind_eq_ok.mp h
    obtain rfl := Except.ok.inj h
    have hhandle := (FetchUnit.step_eq_ok.mp hu).2
    exact J.of_unit hu (hhandle ▸ rfl) (hhandle ▸ rfl) (hhandle ▸ rfl)
  | respArrives =>
    rcases hfront : Port.front s.memory.icache.resps s.memory.icache.now with _ | ⟨r, rest⟩
    · simp only [FrontEnd.step, hfront] at h
      cases h
    · simp only [FrontEnd.step, hfront] at h
      obtain ⟨m, hm, h⟩ := Run.bind_eq_ok.mp h
      obtain ⟨u, hu, h⟩ := Run.bind_eq_ok.mp h
      obtain rfl := Except.ok.inj h
      exact J.of_response hfront hm hu
  | creditArrives =>
    rcases hfront : s.memory.icache.credits with _ | ⟨n, rest⟩
    · simp only [FrontEnd.step, hfront] at h
      cases h
    · simp only [FrontEnd.step, hfront] at h
      obtain ⟨m, hm, h⟩ := Run.bind_eq_ok.mp h
      obtain ⟨u, hu, h⟩ := Run.bind_eq_ok.mp h
      obtain rfl := Except.ok.inj h
      exact J.of_credit hfront hm hu
  | flush trace' =>
    obtain ⟨-, -, h⟩ := Run.bind_eq_ok.mp h
    obtain ⟨u, hu, h⟩ := Run.bind_eq_ok.mp h
    obtain rfl := Except.ok.inj h
    have hhandle := (FetchUnit.step_eq_ok.mp hu).2
    exact J.of_unit hu (hhandle ▸ rfl) (hhandle ▸ rfl) (hhandle ▸ rfl)
  | memory mop =>
    obtain ⟨x, hen, h⟩ := Run.bind_eq_ok.mp h
    obtain ⟨m, hm, h⟩ := Run.bind_eq_ok.mp h
    obtain rfl := Except.ok.inj h
    have hop := enabled_eq_ok.mp hen
    simp only [Bool.and_eq_true, Bool.not_eq_true'] at hop
    exact J.of_memory hop.1.1 hm
  | postTick =>
    obtain ⟨-, -, h⟩ := Run.bind_eq_ok.mp h
    obtain ⟨m, hm, h⟩ := Run.bind_eq_ok.mp h
    obtain rfl := Except.ok.inj h
    exact J.of_memory rfl hm
  | nextCycle =>
    obtain ⟨m, hm, h⟩ := Run.bind_eq_ok.mp h
    obtain ⟨u, hu, h⟩ := Run.bind_eq_ok.mp h
    obtain rfl := Except.ok.inj h
    have hhandle := (FetchUnit.step_eq_ok.mp hu).2
    exact (J.of_memory rfl hm).of_unit hu (hhandle ▸ rfl) (hhandle ▸ rfl) (hhandle ▸ rfl)

end Joined

/-- No event of Fetch is scheduled, none has missed its wakeup, and the memory is at rest. -/
structure AtRest (s : FrontEnd pi p q) : Prop where
  events : ¬s.unit.evFetch.Awake ∧ ¬s.unit.evSend.Awake
  memory : s.memory.AtRest

instance (s : FrontEnd pi p q) : Decidable s.AtRest :=
  decidable_of_iff ((¬s.unit.evFetch.Awake ∧ ¬s.unit.evSend.Awake) ∧ s.memory.AtRest)
    ⟨fun h => ⟨h.1, h.2⟩, fun h => ⟨h.events, h.memory⟩⟩

theorem joined_of_reachable (hsize : p.reqQueueSize .icache < 2 ^ 32)
    (h : Run.Reachable (step fp addr) (FrontEnd.init trace) s) : Joined fp addr trace s :=
  h.invariant .init fun _ _ _ J hstep => J.step hsize hstep

end FrontEnd

/-- Nothing is lost between the trace and Decode.  In every state that Fetch, the instruction
cache, the L2 cache, the BIU and the MSS reach, with any data cache, any Decode and any flushes:
when everything is at rest, no transaction is asleep in `biu_req_queue_` and Fetch has a credit of
Decode, Fetch has sent to Decode all that the generator returns since the last flush, once and in
its order. -/
theorem front_end_at_rest_has_sent (pi : ICacheParams) (p : L2Params) (q : BusParams)
    (fp : FetchParams) (addr : ℕ → ℕ) (hsize : p.reqQueueSize .icache < 2 ^ 32)
    (hpos : 0 < p.reqQueueSize .icache) (hnum : 0 < fp.numToFetch) (hcap : 0 < fp.ibufCapacity)
    {trace : List FetchEntry} (htrace : Returned 0 trace) {s : FrontEnd pi p q}
    (h : Run.Reachable (FrontEnd.step fp addr) (FrontEnd.init trace) s) (R : s.AtRest)
    (hbiu : s.memory.mem.l2.l2.biuReqQueue = []) (hcredit : s.unit.fetch.creditsInstQueue ≠ 0) :
    s.unit.sent = FetchSystem.asSent (s.unit.program.map FetchEntry.inst) := by
  have J := FrontEnd.joined_of_reachable hsize h
  obtain ⟨H, W⟩ := FetchUnit.of_reachable hnum hcap htrace J.unit
  obtain ⟨I, -⟩ := InstMemory.joined_of_reachable hsize J.memory
  have S := ICacheSystem.Sound.of_reachable I.icache
  obtain ⟨hrest, hl2⟩ := R.memory.icache I hbiu
  have hne : s.memory.icache.ic.l2cacheCredits ≠ 0 := by omega
  have hempty : s.unit.fetch.fetchBuffer = [] := by
    rcases hbuf : s.unit.fetch.fetchBuffer with _ | ⟨e, rest⟩
    · rfl
    · -- the front has been requested, so answered with a hit, and nothing wakes `ev_send_insts`
      have hmem := H.buffer e (by rw [hbuf]; exact List.mem_cons_self)
      obtain ⟨group, hgroup, he⟩ := List.mem_flatten.mp hmem
      obtain ⟨r, hr⟩ := List.mem_iff_getElem?.mp hgroup
      obtain ⟨hlt, -⟩ := List.getElem?_eq_some_iff.mp hr
      rw [J.requested] at hlt
      have hseen := (hrest.answered I.icache hne hlt).2
      have hhit : CacheState.hit ∈ s.memory.icache.seen r := by
        rcases hseen with hseen | hseen
        · simp [hseen]
        · simp [hseen]
      have hfetched := J.fetched r group hr hhit _ he
      exact absurd (W.send e (by rw [hbuf]; rfl) hfetched hcredit) R.events.2
  have hcredits : s.unit.fetch.creditsIcache ≠ 0 := by
    have hheld := hrest.held_eq_nil S (ICacheSystem.Awake.of_reachable I.icache) hne
    have hsum := S.placed.credits
    rw [hheld, hrest.credits] at hsum
    rw [J.credits]
    simp only [List.sum_nil, List.length_nil, Nat.add_zero] at hsum
    rw [hsum]
    decide
  have hnone : s.unit.fetch.ibuf = [] ∧ s.unit.trace = [] := by
    by_contra hmore
    exact R.events.1 (W.fetch hempty hcredits hmore)
  have hstream := H.stream
  rw [FetchUnit.toSend, hempty, hnone.1, hnone.2] at hstream
  simpa [FetchSystem.asSent] using hstream

/-- A cycle: what arrives, the memory and Fetch in the tick phase, and what follows it. -/
def frontEndCycle (arrive tick : List InstMemoryOp) (fetch : List FrontEndOp)
    (post : List InstMemoryOp) : List FrontEndOp :=
  arrive.map .memory ++ .memory .tick :: tick.map .memory ++ fetch ++ [.fetch, .send] ++
    .postTick :: post.map .memory ++ [.nextCycle]

/-- Three instructions in two blocks: both blocks miss in both caches, and what the memory returns
is replayed. -/
def branchTraceOps : List FrontEndOp :=
  frontEndCycle [] [] [.credits 4, .creditArrives] [] ++
  frontEndCycle [.mem .creditsArrive, .creditsArrive, .icache .reqArrives] [.icache .arbitrate]
    [] [] ++
  frontEndCycle [.reqArrives, .icache .reqArrives]
    [.icache .respond, .icache .arbitrate, .mem (.l2 (.handleReq .icache))] []
    [.mem (.l2 .createReq), .mem (.l2 .issueReq)] ++
  frontEndCycle [.reqArrives]
    [.icache .respond, .mem (.l2 (.handleReq .icache)), .mem (.l2 .lookup)] [.respArrives]
    [.mem (.l2 .createReq), .mem (.l2 .issueReq)] ++
  frontEndCycle [.creditsArrive] [.mem (.l2 .result), .mem (.l2 .handleBiuReq)] [.respArrives]
    [.mem (.l2 .createReq), .mem (.l2 .issueReq)] ++
  frontEndCycle [.mem (.bus .reqArrives)] [.mem (.l2 .lookup), .mem (.bus .handleBiuReq)] []
    [.mem (.l2 .issueReq)] ++
  frontEndCycle [.creditsArrive] [.mem (.l2 .result), .mem (.l2 .handleBiuReq)] [] [] ++
  frontEndCycle [.mem (.bus .reqArrives), .mem (.bus .mssReqArrives)] [] [] [] ++
  frontEndCycle [] [.mem (.bus .handleMssReq)] [] [] ++
  frontEndCycle [.mem (.bus .ackArrives)]
    [.mem (.bus .handleMssAck), .mem (.bus .handleBiuReq)] [] [] ++
  frontEndCycle [.mem .creditsArrive] [] [] [] ++
  frontEndCycle [.mem (.bus .mssReqArrives), .mem .respArrives] [.mem (.l2 .handleBiuResp)] []
    [.mem (.l2 .createReq), .mem (.l2 .issueReq)] ++
  frontEndCycle [] [.mem (.l2 .lookup), .mem (.bus .handleMssReq)] [] [.mem (.l2 .issueReq)] ++
  frontEndCycle [.mem (.bus .ackArrives)]
    [.mem (.l2 .result), .mem (.l2 (.handleResp .icache)), .mem (.bus .handleMssAck)] [] [] ++
  frontEndCycle [.mem .creditsArrive, .respArrives] [.icache .arbitrate] [] [] ++
  frontEndCycle [.mem .respArrives]
    [.icache .replayReady, .icache .arbitrate, .mem (.l2 .handleBiuResp)] [.creditArrives]
    [.mem (.l2 .createReq), .mem (.l2 .issueReq)] ++
  frontEndCycle [] [.mem (.l2 .lookup)] [.respArrives] [.mem (.l2 .issueReq)] ++
  frontEndCycle [] [.mem (.l2 .result), .mem (.l2 (.handleResp .icache))] [] [] ++
  frontEndCycle [.respArrives] [.icache .arbitrate] [] [] ++
  frontEndCycle [] [.icache .replayReady, .icache .arbitrate] [.creditArrives] [] ++
  frontEndCycle [] [] [.respArrives] [] ++
  [.memory .tick, .fetch]

theorem front_end_at_rest_has_sent_sample :
    ∃ s, branchTraceOps.foldlM (FrontEnd.step {} (fun r => 16 + 48 * r))
        (FrontEnd.init branchTrace : FrontEnd smallICache twoEntryL2 fastBus) = .ok s ∧
      s.unit.sent.map Inst.uniqueId = [1, 2, 3] := by
  have heval : (branchTraceOps.foldlM (FrontEnd.step {} (fun r => 16 + 48 * r))
      (FrontEnd.init branchTrace : FrontEnd smallICache twoEntryL2 fastBus)).toOption.map
        (fun s => (decide s.AtRest, s.memory.mem.l2.l2.biuReqQueue,
          s.unit.fetch.creditsInstQueue, s.unit.program.map fun e => e.inst.uniqueId)) =
          some (true, [], 1, [1, 2, 3]) := by
    decide +kernel
  obtain ⟨s, hs, hval⟩ := Run.ok_of_eval heval
  simp only [Prod.mk.injEq] at hval
  obtain ⟨hrest, hbiu, hcredits, hprogram⟩ := hval
  have hsent := front_end_at_rest_has_sent smallICache twoEntryL2 fastBus {}
    (fun r => 16 + 48 * r) (by decide) (by decide) (by decide) (by decide) (by decide) ⟨_, hs⟩
    (of_decide_eq_true hrest) hbiu (by omega)
  refine ⟨s, hs, ?_⟩
  rw [hsent, FetchSystem.asSent, List.map_map, List.map_map]
  exact hprogram

end Olympia
