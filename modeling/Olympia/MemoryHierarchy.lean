import Olympia.DataMemory

/-!
# The memory hierarchy

Both first-level caches with the L2 cache, the BIU and the MSS, connected as `CPUTopology.cpp`
connects them, with any Fetch that obeys the credit protocol and any LSU.

`InstMemory` leaves the data cache open and `DataMemory` the instruction cache: a request of the
other cache may arrive whenever its queue has an entry for it.  Here each takes the place that the
other one leaves (`MemoryHierarchy.Joined`), so both sides are proved for the whole at once.
-/

namespace Olympia

structure MemoryHierarchy (pi : ICacheParams) (pd : DCacheParams) (p : L2Params)
    (q : BusParams) where
  inst : InstMemory pi p q := {}
  dcache : DCacheSystem pd := {}
  /-- from `out_l2cache_req` of the data cache to `in_dcache_l2cache_req` -/
  reqs : List (Arrival ℕ) := []
  /-- from `out_l2cache_dcache_resp` to `in_l2cache_resp` of the data cache -/
  resps : List (Arrival MemoryRequest) := []

inductive MemoryHierarchyOp where
  /-- a step of the instruction cache, or between it and the L2 cache -/
  | inst (op : InstMemoryOp)
  /-- a step of the data cache, or between it and the L2 cache -/
  | data (op : DataMemoryOp)
  /-- a step of the L2 cache, the BIU or the MSS -/
  | mem (op : MemOp)
  | tick
  | postTick
  | nextCycle
  deriving DecidableEq, Repr

/-- The steps that are not of the memory system or the clock. -/
def InstMemoryOp.own : InstMemoryOp → Bool
  | .icache _ | .reqArrives | .respArrives | .creditsArrive => true
  | _ => false

def DataMemoryOp.own : DataMemoryOp → Bool
  | .dcache _ | .reqArrives | .respArrives => true
  | _ => false

namespace MemoryHierarchy

variable {pi : ICacheParams} {pd : DCacheParams} {p : L2Params} {q : BusParams} {addr : ℕ → ℕ}
  {acc : ℕ → DAccess}

/-- The data cache with the memory system. -/
def data (s : MemoryHierarchy pi pd p q) : DataMemory pd p q :=
  ⟨s.inst.icache.now, s.dcache, s.inst.mem, s.reqs, s.resps⟩

def step (addr : ℕ → ℕ) (acc : ℕ → DAccess) (s : MemoryHierarchy pi pd p q) :
    MemoryHierarchyOp → Except Stop (MemoryHierarchy pi pd p q)
  | .inst op => do
    enabled op.own
    let inst ← s.inst.step addr op
    return { s with inst := inst }
  | .data op => do
    enabled op.own
    let data ← s.data.step acc op
    return ⟨{ s.inst with mem := data.mem }, data.dcache, data.reqs, data.resps⟩
  | .mem op => do
    let inst ← s.inst.step addr (.mem op)
    let data ← s.data.step acc (.mem op)
    return ⟨inst, data.dcache, data.reqs, data.resps⟩
  | .tick => do
    let inst ← s.inst.step addr .tick
    let data ← s.data.step acc .tick
    return ⟨inst, data.dcache, data.reqs, data.resps⟩
  | .postTick => do
    let inst ← s.inst.step addr .postTick
    let data ← s.data.step acc .postTick
    return ⟨inst, data.dcache, data.reqs, data.resps⟩
  | .nextCycle => do
    let inst ← s.inst.step addr .nextCycle
    let data ← s.data.step acc .nextCycle
    return ⟨inst, data.dcache, data.reqs, data.resps⟩

end MemoryHierarchy

/-! ## A run of the whole is a run of each side -/

section

variable {pi : ICacheParams} {pd : DCacheParams} {p : L2Params} {q : BusParams} {addr : ℕ → ℕ}
  {acc : ℕ → DAccess}

/-- A request of the other cache is one that the memory system may get. -/
theorem InstMemory.step_req {s : InstMemory pi p q} {r : MemoryRequest} {mem : MemSystem p q}
    (h : s.mem.step p q (.l2 (.req .dcache r)) = .ok mem) :
    s.step addr (.mem (.l2 (.req .dcache r))) = .ok { s with mem := mem } := by
  refine Run.bind_eq_ok.mpr ⟨(), enabled_eq_ok.mpr rfl, Run.bind_eq_ok.mpr ⟨mem, h, ?_⟩⟩
  simp [MemSystem.answers, L2System.answers, MemSystem.creditsTo, L2System.creditsTo, pure,
    Except.pure]

theorem DataMemory.step_req {s : DataMemory pd p q} {r : MemoryRequest} {mem : MemSystem p q}
    (h : s.mem.step p q (.l2 (.req .icache r)) = .ok mem) :
    s.step acc (.mem (.l2 (.req .icache r))) = .ok { s with mem := mem } := by
  refine Run.bind_eq_ok.mpr ⟨(), enabled_eq_ok.mpr rfl, Run.bind_eq_ok.mpr ⟨mem, h,
    Run.bind_eq_ok.mpr ⟨s.dcache, rfl, ?_⟩⟩⟩
  simp [MemSystem.answers, L2System.answers, pure, Except.pure]

/-- The step of the memory system that is made in a step of both sides. -/
def InstMemoryOp.shared : InstMemoryOp → Option MemOp
  | .mem op => some op
  | .tick => some (.l2 .tick)
  | .postTick => some (.l2 .postTick)
  | .nextCycle => some (.l2 .nextCycle)
  | _ => none

def DataMemoryOp.shared : DataMemoryOp → Option MemOp
  | .mem op => some op
  | .tick => some (.l2 .tick)
  | .postTick => some (.l2 .postTick)
  | .nextCycle => some (.l2 .nextCycle)
  | _ => none

theorem InstMemory.shared_step {s s' : InstMemory pi p q} {op : InstMemoryOp} {mop : MemOp}
    (hop : op.shared = some mop) (h : s.step addr op = .ok s') :
    s.mem.step p q mop = .ok s'.mem ∧
      s'.icache.now = if op = .nextCycle then s.icache.now + 1 else s.icache.now := by
  cases op with
  | mem op =>
    obtain rfl := Option.some.inj hop
    obtain ⟨-, -, h⟩ := Run.bind_eq_ok.mp h
    obtain ⟨mem, hmem, h⟩ := Run.bind_eq_ok.mp h
    obtain rfl := Except.ok.inj h
    exact ⟨hmem, rfl⟩
  | tick =>
    obtain rfl := Option.some.inj hop
    obtain ⟨-, -, h⟩ := Run.bind_eq_ok.mp h
    obtain ⟨ic, hic, h⟩ := Run.bind_eq_ok.mp h
    obtain ⟨mem, hmem, h⟩ := Run.bind_eq_ok.mp h
    obtain rfl := Except.ok.inj h
    obtain rfl := Except.ok.inj (ICacheSystem.step_eq_ok.mp hic).2.2
    exact ⟨hmem, rfl⟩
  | postTick =>
    obtain rfl := Option.some.inj hop
    obtain ⟨-, -, h⟩ := Run.bind_eq_ok.mp h
    obtain ⟨mem, hmem, h⟩ := Run.bind_eq_ok.mp h
    obtain rfl := Except.ok.inj h
    exact ⟨hmem, rfl⟩
  | nextCycle =>
    obtain rfl := Option.some.inj hop
    obtain ⟨ic, hic, h⟩ := Run.bind_eq_ok.mp h
    obtain ⟨mem, hmem, h⟩ := Run.bind_eq_ok.mp h
    obtain rfl := Except.ok.inj h
    obtain rfl := Except.ok.inj (ICacheSystem.step_eq_ok.mp hic).2.2
    exact ⟨hmem, rfl⟩
  | _ => cases hop

theorem DataMemory.shared_step {s s' : DataMemory pd p q} {op : DataMemoryOp} {mop : MemOp}
    (hop : op.shared = some mop) (h : s.step acc op = .ok s') :
    s.mem.step p q mop = .ok s'.mem ∧
      s'.now = if op = .nextCycle then s.now + 1 else s.now := by
  cases op with
  | mem op =>
    obtain rfl := Option.some.inj hop
    obtain ⟨-, -, h⟩ := Run.bind_eq_ok.mp h
    obtain ⟨mem, hmem, h⟩ := Run.bind_eq_ok.mp h
    obtain ⟨dc, -, h⟩ := Run.bind_eq_ok.mp h
    obtain rfl := Except.ok.inj h
    exact ⟨hmem, rfl⟩
  | tick =>
    obtain rfl := Option.some.inj hop
    obtain ⟨-, -, h⟩ := Run.bind_eq_ok.mp h
    obtain ⟨dc, -, h⟩ := Run.bind_eq_ok.mp h
    obtain ⟨mem, hmem, h⟩ := Run.bind_eq_ok.mp h
    obtain rfl := Except.ok.inj h
    exact ⟨hmem, rfl⟩
  | postTick =>
    obtain rfl := Option.some.inj hop
    obtain ⟨dc, -, h⟩ := Run.bind_eq_ok.mp h
    obtain ⟨mem, hmem, h⟩ := Run.bind_eq_ok.mp h
    obtain rfl := Except.ok.inj h
    exact ⟨hmem, rfl⟩
  | nextCycle =>
    obtain rfl := Option.some.inj hop
    obtain ⟨dc, -, h⟩ := Run.bind_eq_ok.mp h
    obtain ⟨mem, hmem, h⟩ := Run.bind_eq_ok.mp h
    obtain rfl := Except.ok.inj h
    exact ⟨hmem, rfl⟩
  | _ => cases hop

/-- What a step of the instruction side does to the memory system. -/
theorem InstMemory.Joined.own_step {s s' : InstMemory pi p q} {op : InstMemoryOp}
    (H : InstMemory.Joined addr s) (hsize : p.reqQueueSize .icache < 2 ^ 32) (hop : op.own = true)
    (h : s.step addr op = .ok s') :
    s'.icache.now = s.icache.now ∧ (s'.mem = s.mem ∨
      ∃ r, s.mem.step p q (.l2 (.req .icache r)) = .ok s'.mem) := by
  cases op with
  | mem op => cases hop
  | tick => cases hop
  | postTick => cases hop
  | nextCycle => cases hop
  | icache op =>
    obtain ⟨u, hen, h⟩ := Run.bind_eq_ok.mp h
    obtain ⟨ic, hic, h⟩ := Run.bind_eq_ok.mp h
    obtain rfl := Except.ok.inj h
    have hcredits := H.credits
    obtain ⟨hnow, -⟩ :=
      ICacheSystem.inner_step (of_decide_eq_true (enabled_eq_ok.mp hen)).1 (by omega) hic
    exact ⟨hnow, .inl rfl⟩
  | reqArrives =>
    obtain ⟨u, hen, h⟩ := Run.bind_eq_ok.mp h
    rcases hfront : Port.front s.reqs s.icache.now with _ | ⟨r, rest⟩
    · simp only [hfront] at h
      cases h
    · obtain ⟨due, -, hreqs⟩ := Port.front_eq_some hfront
      simp only [hfront] at h
      obtain ⟨mem, hok, hstep⟩ := H.getReq_ok (of_decide_eq_true (enabled_eq_ok.mp hen)) hreqs
      obtain rfl := Except.ok.inj (hok.symm.trans (checked_eq_ok.mp h))
      exact ⟨rfl, .inr ⟨_, hstep⟩⟩
  | respArrives =>
    obtain ⟨u, -, h⟩ := Run.bind_eq_ok.mp h
    rcases hfront : Port.front s.resps s.icache.now with _ | ⟨r, rest⟩
    · simp only [hfront] at h
      cases h
    · simp only [hfront] at h
      obtain rfl := Except.ok.inj h
      exact ⟨rfl, .inl rfl⟩
  | creditsArrive =>
    obtain ⟨u, -, h⟩ := Run.bind_eq_ok.mp h
    rcases hfront : Port.front s.credits s.icache.now with _ | ⟨n, rest⟩
    · simp only [hfront] at h
      cases h
    · simp only [hfront] at h
      obtain rfl := Except.ok.inj h
      exact ⟨rfl, .inl rfl⟩

/-- What a step of the data side does to the memory system. -/
theorem DataMemory.Joined.own_step {s s' : DataMemory pd p q} {op : DataMemoryOp}
    (H : DataMemory.Joined acc s) (hpos : 0 < p.reqQueueSize .dcache) (hop : op.own = true)
    (h : s.step acc op = .ok s') :
    s'.now = s.now ∧ (s'.mem = s.mem ∨
      ∃ r, s.mem.step p q (.l2 (.req .dcache r)) = .ok s'.mem) := by
  cases op with
  | mem op => cases hop
  | tick => cases hop
  | postTick => cases hop
  | nextCycle => cases hop
  | dcache op =>
    obtain ⟨u, -, h⟩ := Run.bind_eq_ok.mp h
    obtain ⟨dc, -, h⟩ := Run.bind_eq_ok.mp h
    obtain rfl := Except.ok.inj h
    exact ⟨rfl, .inl rfl⟩
  | reqArrives =>
    obtain ⟨u, hen, h⟩ := Run.bind_eq_ok.mp h
    rcases hfront : Port.front s.reqs s.now with _ | ⟨a, rest⟩
    · simp only [hfront] at h
      cases h
    · obtain ⟨due, -, hreqs⟩ := Port.front_eq_some hfront
      simp only [hfront] at h
      obtain ⟨mem, hok, hstep⟩ :=
        H.getReq_ok hpos (of_decide_eq_true (enabled_eq_ok.mp hen)) hreqs
      obtain rfl := Except.ok.inj (hok.symm.trans (checked_eq_ok.mp h))
      exact ⟨rfl, .inr ⟨_, hstep⟩⟩
  | respArrives =>
    obtain ⟨u, -, h⟩ := Run.bind_eq_ok.mp h
    rcases hfront : Port.front s.resps s.now with _ | ⟨r, rest⟩
    · simp only [hfront] at h
      cases h
    · simp only [hfront] at h
      obtain ⟨dc, -, h⟩ := Run.bind_eq_ok.mp h
      obtain rfl := Except.ok.inj h
      exact ⟨rfl, .inl rfl⟩

end

namespace MemoryHierarchy

variable {pi : ICacheParams} {pd : DCacheParams} {p : L2Params} {q : BusParams} {addr : ℕ → ℕ}
  {acc : ℕ → DAccess} {s s' : MemoryHierarchy pi pd p q} {op : MemoryHierarchyOp}

/-- What every step keeps. -/
structure Joined (addr : ℕ → ℕ) (acc : ℕ → DAccess) (s : MemoryHierarchy pi pd p q) : Prop where
  inst : Run.Reachable (InstMemory.step addr) {} s.inst
  data : Run.Reachable (DataMemory.step acc) {} s.data

namespace Joined

theorem init : Joined addr acc ({} : MemoryHierarchy pi pd p q) := ⟨.refl _ _, .refl _ _⟩

/-- Both sides make a step of the memory system, and agree on it. -/
theorem of_both (J : Joined addr acc s) {iop : InstMemoryOp} {dop : DataMemoryOp} {mop : MemOp}
    {inst : InstMemory pi p q} {data : DataMemory pd p q} (hiop : iop.shared = some mop)
    (hdop : dop.shared = some mop) (hclock : iop = .nextCycle ↔ dop = .nextCycle)
    (hinst : s.inst.step addr iop = .ok inst) (hdata : s.data.step acc dop = .ok data) :
    Joined addr acc ⟨inst, data.dcache, data.reqs, data.resps⟩ := by
  obtain ⟨himem, hinow⟩ := InstMemory.shared_step hiop hinst
  obtain ⟨hdmem, hdnow⟩ := DataMemory.shared_step hdop hdata
  have hmem : data.mem = inst.mem := Except.ok.inj (hdmem.symm.trans himem)
  have hnow : data.now = inst.icache.now := by
    rw [hdnow, hinow, if_congr hclock rfl rfl]
    rfl
  refine ⟨J.inst.step hinst, ?_⟩
  have hsame : MemoryHierarchy.data ⟨inst, data.dcache, data.reqs, data.resps⟩ = data := by
    rw [MemoryHierarchy.data, ← hmem, ← hnow]
  rw [hsame]
  exact J.data.step hdata

/-- A step of the instruction side, in which the data side has at most a request of the other
cache. -/
theorem of_inst (J : Joined addr acc s) (hsize : p.reqQueueSize .icache < 2 ^ 32)
    {iop : InstMemoryOp} {inst : InstMemory pi p q} (hop : iop.own = true)
    (hinst : s.inst.step addr iop = .ok inst) : Joined addr acc { s with inst := inst } := by
  obtain ⟨H, -⟩ := InstMemory.joined_of_reachable hsize J.inst
  obtain ⟨hnow, hmem⟩ := H.own_step hsize hop hinst
  refine ⟨J.inst.step hinst, ?_⟩
  have hsame : MemoryHierarchy.data { s with inst := inst } = { s.data with mem := inst.mem } := by
    rw [MemoryHierarchy.data, hnow]
    rfl
  rw [hsame]
  rcases hmem with hmem | ⟨r, hreq⟩
  · rw [hmem]
    exact J.data
  · exact J.data.step (DataMemory.step_req hreq)

/-- A step of the data side, in which the instruction side has at most a request of the other
cache. -/
theorem of_data (J : Joined addr acc s) (hpos : 0 < p.reqQueueSize .dcache)
    {dop : DataMemoryOp} {data : DataMemory pd p q} (hop : dop.own = true)
    (hdata : s.data.step acc dop = .ok data) :
    Joined addr acc ⟨{ s.inst with mem := data.mem }, data.dcache, data.reqs, data.resps⟩ := by
  have H := DataMemory.joined_of_reachable hpos J.data
  obtain ⟨hnow, hmem⟩ := H.own_step hpos hop hdata
  constructor
  · rcases hmem with hmem | ⟨r, hreq⟩
    · rw [hmem]
      exact J.inst
    · exact J.inst.step (InstMemory.step_req hreq)
  · have hsame : MemoryHierarchy.data (⟨{ s.inst with mem := data.mem }, data.dcache, data.reqs,
        data.resps⟩ : MemoryHierarchy pi pd p q) = data := by
      show (⟨s.data.now, data.dcache, data.mem, data.reqs, data.resps⟩ : DataMemory pd p q) = data
      rw [← hnow]
    rw [hsame]
    exact J.data.step hdata

theorem step (J : Joined addr acc s) (hsize : p.reqQueueSize .icache < 2 ^ 32)
    (hpos : 0 < p.reqQueueSize .dcache) (h : s.step addr acc op = .ok s') :
    Joined addr acc s' := by
  cases op with
  | inst iop =>
    obtain ⟨u, hen, h⟩ := Run.bind_eq_ok.mp h
    obtain ⟨inst, hinst, h⟩ := Run.bind_eq_ok.mp h
    obtain rfl := Except.ok.inj h
    exact J.of_inst hsize (enabled_eq_ok.mp hen) hinst
  | data dop =>
    obtain ⟨u, hen, h⟩ := Run.bind_eq_ok.mp h
    obtain ⟨data, hdata, h⟩ := Run.bind_eq_ok.mp h
    obtain rfl := Except.ok.inj h
    exact J.of_data hpos (enabled_eq_ok.mp hen) hdata
  | mem mop =>
    obtain ⟨inst, hinst, h⟩ := Run.bind_eq_ok.mp h
    obtain ⟨data, hdata, h⟩ := Run.bind_eq_ok.mp h
    obtain rfl := Except.ok.inj h
    exact J.of_both rfl rfl (by simp) hinst hdata
  | _ =>
    obtain ⟨inst, hinst, h⟩ := Run.bind_eq_ok.mp h
    obtain ⟨data, hdata, h⟩ := Run.bind_eq_ok.mp h
    obtain rfl := Except.ok.inj h
    exact J.of_both rfl rfl (by decide) hinst hdata

end Joined

theorem joined_of_reachable (hsize : p.reqQueueSize .icache < 2 ^ 32)
    (hpos : 0 < p.reqQueueSize .dcache)
    (h : Run.Reachable (step addr acc) ({} : MemoryHierarchy pi pd p q) s) :
    Joined addr acc s :=
  h.invariant .init fun _ _ _ J hstep => J.step hsize hpos hstep

/-- A step that is not one of the data cache stops only at the assertions on the number of answers
of the BIU. -/
theorem Joined.assertion (J : Joined addr acc s) (hsize : p.reqQueueSize .icache < 2 ^ 32)
    (hpos : 0 < p.reqQueueSize .dcache) (hop : ∀ dop, op ≠ .data (.dcache dop)) {a : Assertion}
    (h : s.step addr acc op = .error (.assertion a)) :
    op = .mem .respArrives ∧ (a = .biuRespQueueOverflow ∨ a = .biuRespNotServiced) := by
  obtain ⟨I, -⟩ := InstMemory.joined_of_reachable hsize J.inst
  have D := DataMemory.joined_of_reachable hpos J.data
  cases op with
  | inst iop =>
    rcases Run.bind_eq_error.mp h with hen | ⟨u, hen, h⟩
    · exact absurd hen enabled_ne_assertion
    rcases Run.bind_eq_error.mp h with h | ⟨inst, -, h⟩
    · obtain ⟨rfl, -⟩ := I.assertion h
      cases enabled_eq_ok.mp hen
    · cases h
  | data dop =>
    rcases Run.bind_eq_error.mp h with hen | ⟨u, hen, h⟩
    · exact absurd hen enabled_ne_assertion
    rcases Run.bind_eq_error.mp h with h | ⟨data, -, h⟩
    · obtain ⟨rfl, -⟩ := D.assertion hpos (fun dop' heq => hop dop' (heq ▸ rfl)) h
      cases enabled_eq_ok.mp hen
    · cases h
  | mem mop =>
    rcases Run.bind_eq_error.mp h with h | ⟨inst, -, h⟩
    · obtain ⟨heq, ha⟩ := I.assertion h
      exact ⟨congrArg _ (InstMemoryOp.mem.inj heq), ha⟩
    rcases Run.bind_eq_error.mp h with h | ⟨data, -, h⟩
    · obtain ⟨heq, ha⟩ := D.assertion hpos (fun _ heq => by cases heq) h
      exact ⟨congrArg _ (DataMemoryOp.mem.inj heq), ha⟩
    · cases h
  | _ =>
    rcases Run.bind_eq_error.mp h with h | ⟨inst, -, h⟩
    · cases (I.assertion h).1
    rcases Run.bind_eq_error.mp h with h | ⟨data, -, h⟩
    · cases (D.assertion hpos (fun _ heq => by cases heq) h).1
    · cases h

/-- Nothing is scheduled in the instruction cache and the memory system, and nothing is on its
way. -/
structure AtRest (s : MemoryHierarchy pi pd p q) : Prop where
  inst : s.inst.AtRest
  ports : s.reqs = [] ∧ s.resps = []

instance (s : MemoryHierarchy pi pd p q) : Decidable s.AtRest :=
  decidable_of_iff (s.inst.AtRest ∧ s.reqs = [] ∧ s.resps = [])
    ⟨fun h => ⟨h.1, h.2⟩, fun h => ⟨h.inst, h.ports⟩⟩

end MemoryHierarchy

/-- In every state that both first-level caches, the L2 cache, the BIU and the MSS reach, with any
Fetch that obeys the credit protocol and any LSU: each side is in a state that it reaches with any
other cache, and outside the data cache only the assertions on the number of answers of the BIU can
fail.  When everything is at rest and no transaction is asleep in `biu_req_queue_`, every request
of Fetch has been answered with one hit, Fetch has its credits back, the data cache waits for no
answer, and if it is idle too, no missing access is left in its MSHR entries. -/
theorem memory_hierarchy_has_answered (pi : ICacheParams) (pd : DCacheParams) (p : L2Params)
    (q : BusParams) (addr : ℕ → ℕ) (acc : ℕ → DAccess) (hsize : p.reqQueueSize .icache < 2 ^ 32)
    (hinst : 0 < p.reqQueueSize .icache) (hdata : 0 < p.reqQueueSize .dcache)
    {s : MemoryHierarchy pi pd p q} (h : Run.Reachable (MemoryHierarchy.step addr acc) {} s) :
    (Run.Reachable (InstMemory.step addr) {} s.inst ∧
      Run.Reachable (DataMemory.step acc) {} s.data) ∧
    (∀ op a, (∀ dop, op ≠ .data (.dcache dop)) →
      s.step addr acc op = .error (.assertion a) →
        op = .mem .respArrives ∧ (a = .biuRespQueueOverflow ∨ a = .biuRespNotServiced)) ∧
    (s.AtRest → s.inst.mem.l2.l2.biuReqQueue = [] →
      (∀ r < s.inst.icache.requested, s.inst.icache.returned.count r = 1 ∧
        (s.inst.icache.seen r = [.hit] ∨ s.inst.icache.seen r = [.miss, .hit])) ∧
      s.inst.icache.creditsIcache = ICacheParams.fetchQueueSize ∧
      s.dcache.dc.l2Busy = false ∧
      (s.dcache.Idle → ∀ e ∈ s.dcache.dc.mshrFile,
        ∃ a, e.memRequest = some a ∧ (s.dcache.dc.objs a).cacheState = .hit)) := by
  have J := MemoryHierarchy.joined_of_reachable hsize hdata h
  refine ⟨⟨J.inst, J.data⟩, fun op a hop => J.assertion hsize hdata hop, fun R hbiu => ?_⟩
  obtain ⟨I, -⟩ := InstMemory.joined_of_reachable hsize J.inst
  have D := DataMemory.joined_of_reachable hdata J.data
  obtain ⟨hcredits, hanswered⟩ := R.inst.answered I hinst hbiu
  have hrest : s.data.AtRest := ⟨R.ports, R.inst.mem⟩
  obtain ⟨-, -, hbusy⟩ := hrest.answered D hbiu
  exact ⟨hanswered, hcredits, hbusy, fun hidle e he =>
    (DCacheSystem.Wakes.of_reachable D.dcache).of_idle
      (DCacheSystem.Tracked.of_reachable D.dcache) hidle hbusy he⟩

/-- A step of one side as a step of the whole. -/
def InstMemoryOp.whole : InstMemoryOp → MemoryHierarchyOp
  | .mem op => .mem op
  | .tick => .tick
  | .postTick => .postTick
  | .nextCycle => .nextCycle
  | op => .inst op

def DataMemoryOp.whole : DataMemoryOp → MemoryHierarchyOp
  | .mem op => .mem op
  | .tick => .tick
  | .postTick => .postTick
  | .nextCycle => .nextCycle
  | op => .data op

/-- A load misses in both caches, when the L2 cache has served the instruction cache. -/
def loadedNextOps : List DataMemoryOp :=
  dataCycle [] [.dcache (.lsuReq 0), .dcache .arbitrate] [] ++
  dataCycle [] [.dcache .lookup, .dcache .mshrRequest] [] ++
  dataCycle [.reqArrives] [.dcache .dataRead, .mem (.l2 (.handleReq .dcache))]
    [.mem (.l2 .createReq)] ++
  dataCycle [] [.dcache .deallocate, .dcache .mshrRequest] [.mem (.l2 .issueReq)] ++
  dataCycle [] [.mem (.l2 .lookup)] [] ++
  dataCycle [] [.mem (.l2 .result), .mem (.l2 .handleBiuReq)] [] ++
  dataCycle [.mem (.bus .reqArrives)] [.mem (.bus .handleBiuReq)] [] ++
  dataCycle [] [] [] ++
  dataCycle [.mem (.bus .mssReqArrives)] [] [] ++
  dataCycle [] [.mem (.bus .handleMssReq)] [] ++
  dataCycle [.mem (.bus .ackArrives)] [.mem (.bus .handleMssAck)] [] ++
  dataCycle [.mem .creditsArrive] [] [] ++
  dataCycle [.mem .respArrives] [.mem (.l2 .handleBiuResp)]
    [.mem (.l2 .createReq), .mem (.l2 .issueReq)] ++
  dataCycle [] [.mem (.l2 .lookup)] [.mem (.l2 .issueReq)] ++
  dataCycle [] [.mem (.l2 .result), .mem (.l2 (.handleResp .dcache))] [] ++
  dataCycle [.respArrives] [.dcache .arbitrate] []

/-- Two fetches of a block, and a load of another one. -/
def fetchedAndLoadedOps : List MemoryHierarchyOp :=
  fetchedOps.map InstMemoryOp.whole ++ [.postTick, .nextCycle] ++
    loadedNextOps.map DataMemoryOp.whole

theorem memory_hierarchy_has_answered_sample :
    ∃ s, fetchedAndLoadedOps.foldlM (MemoryHierarchy.step (fun r => 8 * r) fun _ => ⟨1024, false⟩)
        ({} : MemoryHierarchy smallICache smallDCache twoEntryL2 fastBus) = .ok s ∧
      s.inst.icache.requested = 2 ∧ s.inst.icache.returned.count 1 = 1 ∧
      s.dcache.dc.mshrFile = [] ∧ s.dcache.dc.l2Busy = false := by
  have heval : (fetchedAndLoadedOps.foldlM
      (MemoryHierarchy.step (fun r => 8 * r) fun _ => ⟨1024, false⟩)
      ({} : MemoryHierarchy smallICache smallDCache twoEntryL2 fastBus)).toOption.map
        (fun s => (s.inst.icache.requested, s.dcache.dc.mshrFile, decide s.AtRest,
          s.inst.mem.l2.l2.biuReqQueue)) = some (2, [], true, []) := by
    decide +kernel
  obtain ⟨s, hs, hval⟩ := Run.ok_of_eval heval
  simp only [Prod.mk.injEq] at hval
  obtain ⟨hrequested, hfile, hrest, hbiu⟩ := hval
  obtain ⟨-, -, hdone⟩ := memory_hierarchy_has_answered smallICache smallDCache twoEntryL2 fastBus
    (fun r => 8 * r) (fun _ => ⟨1024, false⟩) (by decide) (by decide) (by decide) ⟨_, hs⟩
  obtain ⟨hanswered, -, hbusy, -⟩ := hdone (of_decide_eq_true hrest) hbiu
  exact ⟨s, hs, hrequested, (hanswered 1 (by omega)).1, hfile, hbusy⟩

end Olympia
