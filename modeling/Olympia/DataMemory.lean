import Olympia.InstMemory
import Olympia.Lsu.MshrRequests

/-!
# The data cache with the memory system

The data cache, the L2 cache, the BIU and the MSS connected as `CPUTopology.cpp` connects them,
with any LSU and any instruction cache that obeys the credit protocol.  A request and an answer are
on their way for a cycle.

The data cache adds up the credits that the L2 cache returns and never reads them, so they are left
out here.  What takes their place is `l2cache_busy_`: the next request is sent when the last one
has been answered.  So a single entry of the input queue is enough
(`DataMemory.Joined.getReq_ok`), and the data cache is among the requesters with which the memory
system has been proved correct.

The L2 cache copies the object of a request in `create_Req_`, and reads its state only to ask for
`RELOAD`, which nothing sets on an access of the LSU.
-/

namespace Olympia

open DCache L2Cache

/-- The steps of the data cache and of the LSU, which leave the L2 cache and the clock alone. -/
def DCacheOp.inner : DCacheOp → Bool
  | .refill _ | .copy _ | .tick | .postTick | .nextCycle => false
  | _ => true

namespace DCacheSystem

variable {p : DCacheParams} {acc : ℕ → DAccess} {s s' : DCacheSystem p} {op : DCacheOp}

/-- What a step of the data cache does at the ports to the L2 cache. -/
theorem inner_step (hs : Run.Reachable (DCacheSystem.step p acc) {} s) (hop : op.inner = true)
    (h : s.step p acc op = .ok s') :
    s'.phase = s.phase ∧ s'.atL2 = s.atL2 ∧ s'.toL2 = s.toL2 ++ (s.requests op).toList := by
  have H := Tracked.of_reachable hs
  obtain ⟨-, -, h⟩ := step_eq_ok.mp h
  cases op with
  | refill i => cases hop
  | copy i => cases hop
  | tick => cases hop
  | postTick => cases hop
  | nextCycle => cases hop
  | lookup =>
    obtain ⟨out, hout, h⟩ := Run.bind_eq_ok.mp h
    obtain rfl := Except.ok.inj h
    obtain ⟨hnone, -⟩ := handleLookup_cases H.filed hout
    exact ⟨rfl, rfl, by simp [emit, requests, hnone]⟩
  | dataRead =>
    obtain ⟨out, hout, h⟩ := Run.bind_eq_ok.mp h
    obtain rfl := Except.ok.inj h
    exact ⟨rfl, rfl, by simp [emit, requests, hout, Except.toOption]⟩
  | deallocate =>
    obtain ⟨out, hout, h⟩ := Run.bind_eq_ok.mp h
    obtain rfl := Except.ok.inj h
    refine ⟨rfl, rfl, ?_⟩
    have hnone : out.l2Req = none := by
      unfold handleDeallocate at hout
      dsimp only at hout
      split at hout
      · cases hout
      · obtain rfl := Except.ok.inj hout
        rfl
      · split at hout
        · obtain rfl := Except.ok.inj hout
          rfl
        · obtain rfl := Except.ok.inj hout
          rfl
    simp [emit, requests, hnone]
  | mshrRequest =>
    obtain rfl := Except.ok.inj h
    exact ⟨rfl, rfl, rfl⟩
  | arbitrate =>
    obtain ⟨dc, -, h⟩ := Run.bind_eq_ok.mp h
    obtain rfl := Except.ok.inj h
    exact ⟨rfl, rfl, (List.append_nil _).symm⟩
  | lsuReq a =>
    obtain rfl := Except.ok.inj h
    exact ⟨rfl, rfl, (List.append_nil _).symm⟩
  | forward a =>
    obtain rfl := Except.ok.inj h
    exact ⟨rfl, rfl, (List.append_nil _).symm⟩

/-- A refill that waits for the arbitration in the phase in which refills arrive has arrived in
this phase, so the L2 cache has nothing more of the data cache. -/
def Free (s : DCacheSystem p) : Prop :=
  s.phase = .portUpdate → s.dc.l2MemAccess = none ∨ s.dc.l2Busy = false

theorem Free.of_phase (hphase : s.phase ≠ .portUpdate) : Free s :=
  fun hport => absurd hport hphase

theorem Free.step (hs : Run.Reachable (DCacheSystem.step p acc) {} s)
    (h : s.step p acc op = .ok s') : Free s' := by
  obtain ⟨hphase, hdue, hhandle⟩ := step_eq_ok.mp h
  cases op with
  | refill i =>
    obtain ⟨hlt, -⟩ := Bool.and_eq_true_iff.mp hdue
    have hr := List.getElem?_eq_getElem (of_decide_eq_true hlt)
    simp only [handle, hr] at hhandle
    obtain rfl := Except.ok.inj hhandle
    exact fun _ => .inr rfl
  | nextCycle =>
    have A := Armed.of_reachable hs
    have hempty : slots s.dc = [] := by
      by_contra hne
      have hidle := A.done hphase
      rw [A.now.mpr hne] at hidle
      cases hidle
    obtain rfl := Except.ok.inj hhandle
    simp only [slots, List.append_eq_nil_iff] at hempty
    have hnone : s.dc.l2MemAccess = none := by simpa using hempty.1
    exact fun _ => .inl hnone
  | copy i =>
    have ha := List.getElem?_eq_getElem (of_decide_eq_true hdue)
    simp only [handle, ha] at hhandle
    obtain rfl := Except.ok.inj hhandle
    exact .of_phase (by simp [hphase, DCacheOp.phase])
  | tick =>
    obtain rfl := Except.ok.inj hhandle
    exact .of_phase (by simp)
  | postTick =>
    obtain rfl := Except.ok.inj hhandle
    exact .of_phase (by simp)
  | _ =>
    obtain ⟨hsame, -⟩ := inner_step hs rfl h
    exact .of_phase (by simp [hsame, hphase, DCacheOp.phase])

theorem Free.of_reachable (h : Run.Reachable (DCacheSystem.step p acc) {} s) : Free s := by
  have hboth : Run.Reachable (DCacheSystem.step p acc) {} s ∧ Free s := by
    refine h.invariant (I := fun s => Run.Reachable (DCacheSystem.step p acc) {} s ∧ Free s)
      ⟨.refl _ _, fun _ => .inl rfl⟩ ?_
    exact fun _ _ _ ⟨hs, _⟩ hstep => ⟨hs.step hstep, .step hs hstep⟩
  exact hboth.2

/-- The answer to the only request can be taken. -/
theorem refill_step (hs : Run.Reachable (DCacheSystem.step p acc) {} s)
    (hphase : s.phase = .portUpdate) {r : Refill} (hat : s.atL2 = [r]) :
    s.step p acc (.refill 0) =
      .ok { s with dc := receiveRespFromL2Cache s.dc r, atL2 := [] } := by
  have hbusy : s.dc.l2Busy = true := by
    have hflight := (Tracked.of_reachable hs).flight
    rw [hat, List.length_singleton] at hflight
    rcases hb : s.dc.l2Busy with _ | _
    · rw [hb] at hflight
      simp at hflight
    · rfl
  have hnone : s.dc.l2MemAccess = none := by
    rcases Free.of_reachable hs hphase with h | h
    · exact h
    · rw [hbusy] at h
      cases h
  refine step_eq_ok.mpr ⟨hphase, ?_, ?_⟩
  · simp [due, hat, hnone]
  · simp [handle, hat]

/-- The only request can be copied. -/
theorem copy_step (hphase : s.phase = .postTick) {a : ℕ} (hto : s.toL2 = [a]) :
    s.step p acc (.copy 0) =
      .ok { s with toL2 := [], atL2 := s.atL2 ++ [copyOf acc s.dc a] } := by
  refine step_eq_ok.mpr ⟨hphase, ?_, ?_⟩
  · simp [due, hto]
  · simp [handle, hto]

end DCacheSystem

/-- A credit is returned for the request that `create_Req_` takes. -/
theorem MemSystem.createReq_of_credits {p : L2Params} {q : BusParams} {s : MemSystem p q}
    {c : L1Cache} {op : MemOp} (h : s.creditsTo c op ≠ []) :
    op = .l2 .createReq ∧ (s.creditsTo c op).sum = 1 := by
  cases op with
  | l2 op =>
    cases op with
    | createReq =>
      refine ⟨rfl, ?_⟩
      simp only [creditsTo, L2System.creditsTo] at h ⊢
      split at h
      · split at h
        · rename_i hc
          simp [hc]
        · exact absurd rfl h
      · exact absurd rfl h
    | _ => exact absurd rfl h
  | _ => exact absurd rfl h

structure DataMemory (pd : DCacheParams) (p : L2Params) (q : BusParams) where
  now : ℕ := 0
  dcache : DCacheSystem pd := {}
  mem : MemSystem p q := {}
  /-- from `out_l2cache_req` to `in_dcache_l2cache_req` -/
  reqs : List (Arrival ℕ) := []
  /-- from `out_l2cache_dcache_resp` to `in_l2cache_resp` -/
  resps : List (Arrival MemoryRequest) := []

inductive DataMemoryOp where
  | dcache (op : DCacheOp)
  | mem (op : MemOp)
  /-- a request arrives at the L2 cache -/
  | reqArrives
  /-- an answer arrives at the data cache -/
  | respArrives
  | tick
  | postTick
  | nextCycle
  deriving DecidableEq, Repr

namespace DataMemory

variable {pd : DCacheParams} {p : L2Params} {q : BusParams} {acc : ℕ → DAccess}

/-- The request for an access. -/
def requestOf (acc : ℕ → DAccess) (s : DataMemory pd p q) (a : ℕ) : MemoryRequest :=
  { id := 0, phyAddr := (acc a).phyAddr, cacheState := (s.dcache.dc.objs a).cacheState }

/-- A request arrives. -/
def getReq (acc : ℕ → DAccess) (s : DataMemory pd p q) (a : ℕ) (rest : List (Arrival ℕ)) :
    Except Assertion (DataMemory pd p q) := do
  let l2 ← s.mem.l2.handle p (.req .dcache (s.requestOf acc a))
  return { s with mem := { s.mem with l2 := l2 }, reqs := rest }

/-- A request that leaves the input queue is copied. -/
def copied (acc : ℕ → DAccess) (s : DataMemory pd p q) (op : MemOp) :
    Except Stop (DCacheSystem pd) :=
  if s.mem.creditsTo .dcache op = [] then .ok s.dcache else s.dcache.step pd acc (.copy 0)

def step (acc : ℕ → DAccess) (s : DataMemory pd p q) :
    DataMemoryOp → Except Stop (DataMemory pd p q)
  | .dcache op => do
    enabled op.inner
    let dcache ← s.dcache.step pd acc op
    return { s with
      dcache := dcache
      reqs := s.reqs ++ (s.dcache.requests op).toList.map (Arrival.mk (s.now + 1)) }
  | .mem op => do
    enabled (op.inner .dcache)
    let mem ← s.mem.step p q op
    let dcache ← s.copied acc op
    return { s with
      mem := mem
      dcache := dcache
      resps := s.resps ++ (s.mem.answers .dcache op).map (Arrival.mk (s.now + 1)) }
  | .reqArrives => do
    enabled (s.mem.l2.phase = .portUpdate)
    match Port.front s.reqs s.now with
    | none => .error .disabled
    | some (a, rest) => checked (s.getReq acc a rest)
  | .respArrives => do
    enabled (s.mem.l2.phase = .portUpdate)
    match Port.front s.resps s.now with
    | none => .error .disabled
    | some (_, rest) => do
      let dcache ← s.dcache.step pd acc (.refill 0)
      return { s with dcache := dcache, resps := rest }
  | .tick => do
    enabled (Port.quiet s.reqs s.now && Port.quiet s.resps s.now)
    let dcache ← s.dcache.step pd acc .tick
    let mem ← s.mem.step p q (.l2 .tick)
    return { s with dcache := dcache, mem := mem }
  | .postTick => do
    let dcache ← s.dcache.step pd acc .postTick
    let mem ← s.mem.step p q (.l2 .postTick)
    return { s with dcache := dcache, mem := mem }
  | .nextCycle => do
    let dcache ← s.dcache.step pd acc .nextCycle
    let mem ← s.mem.step p q (.l2 .nextCycle)
    return { s with dcache := dcache, mem := mem, now := s.now + 1 }

/-! ## A run of both is a run of each -/

variable {s s' : DataMemory pd p q} {op : DataMemoryOp}

/-- The addresses that the data cache waits for. -/
def asked (acc : ℕ → DAccess) (s : DataMemory pd p q) : List ℕ :=
  (s.dcache.toL2.map fun a => (acc a).phyAddr) ++ s.dcache.atL2.map Refill.phyAddr

/-- The addresses between the two: on the way to the L2 cache, in it, and on the way back. -/
def between (acc : ℕ → DAccess) (s : DataMemory pd p q) : List ℕ :=
  ((Port.vals s.reqs).map fun a => (acc a).phyAddr) ++
    (s.mem.l2.traffic.heldFor .dcache).map MemoryRequest.phyAddr ++
    (Port.vals s.resps).map MemoryRequest.phyAddr

/-- What every step keeps. -/
structure Joined (acc : ℕ → DAccess) (s : DataMemory pd p q) : Prop where
  dcache : Run.Reachable (DCacheSystem.step pd acc) {} s.dcache
  mem : Run.Reachable (MemSystem.step p q) {} s.mem
  phase : s.dcache.phase = s.mem.l2.phase
  addressed : ∃ f, s.mem.l2.traffic.Addressed f
  /-- the requests that have not been copied -/
  uncopied : s.dcache.toL2.length = s.reqs.length + (s.mem.l2.l2.reqQueue .dcache).length
  /-- what the data cache waits for is somewhere between the two -/
  places : (s.asked acc).Perm (s.between acc)
  hits : ∀ r ∈ Port.vals s.resps, r.cacheState = .hit

namespace Joined

theorem init : Joined acc ({} : DataMemory pd p q) where
  dcache := .refl _ _
  mem := .refl _ _
  phase := rfl
  addressed := ⟨id, L2System.addressed_init id⟩
  uncopied := rfl
  places := .refl _
  hits r hr := by cases hr

/-- There is one request at a time. -/
theorem length_asked (H : Joined acc s) : (s.asked acc).length = s.dcache.dc.l2Busy.toNat := by
  rw [asked, List.length_append, List.length_map, List.length_map]
  exact (DCacheSystem.Tracked.of_reachable H.dcache).flight

theorem length_between (H : Joined acc s) : (s.between acc).length ≤ 1 := by
  rw [← H.places.length_eq, H.length_asked]
  exact Bool.toNat_le _

/-- What is on its way back is the only request, and it has been copied. -/
theorem atL2_eq (H : Joined acc s) {due : ℕ} {r : MemoryRequest}
    {rest : List (Arrival MemoryRequest)} (hresps : s.resps = ⟨due, r⟩ :: rest) :
    rest = [] ∧ s.dcache.toL2 = [] ∧ ∃ x, s.dcache.atL2 = [x] ∧ x.phyAddr = r.phyAddr := by
  have hplaces := H.places
  have hlen := H.length_between
  have huncopied := H.uncopied
  simp only [between, hresps, Port.vals_cons, List.map_cons, List.length_append, List.length_cons,
    List.length_map, L2Traffic.heldFor] at hlen
  have hrest : rest = [] := List.eq_nil_of_length_eq_zero (by simp [Port.vals] at hlen; omega)
  have hreqs : s.reqs = [] := List.eq_nil_of_length_eq_zero (by simp [Port.vals] at hlen; omega)
  have hheld : s.mem.l2.traffic.heldFor .dcache = [] :=
    List.eq_nil_of_length_eq_zero (by simp only [L2Traffic.heldFor, List.length_append]; omega)
  have hqueue : s.mem.l2.l2.reqQueue .dcache = [] := by
    simp only [L2Traffic.heldFor, List.append_eq_nil_iff] at hheld
    exact hheld.1.1
  have hto : s.dcache.toL2 = [] := by
    rw [hreqs, hqueue] at huncopied
    exact List.eq_nil_of_length_eq_zero huncopied
  refine ⟨hrest, hto, ?_⟩
  simp only [asked, between, hto, hreqs, hheld, hresps, hrest, Port.vals_nil, Port.vals_cons,
    List.map_nil, List.map_cons, List.nil_append] at hplaces
  exact List.map_eq_singleton_iff.mp (List.perm_singleton.mp hplaces)

/-- A step of the data cache, which may send a request. -/
theorem dcache_step (H : Joined acc s) {op : DCacheOp} {dc : DCacheSystem pd}
    (hop : op.inner = true) (h : s.dcache.step pd acc op = .ok dc) :
    Joined acc { s with
      dcache := dc
      reqs := s.reqs ++ (s.dcache.requests op).toList.map (Arrival.mk (s.now + 1)) } := by
  obtain ⟨hphase, hat, hto⟩ := DCacheSystem.inner_step H.dcache hop h
  have huncopied := H.uncopied
  refine ⟨H.dcache.step h, H.mem, hphase.trans H.phase, H.addressed, ?_, ?_, H.hits⟩
  · simp only [hto, List.length_append, List.length_map]
    omega
  · refine List.perm_iff_count.mpr fun a => ?_
    have hcount := H.places.count_eq a
    simp only [asked, between, hat, hto, Port.vals_append_map, List.map_append,
      List.count_append] at hcount ⊢
    omega

/-- When a credit is returned, the only request leaves the input queue, and can be copied. -/
theorem copied_ok (H : Joined acc s) {op : MemOp} {mem : MemSystem p q}
    (hasks : op.asks .dcache = []) (h : s.mem.step p q op = .ok mem)
    (hcred : s.mem.creditsTo .dcache op ≠ []) :
    ∃ a, s.dcache.toL2 = [a] ∧ s.dcache.atL2 = [] ∧ s.copied acc op = .ok { s.dcache with
      toL2 := [], atL2 := s.dcache.atL2 ++ [DCacheSystem.copyOf acc s.dcache.dc a] } := by
  obtain ⟨rfl, hsum⟩ := MemSystem.createReq_of_credits hcred
  have hqueue := MemSystem.reqQueue_step H.mem h .dcache
  have huncopied := H.uncopied
  have hlen := H.length_between
  rw [← H.places.length_eq, asked, List.length_append, List.length_map, List.length_map] at hlen
  rw [hasks, List.length_nil] at hqueue
  obtain ⟨a, ha⟩ : ∃ a, s.dcache.toL2 = [a] := List.length_eq_one_iff.mp (by omega)
  have hat : s.dcache.atL2 = [] := List.eq_nil_of_length_eq_zero (by omega)
  obtain ⟨hphase, -⟩ := L2System.step_eq_ok.mp (MemSystem.step_l2 h)
  exact ⟨a, ha, hat, (if_neg hcred).trans (DCacheSystem.copy_step (H.phase.trans hphase) ha)⟩

/-- A step of the memory system that takes no request of the data cache. -/
theorem mem_step (H : Joined acc s) {op : MemOp} {mem : MemSystem p q} {dc : DCacheSystem pd}
    (hasks : op.asks .dcache = []) (hkeep : mem.l2.phase = s.mem.l2.phase)
    (h : s.mem.step p q op = .ok mem) (hdc : s.copied acc op = .ok dc) :
    Joined acc { s with
      mem := mem
      dcache := dc
      resps := s.resps ++ (s.mem.answers .dcache op).map (Arrival.mk (s.now + 1)) } := by
  obtain ⟨f, A⟩ := H.addressed
  obtain ⟨f', A', hheld⟩ := MemSystem.heldFor_step H.mem A h
  have hheld := hheld .dcache
  have hqueue := MemSystem.reqQueue_step H.mem h .dcache
  have huncopied := H.uncopied
  rw [hasks, List.append_nil] at hheld
  rw [hasks, List.length_nil] at hqueue
  have hbetween : (s.between acc).Perm (between acc { s with
      mem := mem
      resps := s.resps ++ (s.mem.answers .dcache op).map (Arrival.mk (s.now + 1)) }) := by
    refine List.perm_iff_count.mpr fun a => ?_
    have hheld := hheld.count_eq a
    simp only [between, Port.vals_append_map, List.map_append, List.count_append] at hheld ⊢
    omega
  have hhits : ∀ r ∈ Port.vals (s.resps ++
      (s.mem.answers .dcache op).map (Arrival.mk (s.now + 1))), r.cacheState = .hit := by
    intro r hr
    rw [Port.vals_append_map] at hr
    rcases List.mem_append.mp hr with hr | hr
    · exact H.hits r hr
    · exact MemSystem.answers_hit H.mem hr
  by_cases hcred : s.mem.creditsTo .dcache op = []
  · obtain rfl := Except.ok.inj ((if_pos hcred).symm.trans hdc)
    rw [hcred, List.sum_nil] at hqueue
    refine ⟨H.dcache, H.mem.step h, H.phase.trans hkeep.symm, ⟨f', A'⟩, ?_,
      H.places.trans hbetween, hhits⟩
    dsimp only
    omega
  · obtain ⟨a, hto, hat, hok⟩ := H.copied_ok hasks h hcred
    obtain ⟨rfl, hsum⟩ := MemSystem.createReq_of_credits hcred
    have hstep := (if_neg hcred).symm.trans hdc
    obtain rfl := Except.ok.inj (hok.symm.trans hdc)
    refine ⟨H.dcache.step hstep, H.mem.step h, H.phase.trans hkeep.symm, ⟨f', A'⟩, ?_, ?_, hhits⟩
    · rw [hto, List.length_singleton] at huncopied
      dsimp only [List.length_nil]
      omega
    · have hsame : asked acc { s with dcache := { s.dcache with
          toL2 := [], atL2 := s.dcache.atL2 ++ [DCacheSystem.copyOf acc s.dcache.dc a] } } =
          s.asked acc := by
        simp [asked, hto, hat, DCacheSystem.copyOf]
      have hplaces := H.places.trans hbetween
      rw [← hsame] at hplaces
      exact hplaces

/-- The clock of both. -/
theorem clock_step (H : Joined acc s) {dop : DCacheOp} {lop : L2Op} {dc : DCacheSystem pd}
    {mem : MemSystem p q}
    (hop : dop = .tick ∧ lop = .tick ∨ dop = .postTick ∧ lop = .postTick ∨
      dop = .nextCycle ∧ lop = .nextCycle) (now : ℕ)
    (hdc : s.dcache.step pd acc dop = .ok dc) (hmem : s.mem.step p q (.l2 lop) = .ok mem) :
    Joined acc { s with dcache := dc, mem := mem, now := now } := by
  obtain ⟨f, A⟩ := H.addressed
  obtain ⟨f', A', hheld⟩ := MemSystem.heldFor_step H.mem A hmem
  have hheld := hheld .dcache
  have hqueue := MemSystem.reqQueue_step H.mem hmem .dcache
  have huncopied := H.uncopied
  have hl2 := L2System.handle_phase (L2System.step_eq_ok.mp (MemSystem.step_l2 hmem)).2.2
  have hhandle := (DCacheSystem.step_eq_ok.mp hdc).2.2
  obtain ⟨hphase, hto, hat, hasks, hanswers, hcred⟩ : dc.phase = mem.l2.phase ∧
      dc.toL2 = s.dcache.toL2 ∧ dc.atL2 = s.dcache.atL2 ∧ MemOp.asks .dcache (.l2 lop) = [] ∧
      s.mem.answers .dcache (.l2 lop) = [] ∧ s.mem.creditsTo .dcache (.l2 lop) = [] := by
    rcases hop with ⟨rfl, rfl⟩ | ⟨rfl, rfl⟩ | ⟨rfl, rfl⟩
    all_goals
      obtain rfl := Except.ok.inj hhandle
      exact ⟨hl2.symm, rfl, rfl, rfl, rfl, rfl⟩
  rw [hasks, List.append_nil, hanswers, List.map_nil, List.append_nil] at hheld
  rw [hasks, hcred, List.sum_nil, List.length_nil, Nat.add_zero, Nat.add_zero] at hqueue
  refine ⟨H.dcache.step hdc, H.mem.step hmem, hphase, ⟨f', A'⟩, ?_, ?_, H.hits⟩
  · rw [hto, hqueue]
    exact huncopied
  · have hplaces := H.places
    simp only [asked, between, hto, hat] at hplaces ⊢
    exact hplaces.trans ((hheld.symm.append_left _).append_right _)

/-- A request that arrives has an entry in the queue, because it is the only one. -/
theorem getReq_ok (H : Joined acc s) (hpos : 0 < p.reqQueueSize .dcache)
    (hphase : s.mem.l2.phase = .portUpdate) {due a : ℕ} {rest : List (Arrival ℕ)}
    (hreqs : s.reqs = ⟨due, a⟩ :: rest) :
    ∃ mem, s.getReq acc a rest = .ok { s with mem := mem, reqs := rest } ∧
      s.mem.step p q (.l2 (.req .dcache (s.requestOf acc a))) = .ok mem := by
  have huncopied := H.uncopied
  have hlen := H.length_between
  rw [← H.places.length_eq, asked, List.length_append, List.length_map, List.length_map] at hlen
  rw [hreqs, List.length_cons] at huncopied
  obtain ⟨l2, hl2, hstep⟩ := MemSystem.req_ok H.mem hphase (c := .dcache)
    (r := s.requestOf acc a) (by omega)
  exact ⟨_, Run.bind_eq_ok.mpr ⟨l2, hl2, rfl⟩, hstep⟩

theorem reqArrives (H : Joined acc s) (hpos : 0 < p.reqQueueSize .dcache)
    (hphase : s.mem.l2.phase = .portUpdate) {due a : ℕ} {rest : List (Arrival ℕ)}
    (hreqs : s.reqs = ⟨due, a⟩ :: rest) (h : s.getReq acc a rest = .ok s') : Joined acc s' := by
  obtain ⟨mem, hok, hstep⟩ := H.getReq_ok hpos hphase hreqs
  obtain rfl := Except.ok.inj (hok.symm.trans h)
  obtain ⟨f, A⟩ := H.addressed
  obtain ⟨f', A', hheld⟩ := MemSystem.heldFor_step H.mem A hstep
  have hheld := hheld .dcache
  have hqueue := MemSystem.reqQueue_step H.mem hstep .dcache
  have huncopied := H.uncopied
  rw [hreqs, List.length_cons] at huncopied
  have hkeep : mem.l2.phase = s.mem.l2.phase :=
    L2System.handle_phase (L2System.step_eq_ok.mp (MemSystem.step_l2 hstep)).2.2
  refine ⟨H.dcache, H.mem.step hstep, H.phase.trans hkeep.symm, ⟨f', A'⟩, ?_, ?_, H.hits⟩
  · simp only [MemSystem.creditsTo, L2System.creditsTo, MemOp.asks, L2Op.asks, if_true,
      List.sum_nil, List.length_singleton] at hqueue
    dsimp only
    omega
  · refine List.perm_iff_count.mpr fun x => ?_
    have hcount := H.places.count_eq x
    have hheld := hheld.count_eq x
    simp only [MemSystem.answers, L2System.answers, MemOp.asks, L2Op.asks, if_true, List.map_nil,
      List.append_nil, List.count_append, requestOf] at hheld
    simp only [asked, between, hreqs, Port.vals_cons, List.map_cons, List.count_append,
      List.count_cons, List.count_nil] at hcount hheld ⊢
    omega

/-- An answer that arrives is taken by the data cache. -/
theorem respArrives (H : Joined acc s) (hphase : s.mem.l2.phase = .portUpdate) {due : ℕ}
    {r : MemoryRequest} {rest : List (Arrival MemoryRequest)}
    (hresps : s.resps = ⟨due, r⟩ :: rest) :
    ∃ dc, s.dcache.step pd acc (.refill 0) = .ok dc ∧
      Joined acc { s with dcache := dc, resps := rest } ∧ dc.dc.l2Busy = false ∧
      dc.dc.l2MemAccess.map Refill.phyAddr = some r.phyAddr := by
  obtain ⟨rfl, hto, x, hat, hx⟩ := H.atL2_eq hresps
  have hstep := DCacheSystem.refill_step H.dcache (H.phase.trans hphase) hat
  have hplaces := H.places.length_eq
  have huncopied := H.uncopied
  refine ⟨_, hstep, ⟨H.dcache.step hstep, H.mem, H.phase, H.addressed, huncopied, ?_, ?_⟩, rfl,
    congrArg some hx⟩
  · simp only [asked, between, hto, hat, hresps, Port.vals_cons, Port.vals_nil, List.map_nil,
      List.map_cons, List.nil_append, List.length_append, List.length_singleton] at hplaces
    have hnone : ((Port.vals s.reqs).map fun a => (acc a).phyAddr) ++
        (s.mem.l2.traffic.heldFor .dcache).map MemoryRequest.phyAddr = [] :=
      List.eq_nil_of_length_eq_zero (by rw [List.length_append]; omega)
    simp [asked, between, hto, hnone]
  · intro r' hr'
    cases hr'

theorem step (H : Joined acc s) (hpos : 0 < p.reqQueueSize .dcache)
    (h : s.step acc op = .ok s') : Joined acc s' := by
  cases op with
  | dcache op =>
    obtain ⟨u, hen, h⟩ := Run.bind_eq_ok.mp h
    obtain ⟨dc, hdc, h⟩ := Run.bind_eq_ok.mp h
    obtain rfl := Except.ok.inj h
    exact H.dcache_step (enabled_eq_ok.mp hen) hdc
  | mem op =>
    obtain ⟨u, hen, h⟩ := Run.bind_eq_ok.mp h
    obtain ⟨mem, hmem, h⟩ := Run.bind_eq_ok.mp h
    obtain ⟨dc, hdc, h⟩ := Run.bind_eq_ok.mp h
    obtain rfl := Except.ok.inj h
    obtain ⟨hasks, hkeep⟩ := MemSystem.inner_step (enabled_eq_ok.mp hen) hmem
    exact H.mem_step hasks hkeep hmem hdc
  | reqArrives =>
    obtain ⟨u, hen, h⟩ := Run.bind_eq_ok.mp h
    rcases hfront : Port.front s.reqs s.now with _ | ⟨a, rest⟩
    · simp only [hfront] at h
      cases h
    · obtain ⟨due, -, hreqs⟩ := Port.front_eq_some hfront
      simp only [hfront] at h
      exact H.reqArrives hpos (of_decide_eq_true (enabled_eq_ok.mp hen)) hreqs
        (checked_eq_ok.mp h)
  | respArrives =>
    obtain ⟨u, hen, h⟩ := Run.bind_eq_ok.mp h
    rcases hfront : Port.front s.resps s.now with _ | ⟨r, rest⟩
    · simp only [hfront] at h
      cases h
    · obtain ⟨due, -, hresps⟩ := Port.front_eq_some hfront
      simp only [hfront] at h
      obtain ⟨dc, hdc, h⟩ := Run.bind_eq_ok.mp h
      obtain rfl := Except.ok.inj h
      obtain ⟨dc', hdc', H', -⟩ :=
        H.respArrives (of_decide_eq_true (enabled_eq_ok.mp hen)) hresps
      obtain rfl := Except.ok.inj (hdc.symm.trans hdc')
      exact H'
  | tick =>
    obtain ⟨u, -, h⟩ := Run.bind_eq_ok.mp h
    obtain ⟨dc, hdc, h⟩ := Run.bind_eq_ok.mp h
    obtain ⟨mem, hmem, h⟩ := Run.bind_eq_ok.mp h
    obtain rfl := Except.ok.inj h
    exact H.clock_step (.inl ⟨rfl, rfl⟩) s.now hdc hmem
  | postTick =>
    obtain ⟨dc, hdc, h⟩ := Run.bind_eq_ok.mp h
    obtain ⟨mem, hmem, h⟩ := Run.bind_eq_ok.mp h
    obtain rfl := Except.ok.inj h
    exact H.clock_step (.inr (.inl ⟨rfl, rfl⟩)) s.now hdc hmem
  | nextCycle =>
    obtain ⟨dc, hdc, h⟩ := Run.bind_eq_ok.mp h
    obtain ⟨mem, hmem, h⟩ := Run.bind_eq_ok.mp h
    obtain rfl := Except.ok.inj h
    exact H.clock_step (.inr (.inr ⟨rfl, rfl⟩)) (s.now + 1) hdc hmem

end Joined

theorem joined_of_reachable (hpos : 0 < p.reqQueueSize .dcache)
    (h : Run.Reachable (step acc) ({} : DataMemory pd p q) s) : Joined acc s :=
  h.invariant .init fun _ _ _ H hstep => H.step hpos hstep

namespace Joined

/-- The data cache follows every step of the memory system. -/
theorem mem_ok (H : Joined acc s) {op : MemOp} {mem : MemSystem p q}
    (hop : op.inner .dcache = true) (h : s.mem.step p q op = .ok mem) :
    ∃ s', s.step acc (.mem op) = .ok s' ∧ s'.mem = mem := by
  obtain ⟨dc, hdc⟩ : ∃ dc, s.copied acc op = .ok dc := by
    by_cases hcred : s.mem.creditsTo .dcache op = []
    · exact ⟨_, if_pos hcred⟩
    · obtain ⟨a, -, -, hok⟩ := H.copied_ok (MemSystem.inner_step hop h).1 h hcred
      exact ⟨_, hok⟩
  exact ⟨_, Run.bind_eq_ok.mpr ⟨(), enabled_eq_ok.mpr hop, Run.bind_eq_ok.mpr ⟨mem, h,
    Run.bind_eq_ok.mpr ⟨dc, hdc, rfl⟩⟩⟩, rfl⟩

/-- The clock does not stop at an assertion. -/
theorem clock_ne_assertion (H : Joined acc s) {dop : DCacheOp} {lop : L2Op}
    {f : DCacheSystem pd → MemSystem p q → DataMemory pd p q} {a : Assertion}
    (hok : ∀ a, s.dcache.handle pd acc dop ≠ .error a) :
    (do let dc ← s.dcache.step pd acc dop
        let mem ← s.mem.step p q (.l2 lop)
        return f dc mem : Except Stop (DataMemory pd p q)) ≠ .error (.assertion a) := by
  intro h
  rcases Run.bind_eq_error.mp h with h | ⟨dc, -, h⟩
  · exact hok a (enabled_checked_eq_error h).2
  rcases Run.bind_eq_error.mp h with h | ⟨mem, -, h⟩
  · cases (MemSystem.assertion_of_reachable H.mem h).1
  · cases h

/-- A step that is not one of the data cache stops only at the assertions on the number of answers
of the BIU. -/
theorem assertion (H : Joined acc s) (hpos : 0 < p.reqQueueSize .dcache)
    (hop : ∀ dop, op ≠ .dcache dop) {a : Assertion}
    (h : s.step acc op = .error (.assertion a)) :
    op = .mem .respArrives ∧ (a = .biuRespQueueOverflow ∨ a = .biuRespNotServiced) := by
  cases op with
  | dcache dop => exact absurd rfl (hop dop)
  | mem op =>
    rcases Run.bind_eq_error.mp h with hen | ⟨u, hen, h⟩
    · exact absurd hen enabled_ne_assertion
    rcases Run.bind_eq_error.mp h with h | ⟨mem, hmem, -⟩
    · obtain ⟨rfl, ha⟩ := MemSystem.assertion_of_reachable H.mem h
      exact ⟨rfl, ha⟩
    · obtain ⟨s', hs', -⟩ := H.mem_ok (enabled_eq_ok.mp hen) hmem
      obtain ⟨_, hen', hs'⟩ := Run.bind_eq_ok.mp hs'
      cases hs'.symm.trans h
  | reqArrives =>
    rcases Run.bind_eq_error.mp h with hen | ⟨u, hen, h⟩
    · exact absurd hen enabled_ne_assertion
    rcases hfront : Port.front s.reqs s.now with _ | ⟨x, rest⟩
    · simp only [hfront] at h
      cases h
    · obtain ⟨due, -, hreqs⟩ := Port.front_eq_some hfront
      obtain ⟨mem, hok, -⟩ := H.getReq_ok hpos (of_decide_eq_true (enabled_eq_ok.mp hen)) hreqs
      simp only [hfront, hok] at h
      cases h
  | respArrives =>
    rcases Run.bind_eq_error.mp h with hen | ⟨u, hen, h⟩
    · exact absurd hen enabled_ne_assertion
    rcases hfront : Port.front s.resps s.now with _ | ⟨r, rest⟩
    · simp only [hfront] at h
      cases h
    · obtain ⟨due, -, hresps⟩ := Port.front_eq_some hfront
      obtain ⟨dc, hdc, -⟩ := H.respArrives (of_decide_eq_true (enabled_eq_ok.mp hen)) hresps
      simp only [hfront, hdc] at h
      cases h
  | tick =>
    rcases Run.bind_eq_error.mp h with hen | ⟨u, -, h⟩
    · exact absurd hen enabled_ne_assertion
    exact absurd h (H.clock_ne_assertion fun _ herr => by cases herr)
  | postTick => exact absurd h (H.clock_ne_assertion fun _ herr => by cases herr)
  | nextCycle => exact absurd h (H.clock_ne_assertion fun _ herr => by cases herr)

end Joined

/-! ## Both at rest -/

/-- Nothing is scheduled in the memory system, and nothing is on its way. -/
structure AtRest (s : DataMemory pd p q) : Prop where
  ports : s.reqs = [] ∧ s.resps = []
  mem : s.mem.AtRest

instance (s : DataMemory pd p q) : Decidable s.AtRest :=
  decidable_of_iff ((s.reqs = [] ∧ s.resps = []) ∧ s.mem.AtRest)
    ⟨fun h => ⟨h.1, h.2⟩, fun h => ⟨h.ports, h.mem⟩⟩

/-- With nothing left between the two, the data cache waits for no answer. -/
theorem AtRest.answered (R : s.AtRest) (H : Joined acc s) (hbiu : s.mem.l2.l2.biuReqQueue = []) :
    s.dcache.toL2 = [] ∧ s.dcache.atL2 = [] ∧ s.dcache.dc.l2Busy = false := by
  have hheld := R.mem.heldFor_eq_nil H.mem hbiu .dcache
  have hbetween : s.between acc = [] := by
    simp [between, R.ports.1, R.ports.2, hheld, Port.vals]
  have hasked : s.asked acc = [] := (hbetween ▸ H.places).eq_nil
  have hlen := H.length_asked
  simp only [asked, List.append_eq_nil_iff, List.map_eq_nil_iff] at hasked
  rw [asked, hasked.1, hasked.2] at hlen
  have hbusy : s.dcache.dc.l2Busy = false := by
    rcases hb : s.dcache.dc.l2Busy with _ | _
    · rfl
    · rw [hb] at hlen
      cases hlen
  exact ⟨hasked.1, hasked.2, hbusy⟩

end DataMemory

open DataMemory

/-- In every state that the data cache, the L2 cache, the BIU and the MSS reach, with any LSU and
any instruction cache that obeys the credit protocol: the data cache is in a state that it reaches
with any L2 cache that answers each copy once, and the memory system in one that it reaches with
any requester that has credits, although the data cache looks at none.  While `l2cache_busy_` is
set, and only then, there is one request, and it is in one place between the two.  The data cache
takes part in every step of the memory system, an answer that arrives is a hit of the address it
waits for and sets it free, and outside the data cache only the assertions on the number of answers
of the BIU can fail. -/
theorem data_cache_waits_for_one (pd : DCacheParams) (p : L2Params) (q : BusParams)
    (acc : ℕ → DAccess) (hpos : 0 < p.reqQueueSize .dcache) {s : DataMemory pd p q}
    (h : Run.Reachable (DataMemory.step acc) {} s) :
    (Run.Reachable (DCacheSystem.step pd acc) {} s.dcache ∧
      Run.Reachable (MemSystem.step p q) {} s.mem) ∧
    ((s.asked acc).Perm (s.between acc) ∧ (s.between acc).length = s.dcache.dc.l2Busy.toNat) ∧
    (∀ op mem, op.inner .dcache = true → s.mem.step p q op = .ok mem →
      ∃ s', s.step acc (.mem op) = .ok s' ∧ s'.mem = mem) ∧
    (∀ r rest, s.mem.l2.phase = .portUpdate → Port.front s.resps s.now = some (r, rest) →
      r.cacheState = .hit ∧ s.asked acc = [r.phyAddr] ∧
        ∃ s', s.step acc .respArrives = .ok s' ∧ s'.dcache.dc.l2Busy = false) ∧
    (∀ op a, (∀ dop, op ≠ .dcache dop) → s.step acc op = .error (.assertion a) →
      op = .mem .respArrives ∧ (a = .biuRespQueueOverflow ∨ a = .biuRespNotServiced)) := by
  have H := joined_of_reachable hpos h
  refine ⟨⟨H.dcache, H.mem⟩, ⟨H.places, H.places.length_eq.symm.trans H.length_asked⟩,
    fun op mem => H.mem_ok, fun r rest hphase hfront => ?_, fun op a hop => H.assertion hpos hop⟩
  obtain ⟨due, -, hresps⟩ := Port.front_eq_some hfront
  obtain ⟨-, hto, x, hat, hx⟩ := H.atL2_eq hresps
  obtain ⟨dc, hdc, -, hbusy, -⟩ := H.respArrives hphase hresps
  refine ⟨H.hits r ?_, ?_, { s with dcache := dc, resps := rest }, ?_, hbusy⟩
  · rw [hresps]
    exact List.mem_cons_self
  · rw [asked, hto, hat, ← hx]
    rfl
  · refine Run.bind_eq_ok.mpr ⟨(), enabled_eq_ok.mpr (decide_eq_true hphase), ?_⟩
    simp only [hfront, hdc]
    rfl

/-- A cycle: what arrives, the tick phase, and what follows it. -/
def dataCycle (arrive tick post : List DataMemoryOp) : List DataMemoryOp :=
  arrive ++ .tick :: tick ++ .postTick :: post ++ [.nextCycle]

/-- A load misses in both caches, and what the memory returns fills the line. -/
def loadedOps : List DataMemoryOp :=
  dataCycle [] [.dcache (.lsuReq 0), .dcache .arbitrate] [] ++
  dataCycle [.mem .creditsArrive] [.dcache .lookup, .dcache .mshrRequest] [] ++
  dataCycle [.reqArrives] [.dcache .dataRead, .mem (.l2 (.handleReq .dcache))]
    [.mem (.l2 .createReq), .mem (.l2 .issueReq)] ++
  dataCycle [] [.dcache .deallocate, .dcache .mshrRequest]
    [.mem (.l2 .createReq), .mem (.l2 .issueReq)] ++
  dataCycle [] [.mem (.l2 .lookup)] [.mem (.l2 .issueReq)] ++
  dataCycle [] [.mem (.l2 .result), .mem (.l2 .handleBiuReq)] [] ++
  dataCycle [.mem (.bus .reqArrives)] [.mem (.bus .handleBiuReq)] [] ++
  dataCycle [] [] [] ++
  dataCycle [.mem (.bus .mssReqArrives)] [] [] ++
  dataCycle [] [.mem (.bus .handleMssReq)] [] ++
  dataCycle [.mem (.bus .ackArrives)] [.mem (.bus .handleMssAck)] [] ++
  dataCycle [.mem .creditsArrive] [] [] ++
  dataCycle [.mem .respArrives] [.mem (.l2 .handleBiuResp)]
    [.mem (.l2 .createReq), .mem (.l2 .issueReq)] ++
  dataCycle [] [.mem (.l2 .lookup)] [.mem (.l2 .issueReq)] ++
  dataCycle [] [.mem (.l2 .result), .mem (.l2 (.handleResp .dcache))] [] ++
  dataCycle [.respArrives] [.dcache .arbitrate] []

theorem data_cache_waits_for_one_sample :
    ∃ s, (loadedOps.take 30).foldlM (DataMemory.step sameBlock)
        ({} : DataMemory smallDCache twoEntryL2 fastBus) = .ok s ∧
      s.dcache.dc.l2Busy = true ∧ (s.between sameBlock).length = 1 := by
  have heval : ((loadedOps.take 30).foldlM (DataMemory.step sameBlock)
      ({} : DataMemory smallDCache twoEntryL2 fastBus)).toOption.map
        (fun s => s.dcache.dc.l2Busy) = some true := by
    decide +kernel
  obtain ⟨s, hs, hbusy⟩ := Run.ok_of_eval heval
  obtain ⟨-, ⟨-, hlen⟩, -⟩ := data_cache_waits_for_one smallDCache twoEntryL2 fastBus sameBlock
    (by decide) ⟨_, hs⟩
  rw [hbusy] at hlen
  exact ⟨s, hs, hbusy, hlen⟩

/-- When the memory system is at rest and no transaction is asleep in `biu_req_queue_`, the data
cache waits for no answer; and if it is idle too, no missing access is left in its MSHR entries. -/
theorem data_at_rest_has_answered (pd : DCacheParams) (p : L2Params) (q : BusParams)
    (acc : ℕ → DAccess) (hpos : 0 < p.reqQueueSize .dcache) {s : DataMemory pd p q}
    (h : Run.Reachable (DataMemory.step acc) {} s) (R : s.AtRest)
    (hbiu : s.mem.l2.l2.biuReqQueue = []) :
    (s.dcache.toL2 = [] ∧ s.dcache.atL2 = [] ∧ s.dcache.dc.l2Busy = false) ∧
    (s.dcache.Idle → ∀ e ∈ s.dcache.dc.mshrFile,
      ∃ a, e.memRequest = some a ∧ (s.dcache.dc.objs a).cacheState = .hit) := by
  have H := joined_of_reachable hpos h
  have hdone := R.answered H hbiu
  exact ⟨hdone, fun hidle e he => (DCacheSystem.Wakes.of_reachable H.dcache).of_idle
    (DCacheSystem.Tracked.of_reachable H.dcache) hidle hdone.2.2 he⟩

theorem data_at_rest_has_answered_sample :
    ∃ s, loadedOps.foldlM (DataMemory.step sameBlock)
        ({} : DataMemory smallDCache twoEntryL2 fastBus) = .ok s ∧
      s.dcache.dc.mshrFile = [] ∧ s.dcache.dc.l2Busy = false := by
  have heval : (loadedOps.foldlM (DataMemory.step sameBlock)
      ({} : DataMemory smallDCache twoEntryL2 fastBus)).toOption.map
        (fun s => (s.dcache.dc.mshrFile, decide s.AtRest, s.mem.l2.l2.biuReqQueue)) =
          some ([], true, []) := by
    decide +kernel
  obtain ⟨s, hs, hval⟩ := Run.ok_of_eval heval
  simp only [Prod.mk.injEq] at hval
  obtain ⟨hfile, hrest, hbiu⟩ := hval
  obtain ⟨⟨-, -, hidle⟩, -⟩ := data_at_rest_has_answered smallDCache twoEntryL2 fastBus sameBlock
    (by decide) ⟨_, hs⟩ (of_decide_eq_true hrest) hbiu
  exact ⟨s, hs, hfile, hidle⟩

end Olympia
