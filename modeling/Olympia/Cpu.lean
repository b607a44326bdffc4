import Olympia.FetchOrder
import Olympia.InstGenerator
import Olympia.ProgramSequence
import Olympia.VectorConfigs

/-!
# From the trace to retirement

The core of `DecodeCore` with Fetch and the generator of instructions in front of it.  Fetch reads
the trace into `ibuf_`, and what it sends arrives at Decode a cycle later.  A flush reaches all
units at once; Fetch sets the generator back to the instruction that the ROB names, or behind it.

`Cpu.Inv` is the invariant: the program identifiers of what is on its way to the ROB, from the
oldest entry of the reorder buffer to the youngest of `ibuf_`, go up by one from
`expected_program_id_` to `program_id_` of the generator.
-/

namespace Olympia

/-- The handlers of Fetch that concern no other unit. -/
def FetchOp.isInner : FetchOp → Bool
  | .cacheResponse _ _ => true
  | .cacheCredit _ => true
  | .send => true
  | .credits _ => true
  | _ => false

/-- The steps from Decode on that Fetch takes no part in. -/
def DecodeCoreOp.isInner : DecodeCoreOp → Bool
  | .appended _ => false
  | .flush => false
  | .core (.front .nextCycle) => false
  | _ => true

namespace FetchSystem

variable {p : FetchParams} {s s' : FetchSystem}

/-- What Fetch has, oldest first, as Decode gets it. -/
def ahead (s : FetchSystem) : List Inst := s.toDecode ++ asSent s.buffered

theorem ahead_fetch {next : List FetchEntry} (hstep : s.step p (.fetch next) = .ok s') :
    s'.ahead = s.ahead ++ asSent ((s.read p next).map FetchEntry.inst) := by
  have hbuf := buffered_fetch hstep
  obtain ⟨-, -, hstep⟩ := Run.bind_eq_ok.mp hstep
  obtain rfl := Except.ok.inj hstep
  unfold ahead
  rw [hbuf, asSent_append, List.append_assoc]

theorem ahead_inner {op : FetchOp} (hop : op.isInner = true) (hstep : s.step p op = .ok s') :
    s'.ahead = s.ahead ∧ s'.uniqueId = s.uniqueId := by
  cases op with
  | send =>
    obtain ⟨-, -, hid⟩ := step_send hstep
    refine ⟨?_, hid⟩
    rcases hsend : Fetch.sendInstructions p s.fetch s.table with ⟨f, insts⟩
    obtain ⟨group, hsplit, hibuf, rfl, -⟩ := Fetch.sendInstructions_group hsend
    obtain ⟨-, -, hstep⟩ := Run.bind_eq_ok.mp hstep
    rw [hsend] at hstep
    obtain rfl := Except.ok.inj hstep
    simp [ahead, buffered, asSent, hsplit, hibuf, Function.comp_def]
  | cacheResponse n hit =>
    unfold step at hstep
    rcases hreq : s.requests[n]? with _ | group
    · simp [hreq] at hstep
    · simp only [hreq] at hstep
      obtain ⟨-, -, hstep⟩ := Run.bind_eq_ok.mp hstep
      obtain rfl := Except.ok.inj hstep
      exact ⟨rfl, rfl⟩
  | cacheCredit n =>
    obtain ⟨-, -, hstep⟩ := Run.bind_eq_ok.mp hstep
    obtain rfl := Except.ok.inj hstep
    exact ⟨rfl, rfl⟩
  | credits n =>
    obtain ⟨-, -, hstep⟩ := Run.bind_eq_ok.mp hstep
    obtain rfl := Except.ok.inj hstep
    exact ⟨rfl, rfl⟩
  | fetch next => cases hop
  | deliver => cases hop
  | flush c => cases hop
  | nextCycle => cases hop

theorem ahead_deliver (hstep : s.step p .deliver = .ok s') :
    s.ahead = s.toDecode ++ s'.ahead ∧ s'.uniqueId = s.uniqueId := by
  obtain ⟨-, -, hstep⟩ := Run.bind_eq_ok.mp hstep
  obtain rfl := Except.ok.inj hstep
  exact ⟨rfl, rfl⟩

theorem ahead_nextCycle (hstep : s.step p .nextCycle = .ok s') :
    s'.ahead = s.ahead ∧ s'.uniqueId = s.uniqueId := by
  obtain ⟨-, -, hstep⟩ := Run.bind_eq_ok.mp hstep
  obtain rfl := Except.ok.inj hstep
  exact ⟨rfl, rfl⟩

theorem ahead_flush {c : Option FlushingCriteria} (hstep : s.step p (.flush c) = .ok s') :
    s'.ahead = (if c.isSome then [] else s.ahead) ∧ s'.uniqueId = s.uniqueId := by
  obtain ⟨-, -, hstep⟩ := Run.bind_eq_ok.mp hstep
  cases c with
  | none =>
    obtain rfl := Except.ok.inj hstep
    exact ⟨rfl, rfl⟩
  | some c =>
    obtain rfl := Except.ok.inj hstep
    exact ⟨rfl, rfl⟩

end FetchSystem

/-! ## The generator in the CPU -/

namespace GeneratorCalls

variable {ι ρ : Type} {r : TraceReader ι ρ} {records : List ρ} {make : MakeInst ρ} {pos : ι → ℕ}
variable {s s' : GeneratorCalls ι}

/-- The loop of `fetchInstruction_` that fills `ibuf_`: at most `n` instructions, until the trace is
done. -/
def readInsts (r : TraceReader ι ρ) (make : MakeInst ρ) :
    ℕ → GeneratorCalls ι → Except Assertion (GeneratorCalls ι × List FetchEntry)
  | 0, s => .ok (s, [])
  | n + 1, s => do
    match ← s.generator.getNextInst r make with
    | none => return (s, [])
    | some (i, g) => do
      let (s, next) ← readInsts r make n ⟨g, s.returned ++ [i]⟩
      return (s, i.entry :: next)

/-- An instruction with these identifiers has been returned. -/
def Knows (s : GeneratorCalls ι) (uniqueId programId : ℕ) : Prop :=
  ∃ i ∈ s.returned, i.uniqueId = uniqueId ∧ i.programId = programId

/-- What is read continues the program, and has the next unique identifiers. -/
structure ReadSpec (records : List ρ) (make : MakeInst ρ) (pos : ι → ℕ) (n : ℕ)
    (s s' : GeneratorCalls ι) (next : List FetchEntry) : Prop where
  inv : Inv records make pos s'
  length : next.length ≤ n
  returned : ∃ new, s'.returned = s.returned ++ new ∧ next = new.map GeneratedInst.entry
  programIds : Consecutive s.generator.programId
    (next.map (fun e => e.inst.programId) ++ [s'.generator.programId])
  uniqueIds : next.map (fun e => e.inst.uniqueId) =
    List.range' (s.generator.uniqueId + 1) next.length
  uniqueId : s'.generator.uniqueId = s.generator.uniqueId + next.length

theorem ReadSpec.knows {n : ℕ} {next : List FetchEntry}
    (h : ReadSpec records make pos n s s' next) : ∀ u m, s.Knows u m → s'.Knows u m := by
  rintro u m ⟨i, hi, hids⟩
  obtain ⟨new, hnew, -⟩ := h.returned
  exact ⟨i, by rw [hnew]; exact List.mem_append_left _ hi, hids⟩

theorem ReadSpec.isNew {n : ℕ} {next : List FetchEntry}
    (h : ReadSpec records make pos n s s' next) :
    ∀ e ∈ next, e.IsNew ∧ s'.Knows e.inst.uniqueId e.inst.programId := by
  intro e he
  obtain ⟨new, hnew, rfl⟩ := h.returned
  obtain ⟨i, hi, rfl⟩ := List.mem_map.mp he
  have hmem : i ∈ s'.returned := by
    rw [hnew]
    exact List.mem_append_right _ hi
  exact ⟨(h.inv.placed i hmem).isNew, i, hmem, rfl, rfl⟩

theorem readInsts_spec (R : r.Reads records pos) : ∀ (n : ℕ) {s s' : GeneratorCalls ι}
    {next : List FetchEntry}, Inv records make pos s → readInsts r make n s = .ok (s', next) →
    ReadSpec records make pos n s s' next
  | 0, s, s', next, H, h => by
    obtain ⟨rfl, rfl⟩ := Prod.mk.inj (Except.ok.inj h)
    exact ⟨H, le_rfl, ⟨[], by simp, rfl⟩, .singleton _, rfl, rfl⟩
  | n + 1, s, s', next, H, h => by
    unfold readInsts at h
    obtain ⟨res, hres, h⟩ := Run.bind_eq_ok.mp h
    cases res with
    | none =>
      obtain ⟨rfl, rfl⟩ := Prod.mk.inj (Except.ok.inj h)
      exact ⟨H, Nat.zero_le _, ⟨[], by simp, rfl⟩, .singleton _, rfl, rfl⟩
    | some ig =>
      obtain ⟨i, g⟩ := ig
      obtain ⟨⟨s₁, rest⟩, hrest, h⟩ := Run.bind_eq_ok.mp h
      obtain ⟨rfl, rfl⟩ := Prod.mk.inj (Except.ok.inj h)
      obtain ⟨H₁, -, hpid, huid, hnext, hid⟩ := H.getNextInst R hres
      have S := readInsts_spec R n H₁ hrest
      obtain ⟨new, hret, hentries⟩ := S.returned
      have hprog : g.programId = s.generator.programId + 1 := by rw [hnext, hpid]
      have huniq : g.uniqueId = s.generator.uniqueId + 1 := by rw [hid, huid]
      refine ⟨S.inv, Nat.succ_le_succ S.length, ⟨i :: new, ?_, by rw [hentries]; rfl⟩, ?_, ?_, ?_⟩
      · rw [hret, List.append_assoc]
        rfl
      · have hids := S.programIds
        dsimp only at hids
        rw [hprog] at hids
        exact Consecutive.cons.mpr ⟨hpid, hids⟩
      · have hids := S.uniqueIds
        dsimp only at hids
        rw [huniq] at hids
        rw [List.map_cons, hids, List.length_cons, List.range'_succ]
        exact congrArg (· :: _) huid
      · have hlast := S.uniqueId
        dsimp only at hlast
        rw [hlast, huniq, List.length_cons]
        omega

/-- What `flushFetch_` does to the generator: it is set back to the instruction of the criteria, or
behind it. -/
def flushFetch (r : TraceReader ι ρ) (make : MakeInst ρ) (s : GeneratorCalls ι) :
    Option FlushingCriteria → Except Stop (GeneratorCalls ι)
  | none => .ok s
  | some c =>
    s.step r make (.reset (s.returned.findIdx fun i => i.uniqueId = c.uniqueId) (!c.isInclusive))

/-- The flush of an instruction that was returned is not refused, and the trace goes on behind
it. -/
theorem flushFetch_spec (R : r.Reads records pos) (H : Inv records make pos s)
    {c : FlushingCriteria} {n : ℕ} (hc : c.isInclusive = false) (hn : s.Knows c.uniqueId n) :
    ∃ s', s.flushFetch r make (some c) = .ok s' ∧ Inv records make pos s' ∧
      s'.returned = s.returned ∧ s'.generator.uniqueId = s.generator.uniqueId ∧
      s'.generator.programId = n + 1 := by
  obtain ⟨i, hi, hid, hpid⟩ := hn
  have hlt : (s.returned.findIdx fun i => i.uniqueId = c.uniqueId) < s.returned.length :=
    List.findIdx_lt_length_of_exists ⟨i, hi, by simpa using hid⟩
  have hfound : s.returned[s.returned.findIdx fun i => i.uniqueId = c.uniqueId].uniqueId =
      c.uniqueId := by simpa using List.findIdx_getElem (w := hlt)
  -- no other instruction has its unique identifier
  have hsame : s.returned[s.returned.findIdx fun i => i.uniqueId = c.uniqueId] = i := by
    have hnodup : (s.returned.map GeneratedInst.uniqueId).Nodup :=
      List.pairwise_map.mpr (H.uniqueIds.imp fun h => h.ne)
    exact List.inj_on_of_nodup_map hnodup (List.getElem_mem hlt) hi (hfound.trans hid.symm)
  have hget : s.returned[s.returned.findIdx fun i => i.uniqueId = c.uniqueId]? = some i := by
    rw [List.getElem?_eq_getElem hlt, hsame]
  obtain ⟨g, hg, H', -, huid, hprog⟩ := H.reset R hi (!c.isInclusive)
  refine ⟨{ s with generator := g }, ?_, H', rfl, huid, ?_⟩
  · simp only [flushFetch, GeneratorCalls.step, hget]
    exact Run.bind_eq_ok.mpr ⟨g, checked_eq_ok.mpr hg, rfl⟩
  · rw [hc] at hprog
    rw [← hpid]
    exact hprog

end GeneratorCalls

/-! ## Order -/

/-- The youngest instruction after a group. -/
theorem getLast?_or_sublist {α : Type} (last : Option α) (l : List α) :
    ((l.getLast?.or last).toList).Sublist (last.toList ++ l) := by
  rcases List.eq_nil_or_concat l with rfl | ⟨front, a, rfl⟩
  · simp
  · rw [List.concat_eq_append, List.getLast?_concat, ← List.append_assoc]
    exact List.sublist_append_right _ _

/-- The unique identifiers increase, and none is beyond `u`. -/
structure Numbered (u : ℕ) (l : List Inst) : Prop where
  increasing : (l.map Inst.uniqueId).Pairwise (· < ·)
  le : ∀ i ∈ l, i.uniqueId ≤ u

namespace Numbered

variable {u : ℕ} {l l' : List Inst}

theorem sublist (H : Numbered u l) (h : l'.Sublist l) : Numbered u l' :=
  ⟨H.increasing.sublist (h.map _), fun i hi => H.le i (h.subset hi)⟩

/-- The next instructions of the generator. -/
theorem append (H : Numbered u l)
    (h : l'.map Inst.uniqueId = List.range' (u + 1) l'.length) :
    Numbered (u + l'.length) (l ++ l') := by
  have hbounds : ∀ i ∈ l', u < i.uniqueId ∧ i.uniqueId ≤ u + l'.length := by
    intro i hi
    have hmem := List.mem_map_of_mem (f := Inst.uniqueId) hi
    rw [h, List.mem_range'_1] at hmem
    omega
  constructor
  · rw [List.map_append, List.pairwise_append, h]
    refine ⟨H.increasing, List.pairwise_lt_range', fun a ha b hb => ?_⟩
    obtain ⟨i, hi, rfl⟩ := List.mem_map.mp ha
    have hle := H.le i hi
    rw [List.mem_range'_1] at hb
    omega
  · intro i hi
    rcases List.mem_append.mp hi with hi | hi
    · exact (H.le i hi).trans (Nat.le_add_right _ _)
    · exact (hbounds i hi).2

/-- Decode gets the instructions in program order. -/
theorem inProgramOrder : ∀ {last : Option Inst} {l : List Inst}, Numbered u (last.toList ++ l) →
    Olympia.inProgramOrder last l = true
  | _, [], _ => rfl
  | last, i :: rest, H => by
    refine (Bool.and_eq_true _ _).mpr ⟨?_, inProgramOrder (H.sublist ?_)⟩
    · cases last with
      | none => rfl
      | some j =>
        have hlt := H.increasing
        simp only [Option.toList_some, List.singleton_append, List.map_cons,
          List.pairwise_cons, List.mem_cons] at hlt
        exact Inst.before_iff.mpr (.inl (hlt.1 _ (.inl rfl)))
    · exact List.sublist_append_right _ _

end Numbered

/-! ## The CPU -/

namespace DecodeCore

variable {q : DecodeParams} {p : RenameParams} {pd : DispatchParams} {pr : RobParams}
variable {pu : UnitsParams} {s s' : DecodeCore} {op : DecodeCoreOp}

theorem retiredOf_obs : retiredOf (s.obs q p pd pr pu op) = s.retires pr op := by
  cases op with
  | decode =>
    simp only [obs, retires]
    split
    · exact retiredOf_took
    · rfl
  | core op => simp [obs, retires]
  | flush => exact retiredOf_flushed _
  | _ => rfl

theorem lastFetched_step (hop : ∀ insts, op ≠ .appended insts)
    (hstep : s.step q p pd pr pu op = .ok s') : s'.lastFetched = s.lastFetched := by
  cases step_stepped hstep with
  | @appended insts => exact absurd rfl (hop insts)
  | _ => rfl

end DecodeCore

structure Cpu (ι : Type) where
  calls : GeneratorCalls ι
  fetch : FetchSystem := {}
  core : DecodeCore

inductive CpuOp where
  /-- `fetchInstruction_` -/
  | fetch
  | fetchOp (op : FetchOp)
  /-- the group from Fetch arrives at Decode -/
  | deliver
  /-- the flush handlers of all units -/
  | flush
  | core (op : DecodeCoreOp)
  | nextCycle

namespace Cpu

variable {ι ρ : Type}

def init (r : TraceReader ι ρ) (p : RenameParams) (x0 : ℕ) : Cpu ι :=
  { calls := .init r, core := .init p x0 }

/-- The flush that reaches the units. -/
def criteria (s : Cpu ι) : Option FlushingCriteria :=
  FlushManager.forwardUpper s.core.core.front.pendingFlush

def step (r : TraceReader ι ρ) (make : MakeInst ρ) (pf : FetchParams) (q : DecodeParams)
    (p : RenameParams) (pd : DispatchParams) (pr : RobParams) (pu : UnitsParams) (s : Cpu ι) :
    CpuOp → Except Stop (Cpu ι)
  | .fetch => do
    let (calls, next) ← checked
      (GeneratorCalls.readInsts r make (pf.ibufCapacity - s.fetch.fetch.ibuf.length) s.calls)
    let fetch ← s.fetch.step pf (.fetch next)
    return { s with calls := calls, fetch := fetch }
  | .fetchOp op => do
    enabled op.isInner
    let fetch ← s.fetch.step pf op
    return { s with fetch := fetch }
  | .deliver => do
    let core ← s.core.step q p pd pr pu (.appended s.fetch.toDecode)
    let fetch ← s.fetch.step pf .deliver
    return { s with fetch := fetch, core := core }
  | .flush => do
    let core ← s.core.step q p pd pr pu .flush
    let fetch ← s.fetch.step pf (.flush s.criteria)
    let calls ← s.calls.flushFetch r make s.criteria
    return ⟨calls, fetch, core⟩
  | .core op => do
    enabled op.isInner
    let core ← s.core.step q p pd pr pu op
    return { s with core := core }
  | .nextCycle => do
    let core ← s.core.step q p pd pr pu (.core (.front .nextCycle))
    let fetch ← s.fetch.step pf .nextCycle
    return { s with fetch := fetch, core := core }

/-- What a step shows. -/
def obs (q : DecodeParams) (p : RenameParams) (pd : DispatchParams) (pr : RobParams)
    (pu : UnitsParams) (s : Cpu ι) : CpuOp → List DecodeCoreEvent
  | .flush => s.core.obs q p pd pr pu .flush
  | .core op => s.core.obs q p pd pr pu op
  | _ => []

/-- Everything from the ROB to the generator is in the order of the trace. -/
structure Inv (records : List ρ) (make : MakeInst ρ) (pos : ι → ℕ) (p : RenameParams) (x0 : ℕ)
    (pd : DispatchParams) (hist : List DecodeCoreEvent) (s : Cpu ι) : Prop where
  core : DecodeCore.CoreInv p x0 pd hist s.core
  calls : GeneratorCalls.Inv records make pos s.calls
  uniqueId : s.fetch.uniqueId = s.calls.generator.uniqueId
  ahead : ∀ i ∈ s.fetch.ahead, Decode.Whole s.calls.Knows i ∧ i.isNew = true
  numbered : Numbered s.calls.generator.uniqueId (s.core.lastFetched.toList ++ s.fetch.ahead)
  sequence : s.core.Sequence s.calls.Knows
    (s.fetch.ahead.map Inst.programId ++ [s.calls.generator.programId])
  retired : Consecutive 1 (firstIds ((DecodeCore.retiredOf hist).map RenamedInst.inst))
  expected : s.core.core.front.rob.expectedProgramID =
    1 + (firstIds ((DecodeCore.retiredOf hist).map RenamedInst.inst)).length
  known : ∀ ri ∈ DecodeCore.retiredOf hist, s.calls.Knows ri.inst.uniqueId ri.inst.programId

variable {r : TraceReader ι ρ} {records : List ρ} {make : MakeInst ρ} {pos : ι → ℕ}
variable {pf : FetchParams} {q : DecodeParams} {p : RenameParams} {x0 : ℕ} {pd : DispatchParams}
variable {pr : RobParams} {pu : UnitsParams} {hist : List DecodeCoreEvent} {s s' : Cpu ι}

theorem inv_init (R : r.Reads records pos) : Inv records make pos p x0 pd [] (init r p x0) where
  core := DecodeCore.coreInv_init p x0 pd
  calls := GeneratorCalls.inv_init R
  uniqueId := rfl
  ahead i hi := by cases hi
  numbered := ⟨.nil, fun i hi => by cases hi⟩
  sequence := ⟨⟨fun i hi => (by cases hi), .reset _⟩, fun u hu => (by cases hu), rfl,
    ⟨.nil, fun _ _ _ u hu => (by cases hu), fun h => (by cases h)⟩, fun u hu => (by cases hu),
    .singleton 1, fun c hc => (by cases hc)⟩
  retired := .nil 1
  expected := rfl
  known ri hri := by cases hri

namespace Inv

theorem fetch (R : r.Reads records pos) (H : Inv records make pos p x0 pd hist s)
    (hstep : s.step r make pf q p pd pr pu .fetch = .ok s') :
    Inv records make pos p x0 pd hist s' := by
  obtain ⟨⟨calls, next⟩, hread, hstep⟩ := Run.bind_eq_ok.mp hstep
  obtain ⟨fetch, hfetch, hstep⟩ := Run.bind_eq_ok.mp hstep
  obtain rfl := Except.ok.inj hstep
  have S := GeneratorCalls.readInsts_spec R _ H.calls (checked_eq_ok.mp hread)
  have hall : s.fetch.read pf next = next := List.take_of_length_le S.length
  have hahead := FetchSystem.ahead_fetch hfetch
  obtain ⟨-, -, -, hid⟩ := FetchSystem.step_fetch hfetch
  rw [hall] at hahead hid
  have hlen : (FetchSystem.asSent (next.map FetchEntry.inst)).length = next.length := by
    simp [FetchSystem.asSent]
  refine ⟨H.core, S.inv, ?_, fun i hi => ?_, ?_, ?_, H.retired, H.expected,
    fun ri hri => S.knows _ _ (H.known ri hri)⟩
  · rw [hid, S.uniqueId, H.uniqueId]
  · rw [hahead] at hi
    rcases List.mem_append.mp hi with hi | hi
    · exact (H.ahead i hi).imp_left (.mono S.knows)
    · simp only [FetchSystem.asSent, List.map_map, List.mem_map] at hi
      obtain ⟨e, he, rfl⟩ := hi
      obtain ⟨hnew, hknows⟩ := S.isNew e he
      exact ⟨⟨hknows, hnew.uopId, hnew.programIdIncrement⟩, hnew.isNew⟩
  · dsimp only
    rw [hahead, ← List.append_assoc, S.uniqueId, ← hlen]
    refine H.numbered.append ?_
    rw [hlen, ← S.uniqueIds]
    simp [FetchSystem.asSent, Function.comp_def, Inst.setSpeculative]
  · dsimp only
    have hmap : fetch.ahead.map Inst.programId ++ [calls.generator.programId] =
        s.fetch.ahead.map Inst.programId ++
          (next.map (fun e => e.inst.programId) ++ [calls.generator.programId]) := by
      rw [hahead]
      simp [FetchSystem.asSent, Function.comp_def, Inst.setSpeculative]
    rw [hmap]
    exact (H.sequence.mono S.knows).extend S.programIds

/-- A handler of Fetch that sends nothing away and reads nothing. -/
theorem of_fetch {fetch : FetchSystem} (H : Inv records make pos p x0 pd hist s)
    (h : fetch.ahead = s.fetch.ahead ∧ fetch.uniqueId = s.fetch.uniqueId) :
    Inv records make pos p x0 pd hist { s with fetch := fetch } := by
  refine ⟨H.core, H.calls, h.2.trans H.uniqueId, ?_, ?_, ?_, H.retired, H.expected, H.known⟩
  · rw [h.1]
    exact H.ahead
  · rw [h.1]
    exact H.numbered
  · rw [h.1]
    exact H.sequence

/-- What a step of the core retires comes next. -/
theorem counted {op : DecodeCoreOp} {core : DecodeCore} {calls : GeneratorCalls ι}
    (H : Inv records make pos p x0 pd hist s)
    (hcore : s.core.step q p pd pr pu op = .ok core)
    (hcalls : calls.returned = s.calls.returned)
    (C : s.core.core.front.Counted core.core.front (s.core.retires pr op)) :
    Consecutive 1 (firstIds ((DecodeCore.retiredOf (hist ++ s.core.obs q p pd pr pu op)).map
      RenamedInst.inst)) ∧
    core.core.front.rob.expectedProgramID = 1 + (firstIds
      ((DecodeCore.retiredOf (hist ++ s.core.obs q p pd pr pu op)).map RenamedInst.inst)).length ∧
    ∀ ri ∈ DecodeCore.retiredOf (hist ++ s.core.obs q p pd pr pu op),
      calls.Knows ri.inst.uniqueId ri.inst.programId := by
  rw [DecodeCore.retiredOf_append, DecodeCore.retiredOf_obs, List.map_append, firstIds_append]
  refine ⟨?_, ?_, fun ri hri => ?_⟩
  · rw [Consecutive.append, ← H.expected]
    exact ⟨H.retired, C.ids⟩
  · rw [C.expected, H.expected, List.length_append, Nat.add_assoc]
  · unfold GeneratorCalls.Knows
    rw [hcalls]
    rcases List.mem_append.mp hri with hri | hri
    · exact H.known ri hri
    · exact H.sequence.known hcore ri hri

/-- A step from Decode on that Fetch takes no part in. -/
theorem inner {op : DecodeCoreOp} {core : DecodeCore} (hm : q.mavis.MakesUops)
    (H : Inv records make pos p x0 pd hist s) (hop : ∀ insts, op ≠ .appended insts)
    (hflush : op ≠ .flush) (hcore : s.core.step q p pd pr pu op = .ok core) :
    Inv records make pos p x0 pd (hist ++ s.core.obs q p pd pr pu op) { s with core := core } := by
  obtain ⟨S, C⟩ := H.sequence.step hm H.core hop hflush hcore
  obtain ⟨hretired, hexpected, hknown⟩ := H.counted hcore rfl C
  refine ⟨H.core.step hcore, H.calls, H.uniqueId, H.ahead, ?_, S, hretired, hexpected, hknown⟩
  rw [DecodeCore.lastFetched_step hop hcore]
  exact H.numbered

theorem deliver (H : Inv records make pos p x0 pd hist s)
    (hstep : s.step r make pf q p pd pr pu .deliver = .ok s') :
    Inv records make pos p x0 pd hist s' := by
  obtain ⟨core, hcore, hstep⟩ := Run.bind_eq_ok.mp hstep
  obtain ⟨fetch, hfetch, hstep⟩ := Run.bind_eq_ok.mp hstep
  obtain rfl := Except.ok.inj hstep
  obtain ⟨hahead, hid⟩ := FetchSystem.ahead_deliver hfetch
  have hmem : ∀ i ∈ s.fetch.toDecode, i ∈ s.fetch.ahead := by
    intro i hi
    rw [hahead]
    exact List.mem_append_left _ hi
  have hcoreInv := H.core.step hcore
  rw [show s.core.obs q p pd pr pu (.appended s.fetch.toDecode) = [] from rfl,
    List.append_nil] at hcoreInv
  have S : core.Sequence s.calls.Knows
      (fetch.ahead.map Inst.programId ++ [s.calls.generator.programId]) := by
    have hseq := H.sequence
    rw [hahead, List.map_append, List.append_assoc] at hseq
    exact hseq.appended (fun i hi => (H.ahead i (hmem i hi)).1) hcore
  cases DecodeCore.step_stepped hcore
  refine ⟨hcoreInv, H.calls, hid.trans H.uniqueId, fun i hi => ?_, ?_, S, H.retired, H.expected,
    H.known⟩
  · apply H.ahead
    rw [hahead]
    exact List.mem_append_right _ hi
  · refine H.numbered.sublist ?_
    rw [hahead, ← List.append_assoc]
    exact (getLast?_or_sublist _ _).append_right _

theorem flush (R : r.Reads records pos) (H : Inv records make pos p x0 pd hist s)
    (hstep : s.step r make pf q p pd pr pu .flush = .ok s') :
    Inv records make pos p x0 pd (hist ++ s.core.obs q p pd pr pu .flush) s' := by
  obtain ⟨core, hcore, hstep⟩ := Run.bind_eq_ok.mp hstep
  obtain ⟨fetch, hfetch, hstep⟩ := Run.bind_eq_ok.mp hstep
  obtain ⟨calls, hcalls, hstep⟩ := Run.bind_eq_ok.mp hstep
  obtain rfl := Except.ok.inj hstep
  obtain ⟨hahead, hid⟩ := FetchSystem.ahead_flush hfetch
  obtain ⟨C, hcase⟩ := H.sequence.flush H.core hcore
  have hlast := DecodeCore.lastFetched_step (by simp) hcore
  cases hc : s.criteria with
  | none =>
    rw [hc] at hcalls hahead
    rw [show FlushManager.forwardUpper s.core.core.front.pendingFlush = none from hc] at hcase
    obtain rfl := Except.ok.inj hcalls
    obtain ⟨hretired, hexpected, hknown⟩ := H.counted hcore rfl C
    have hahead : fetch.ahead = s.fetch.ahead := hahead
    refine ⟨H.core.step hcore, H.calls, hid.trans H.uniqueId, ?_, ?_, ?_, hretired, hexpected,
      hknown⟩
    · rw [hahead]
      exact H.ahead
    · rw [hahead, hlast]
      exact H.numbered
    · rw [hahead]
      exact hcase
  | some c =>
    rw [hc] at hcalls hahead
    rw [show FlushManager.forwardUpper s.core.core.front.pendingFlush = some c from hc] at hcase
    obtain ⟨hexcl, n, hn, hseq⟩ := hcase
    obtain ⟨calls', hcalls', G, hret, huid, hprog⟩ :=
      GeneratorCalls.flushFetch_spec R H.calls hexcl hn
    obtain rfl : calls' = calls := Except.ok.inj (hcalls'.symm.trans hcalls)
    have hK : ∀ u m, s.calls.Knows u m → calls'.Knows u m := by
      intro u m h
      unfold GeneratorCalls.Knows
      rw [hret]
      exact h
    obtain ⟨hretired, hexpected, hknown⟩ := H.counted hcore hret C
    have hahead : fetch.ahead = [] := hahead
    refine ⟨H.core.step hcore, G, ?_, fun i hi => ?_, ?_, ?_, hretired, hexpected, hknown⟩
    · rw [hid, huid]
      exact H.uniqueId
    · rw [hahead] at hi
      cases hi
    · rw [hahead, hlast, huid]
      exact H.numbered.sublist ((List.nil_sublist _).append_left _)
    · rw [hahead, hprog]
      exact (hseq [n + 1] (.singleton _)).mono hK

theorem step {op : CpuOp} (hm : q.mavis.MakesUops) (R : r.Reads records pos)
    (H : Inv records make pos p x0 pd hist s)
    (hstep : s.step r make pf q p pd pr pu op = .ok s') :
    Inv records make pos p x0 pd (hist ++ s.obs q p pd pr pu op) s' := by
  cases op with
  | fetch => simpa only [obs, List.append_nil] using H.fetch R hstep
  | deliver => simpa only [obs, List.append_nil] using H.deliver hstep
  | flush => exact H.flush R hstep
  | fetchOp op =>
    obtain ⟨u, hop, hstep⟩ := Run.bind_eq_ok.mp hstep
    obtain ⟨fetch, hfetch, hstep⟩ := Run.bind_eq_ok.mp hstep
    obtain rfl := Except.ok.inj hstep
    simpa only [obs, List.append_nil] using
      H.of_fetch (FetchSystem.ahead_inner (enabled_eq_ok.mp hop) hfetch)
  | core op =>
    obtain ⟨u, hop, hstep⟩ := Run.bind_eq_ok.mp hstep
    obtain ⟨core, hcore, hstep⟩ := Run.bind_eq_ok.mp hstep
    obtain rfl := Except.ok.inj hstep
    refine H.inner hm ?_ ?_ hcore
    · rintro insts rfl
      cases enabled_eq_ok.mp hop
    · rintro rfl
      cases enabled_eq_ok.mp hop
  | nextCycle =>
    obtain ⟨core, hcore, hstep⟩ := Run.bind_eq_ok.mp hstep
    obtain ⟨fetch, hfetch, hstep⟩ := Run.bind_eq_ok.mp hstep
    obtain rfl := Except.ok.inj hstep
    have H' := (H.inner hm (by simp) (by simp) hcore).of_fetch (FetchSystem.ahead_nextCycle hfetch)
    simpa [obs, DecodeCore.obs, Core.moves, Core.retires, InStep.renames, InStep.sends,
      InStep.retires] using H'

/-- What Fetch sends arrives at Decode in program order. -/
theorem fetched (H : Inv records make pos p x0 pd hist s) :
    inProgramOrder s.core.lastFetched s.fetch.toDecode = true ∧
      s.fetch.toDecode.all Inst.isNew = true := by
  rw [List.all_eq_true]
  constructor
  · refine (H.numbered.sublist ?_).inProgramOrder
    exact (List.sublist_append_left _ _).append_left _
  · intro i hi
    exact (H.ahead i (List.mem_append_left _ hi)).2

/-- The generator has what a flush sets it back to. -/
theorem flushFetch_ok (R : r.Reads records pos) (H : Inv records make pos p x0 pd hist s) :
    ∃ calls, s.calls.flushFetch r make s.criteria = .ok calls := by
  cases hc : s.criteria with
  | none => exact ⟨s.calls, rfl⟩
  | some c =>
    obtain ⟨hexcl, n, hn, -⟩ := H.sequence.core.flush c (Option.filter_eq_some_iff.mp hc).1
    obtain ⟨calls, hcalls, -⟩ := GeneratorCalls.flushFetch_spec R H.calls hexcl hn
    exact ⟨calls, hcalls⟩

end Inv

theorem run_inv (hm : q.mavis.MakesUops) (R : r.Reads records pos) {ops : List CpuOp}
    (hrun : ops.foldlM (Run.traced (step r make pf q p pd pr pu) (obs q p pd pr pu))
      ([], init r p x0) = .ok (hist, s)) : Inv records make pos p x0 pd hist s := by
  refine Run.foldlM_ok_preserves (f := Run.traced (step r make pf q p pd pr pu) (obs q p pd pr pu))
    (I := fun hs => Inv records make pos p x0 pd hs.1 hs.2) ?_ (inv_init R) hrun
  rintro op ⟨hist, s⟩ ⟨hist', s'⟩ H hone
  obtain ⟨hstep, rfl⟩ := Run.traced_eq_ok.mp hone
  exact H.step hm R hstep

/-- The instructions that have retired are the first ones of the trace, each of them once and in
its order; the ROB retires the next group without a complaint about its program identifiers, the
groups on the ports from Fetch and Decode are in program order, and a flush that the ROB has asked
for can be served. -/
structure RetiresTrace (r : TraceReader ι ρ) (records : List ρ) (make : MakeInst ρ) (pos : ι → ℕ)
    (pr : RobParams) (hist : List DecodeCoreEvent) (s : Cpu ι) : Prop where
  programIds : ∃ k, firstIds ((DecodeCore.retiredOf hist).map RenamedInst.inst) = List.range' 1 k
  generated : ∀ ri ∈ DecodeCore.retiredOf hist, ∃ i ∈ s.calls.returned, i.At records make pos ∧
    i.uniqueId = ri.inst.uniqueId ∧ i.programId = ri.inst.programId
  expected : Rob.retireInstructions pr s.core.core.front.rob s.core.core.front.table ≠
    .error .unexpectedProgramID
  fetched : inProgramOrder s.core.lastFetched s.fetch.toDecode = true ∧
    s.fetch.toDecode.all Inst.isNew = true
  decoded : inProgramOrder s.core.core.front.lastDecoded s.core.toRename = true
  rewinds : ∃ calls, s.calls.flushFetch r make s.criteria = .ok calls

theorem Inv.retiresTrace (R : r.Reads records pos) (H : Inv records make pos p x0 pd hist s) :
    RetiresTrace r records make pos pr hist s where
  programIds := ⟨_, H.retired⟩
  generated ri hri := by
    obtain ⟨i, hi, hids⟩ := H.known ri hri
    exact ⟨i, hi, H.calls.placed i hi, hids⟩
  expected h := by
    have hseq := H.sequence.core
    exact Rob.retireInstructions_ne hseq.countsOne hseq.hasExpected _ h rfl
  fetched := H.fetched
  decoded := H.sequence.order
  rewinds := H.flushFetch_ok R

end Cpu

/-- A generator keeps to its trace whatever it is asked for, it does not fail at a reset and ends
only with the trace; and with this generator the trace retires in order. -/
structure FollowsTrace {ι ρ : Type} (r : TraceReader ι ρ) (records : List ρ) (make : MakeInst ρ)
    (pos : ι → ℕ) (pf : FetchParams) (q : DecodeParams) (p : RenameParams) (x0 : ℕ)
    (pd : DispatchParams) (pr : RobParams) (pu : UnitsParams) : Prop where
  calls : ∀ (calls : List GeneratorCall) (hist : List (GeneratorEvent ι)) (s : GeneratorCalls ι),
    calls.foldlM (Run.traced (GeneratorCalls.step r make) (GeneratorCalls.obs r make))
      ([], .init r) = .ok (hist, s) →
    InTraceOrder records make pos hist ∧
      (s.generator.getNextInst r make = .ok none ↔ nextPosition pos hist = records.length) ∧
      ∀ i ∈ s.returned, ∀ skip, ∃ g, s.generator.reset r i skip = .ok g
  retires : ∀ (ops : List CpuOp) (hist : List DecodeCoreEvent) (s : Cpu ι),
    ops.foldlM (Run.traced (Cpu.step r make pf q p pd pr pu) (Cpu.obs q p pd pr pu))
      ([], .init r p x0) = .ok (hist, s) →
    Cpu.RetiresTrace r records make pos pr hist s

theorem TraceReader.Reads.followsTrace {ι ρ : Type} {r : TraceReader ι ρ} {records : List ρ}
    {pos : ι → ℕ} (R : r.Reads records pos) (make : MakeInst ρ) (pf : FetchParams)
    {q : DecodeParams} (p : RenameParams) (x0 : ℕ) (pd : DispatchParams) (pr : RobParams)
    (pu : UnitsParams) (hm : q.mavis.MakesUops) :
    FollowsTrace r records make pos pf q p x0 pd pr pu where
  calls calls hist s hrun := by
    have H := GeneratorCalls.follows_of_run R make hrun
    exact ⟨H.inTraceOrder, H.done_iff R, fun i hi => H.reset_ok R hi⟩
  retires ops hist s hrun := (Cpu.run_inv hm R hrun).retiresTrace R

/-- For both generators, whatever the calls of `getNextInst` and `reset` are, each instruction that
is returned is the one after the last one, or after or at the one of a reset, with its position as
program identifier and a new unique identifier.  So in every run, with any number of flushes, the
instructions that retire are those of the trace, each once and in order. -/
theorem trace_retires_in_order {ι ρ σ : Type} (jobj : List ρ) (makeJson : MakeInst ρ)
    (stf : STFInstReader ι σ) (records : List σ) (pos : ι → ℕ)
    (hstf : (TraceInstGenerator.reader stf).Reads records pos) (makeStf : MakeInst σ)
    (pf : FetchParams) (q : DecodeParams) (p : RenameParams) (x0 : ℕ) (pd : DispatchParams)
    (pr : RobParams) (pu : UnitsParams) (hm : q.mavis.MakesUops) :
    FollowsTrace (JSONInstGenerator.reader jobj) jobj makeJson id pf q p x0 pd pr pu ∧
      FollowsTrace (TraceInstGenerator.reader stf) records makeStf pos pf q p x0 pd pr pu :=
  ⟨(JSONInstGenerator.reads jobj).followsTrace makeJson pf p x0 pd pr pu hm,
    hstf.followsTrace makeStf pf p x0 pd pr pu hm⟩

/-! ## A run -/

/-- A Mavis whose uops are neither branches nor CSR instructions. -/
def uopMavis : Mavis :=
  ⟨fun i _ _ => { i with isBranch := false, isCsr := false, programIdIncrement := 1 }⟩

theorem uopMavis_makesUops : uopMavis.MakesUops := by
  intro i srcs dests _
  simp [uopMavis, Inst.canFlush]

/-- Two branches. -/
def branches : List { e : FetchEntry // e.IsNew } :=
  [⟨{ inst := branch }, rfl, rfl, rfl, rfl⟩, ⟨{ inst := branch, pc := 4 }, rfl, rfl, rfl, rfl⟩]

def branchesReader : STFInstReader ℕ { e : FetchEntry // e.IsNew } where
  begin_ := 0
  next i := i + 1
  isEnd i := branches.length ≤ i
  deref i := branches.getD i (branches.head (by simp [branches]))
  valid _ := true

theorem branchesReader_reads : (TraceInstGenerator.reader branchesReader).Reads branches id where
  start := rfl
  next _ _ := rfl
  record it _ := by
    show (if decide (branches.length ≤ it) = true then none else
      some (branches.getD it _)) = branches[it]?
    by_cases h : branches.length ≤ it
    · rw [if_pos (decide_eq_true h), List.getElem?_eq_none h]
    · rw [if_neg (by simpa using h), List.getD_eq_getElem?_getD,
        List.getElem?_eq_getElem (by omega), Option.getD_some]
  validRewind _ _ := rfl

def cpuCreditOps : List CpuOp :=
  [.fetchOp (.cacheCredit 3), .fetchOp (.credits 10)] ++ firstCreditOps.map .core

/-- The trace is read, and its next instruction goes to the first issue queue. -/
def toIssueOps : List CpuOp :=
  [.fetch, .fetchOp (.cacheResponse 0 true), .fetchOp .send, .nextCycle, .deliver, .flush,
   .core .decode, .nextCycle, .core .deliverUops, .flush, .core (.core (.front .rename)),
   .nextCycle, .core (.core (.front .deliverRenamed)), .flush, .core (.core (.front .dispatch)),
   .nextCycle, .core (.core (.front .deliverDispatched)), .core (.core (.deliverUnit 0)), .flush]

/-- The oldest instruction in the issue queue executes and retires. -/
def executeOps (mispredicted : Bool) : List CpuOp :=
  [.core (.core (.units (.sendReadyInsts 0))),
   .core (.core (.units (.executeInst 0 0 mispredicted))),
   .core (.core (.units (.completePipe 0 0))), .core (.core (.front .retire)), .nextCycle,
   .core (.core (.front .deliverAck)), .flush]

def cpuOps : List CpuOp :=
  cpuCreditOps ++ toIssueOps ++ executeOps true ++ toIssueOps ++ executeOps false

/-- The first branch is mispredicted, so the second one is returned twice, and retires once. -/
theorem trace_retires_in_order_sample :
    (∃ hist s, cpuOps.foldlM (Run.traced
        (Cpu.step (JSONInstGenerator.reader branches) .ok {} { mavis := uopMavis } {}
          vsetDispatch {} vsetUnits) (Cpu.obs { mavis := uopMavis } {} vsetDispatch {} vsetUnits))
        ([], Cpu.init (JSONInstGenerator.reader branches) {} 0) = .ok (hist, s) ∧
      s.calls.returned.map GeneratedInst.uniqueId = [1, 2, 3] ∧
      (DecodeCore.retiredOf hist).map (fun ri => (ri.inst.uniqueId, ri.inst.programId)) =
        [(1, 1), (3, 2)] ∧
      Cpu.RetiresTrace (JSONInstGenerator.reader branches) branches .ok id {} hist s) ∧
    FollowsTrace (TraceInstGenerator.reader branchesReader) branches .ok id {}
      { mavis := uopMavis } {} 0 vsetDispatch {} vsetUnits := by
  have heval : (cpuOps.foldlM (Run.traced
        (Cpu.step (JSONInstGenerator.reader branches) .ok {} { mavis := uopMavis } {}
          vsetDispatch {} vsetUnits) (Cpu.obs { mavis := uopMavis } {} vsetDispatch {} vsetUnits))
        ([], Cpu.init (JSONInstGenerator.reader branches) {} 0)).toOption.map (fun hs =>
          (hs.2.calls.returned.map GeneratedInst.uniqueId, (DecodeCore.retiredOf hs.1).map
            (fun ri => (ri.inst.uniqueId, ri.inst.programId)))) =
      some ([1, 2, 3], [(1, 1), (3, 2)]) := by
    decide +kernel
  obtain ⟨⟨hist, s⟩, hrun, hval⟩ := Run.ok_of_eval heval
  obtain ⟨hreturned, hretired⟩ := Prod.mk.inj hval
  obtain ⟨hjson, hstf⟩ := trace_retires_in_order branches .ok branchesReader branches id
    branchesReader_reads .ok {} { mavis := uopMavis } {} 0 vsetDispatch {} vsetUnits
    uopMavis_makesUops
  exact ⟨⟨hist, s, hrun, hreturned, hretired, hjson.retires cpuOps hist s hrun⟩, hstf⟩

end Olympia
