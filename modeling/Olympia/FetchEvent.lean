import Olympia.FetchOrder
import Olympia.Lib.Event

/-!
# The events of Fetch

Fetch with `ev_fetch_insts` and `ev_send_insts`, among answers and credits of any instruction
cache, credits of any Decode, and flushes, in any order.  Both events are
`SingleCycleUniqueEvent`s.  The generator is the list of what it still returns; a flush resets it.

Nothing polls: each handler schedules an event only where it sees that there may be work, and
leaves the rest to whoever brings the work.  `FetchUnit.Wakes` says that this is enough.  If the
front of the fetch buffer could be sent, `ev_send_insts` is scheduled.  If the fetch buffer is
empty and there is an instruction to request and a credit for it, `ev_fetch_insts` is.  The one
exception is a wakeup that comes after its event has run in the cycle.
-/

namespace Olympia

namespace Fetch

/-- `upper` in `sendInstructions_`. -/
def upper (p : FetchParams) (s : FetchState) : ℕ :=
  min s.creditsInstQueue (min p.numToFetch s.fetchBuffer.length)

/-- `fetchInstruction_` schedules its event again, if it has requested a block and is left in this
state. -/
def fetchesAgain (p : FetchParams) (s : FetchState) : Bool :=
  s.ibuf.length ≠ 0 && 0 < s.creditsIcache && s.fetchBufferOccupancy < p.fetchBufferSize

/-- `sendInstructions_` schedules its event again, if it is left in this state. -/
def sendsAgain (s : FetchState) : Bool := s.fetchBuffer.length ≠ 0 && 0 < s.creditsInstQueue

theorem sendLoop_creditsIcache (T : InstTable) : ∀ (n : ℕ) (s : FetchState) (insts : List Inst),
    (sendLoop T n s insts).1.creditsIcache = s.creditsIcache
  | 0, _, _ => rfl
  | n + 1, s, insts => by
    unfold sendLoop
    rcases s.fetchBuffer with _ | ⟨entry, rest⟩
    · rfl
    · dsimp only
      split
      · rfl
      · split
        · rfl
        · split
          · rfl
          · exact sendLoop_creditsIcache T n _ _

theorem sendInstructions_creditsIcache (p : FetchParams) (s : FetchState) (T : InstTable) :
    (sendInstructions p s T).1.creditsIcache = s.creditsIcache := by
  unfold sendInstructions
  dsimp only
  split
  · rfl
  · exact sendLoop_creditsIcache T _ s []

end Fetch

structure FetchUnit where
  fetch : FetchState := {}
  table : InstTable := ⟨fun _ => .beforeFetch, fun _ => false⟩
  /-- scheduled by `initialize_` -/
  evFetch : SingleCycleEvent := { next := true }
  evSend : SingleCycleEvent := {}
  /-- `unique_id_` of the generator -/
  uniqueId : ℕ := 0
  /-- what the generator returns from here on -/
  trace : List FetchEntry
  /-- the fetch groups of the requests, in their order -/
  groups : List (List Inst) := []
  /-- what the generator has returned and returns since the last flush -/
  program : List FetchEntry
  /-- what has been sent to Decode since the last flush -/
  sent : List Inst := []

inductive FetchUnitOp where
  | fetch
  | send
  /-- the cache answers a request -/
  | cacheResponse (r : ℕ) (hit : Bool)
  | cacheCredit (credits : ℕ)
  | credits (n : ℕ)
  /-- `flushFetch_`, and what the generator returns after its reset -/
  | flush (trace : List FetchEntry)
  | nextCycle

namespace FetchUnit

def init (trace : List FetchEntry) : FetchUnit := { trace := trace, program := trace }

/-- What `fetchInstruction_` reads from the generator. -/
def read (p : FetchParams) (s : FetchUnit) : List FetchEntry :=
  s.trace.take (p.ibufCapacity - s.fetch.ibuf.length)

def due (s : FetchUnit) : FetchUnitOp → Bool
  | .fetch => s.evFetch.now
  | .send => s.evSend.now
  | .cacheResponse r _ => r < s.groups.length
  | .cacheCredit _ | .credits _ => true
  | .flush trace => decide (Returned s.uniqueId trace)
  | .nextCycle => !s.evFetch.now && !s.evSend.now

/-- What a step does when it runs. -/
def handle (p : FetchParams) (s : FetchUnit) : FetchUnitOp → FetchUnit
  | .fetch =>
    let out := Fetch.fetchInstruction p s.fetch s.trace
    { s with
      fetch := out.1
      trace := s.trace.drop (p.ibufCapacity - s.fetch.ibuf.length)
      uniqueId := s.uniqueId + (s.read p).length
      groups := if out.2 = [] then s.groups else s.groups ++ [out.2.map FetchEntry.inst]
      evFetch :=
        if out.2 ≠ [] ∧ Fetch.fetchesAgain p out.1 then s.evFetch.fire.scheduleNext
        else s.evFetch.fire }
  | .send =>
    let out := Fetch.sendInstructions p s.fetch s.table
    -- with nothing to send or no credit it returns at once
    { s with
      fetch := out.1
      sent := s.sent ++ out.2
      evSend :=
        if Fetch.upper p s.fetch ≠ 0 ∧ Fetch.sendsAgain out.1 then s.evSend.fire.scheduleNext
        else s.evSend.fire
      evFetch := if Fetch.upper p s.fetch = 0 then s.evFetch else s.evFetch.scheduleNext }
  | .cacheResponse r hit =>
    { s with
      table := Fetch.receiveCacheResponse s.table (s.groups[r]?.getD []) hit
      evSend := if hit then s.evSend.scheduleNow else s.evSend }
  | .cacheCredit n =>
    { s with
      fetch := Fetch.receiveCacheCredit s.fetch n
      evFetch := s.evFetch.scheduleNow }
  | .credits n =>
    { s with
      fetch := Fetch.receiveFetchQueueCredits s.fetch n
      evSend := s.evSend.scheduleNow }
  | .flush trace =>
    { s with
      fetch := Fetch.flushFetch s.fetch
      evFetch := s.evFetch.scheduleNext
      trace := trace
      program := trace
      sent := [] }
  | .nextCycle =>
    { s with
      evFetch := s.evFetch.nextCycle
      evSend := s.evSend.nextCycle }

def step (p : FetchParams) (s : FetchUnit) (op : FetchUnitOp) : Except Stop FetchUnit := do
  enabled (s.due op)
  return s.handle p op

variable {p : FetchParams} {s s' : FetchUnit} {op : FetchUnitOp}

theorem step_eq_ok : s.step p op = .ok s' ↔ s.due op = true ∧ s.handle p op = s' := by
  unfold step
  rw [Run.bind_eq_ok]
  constructor
  · rintro ⟨u, hen, h⟩
    exact ⟨enabled_eq_ok.mp hen, Except.ok.inj h⟩
  · rintro ⟨hdue, rfl⟩
    exact ⟨(), enabled_eq_ok.mpr hdue, rfl⟩

/-! ## The instructions -/

/-- The numbers of the instructions in the requests and in `ibuf_`, oldest first. -/
def ids (s : FetchUnit) : List ℕ :=
  (s.groups.flatten ++ s.fetch.ibuf.map FetchEntry.inst).map Inst.uniqueId

/-- The instructions of the buffers and the trace, as Fetch sends them. -/
def toSend (s : FetchUnit) : List Inst :=
  FetchSystem.asSent ((s.fetch.fetchBuffer ++ s.fetch.ibuf ++ s.trace).map FetchEntry.inst)

structure Tracked (s : FetchUnit) : Prop where
  stream : s.sent ++ s.toSend = FetchSystem.asSent (s.program.map FetchEntry.inst)
  returned : Returned s.uniqueId s.trace
  ordered : s.ids.Pairwise (· < ·)
  below : ∀ x ∈ s.ids, x ≤ s.uniqueId
  fetched : ∀ k, s.table.status k = .fetched → k ∈ s.groups.flatten.map Inst.key
  buffer : ∀ e ∈ s.fetch.fetchBuffer, e.inst ∈ s.groups.flatten

@[simp] theorem handle_fetch_sent : (s.handle p .fetch).sent = s.sent := rfl

@[simp] theorem handle_fetch_program : (s.handle p .fetch).program = s.program := rfl

@[simp] theorem handle_fetch_trace : (s.handle p .fetch).trace =
    s.trace.drop (p.ibufCapacity - s.fetch.ibuf.length) := rfl

@[simp] theorem handle_send_program : (s.handle p .send).program = s.program := rfl

@[simp] theorem handle_send_trace : (s.handle p .send).trace = s.trace := rfl

/-- `fetchInstruction_` reads, and requests the first block or not. -/
theorem handle_fetch (p : FetchParams) (s : FetchUnit) {f : FetchState}
    (hf : (s.handle p .fetch).fetch = f) :
    (Fetch.requests p s.fetch s.trace = false ∧ f.ibuf = s.fetch.ibuf ++ s.read p ∧
      f.fetchBuffer = s.fetch.fetchBuffer ∧ f.creditsIcache = s.fetch.creditsIcache ∧
      (s.handle p .fetch).groups = s.groups) ∨
    (Fetch.requests p s.fetch s.trace = true ∧ ∃ block, block ≠ [] ∧
      block ++ f.ibuf = s.fetch.ibuf ++ s.read p ∧
      f.fetchBuffer = s.fetch.fetchBuffer ++ Fetch.markLast block ∧
      f.creditsIcache = u32Sub s.fetch.creditsIcache 1 ∧
      (s.handle p .fetch).groups = s.groups ++ [block.map FetchEntry.inst]) := by
  subst hf
  simp only [handle]
  rcases Fetch.fetchInstruction_cases p s.fetch s.trace with ⟨hreq, h⟩ | ⟨hreq, hne, h⟩
  · rw [h]
    exact .inl ⟨hreq, rfl, rfl, rfl, rfl⟩
  · obtain ⟨hsplit, hblock, -⟩ := Fetch.splitBlock_spec p (Fetch.refilled p s.fetch s.trace)
    rw [h]
    exact .inr ⟨hreq, _, hblock hne, hsplit, rfl, rfl, if_neg (hblock hne)⟩

/-- `sendInstructions_` takes a group from the front of the fetch buffer. -/
theorem handle_send (p : FetchParams) (s : FetchUnit) {f : FetchState}
    (hf : (s.handle p .send).fetch = f) :
    f.ibuf = s.fetch.ibuf ∧ f.creditsIcache = s.fetch.creditsIcache ∧
    (Fetch.upper p s.fetch = 0 → f = s.fetch) ∧
    ∃ group, s.fetch.fetchBuffer = group ++ f.fetchBuffer ∧
      (s.handle p .send).sent = s.sent ++ FetchSystem.asSent (group.map FetchEntry.inst) := by
  subst hf
  simp only [handle]
  have hcredits := Fetch.sendInstructions_creditsIcache p s.fetch s.table
  obtain ⟨group, hsplit, hibuf, hinsts, -⟩ :=
    Fetch.sendInstructions_group (Prod.eta (Fetch.sendInstructions p s.fetch s.table)).symm
  refine ⟨hibuf, hcredits, fun hupper => ?_, group, hsplit, ?_⟩
  · exact congrArg Prod.fst (if_pos hupper)
  · rw [hinsts, FetchSystem.asSent, List.map_map]
    rfl

namespace Tracked

theorem init {trace : List FetchEntry} (htrace : Returned 0 trace) : Tracked (init trace) :=
  ⟨rfl, htrace, .nil, fun _ hx => absurd hx List.not_mem_nil, fun _ hk => (by cases hk),
    fun _ he => absurd he List.not_mem_nil⟩

/-- What is read is numbered from `unique_id_` on. -/
theorem read_ids (H : Tracked s) (p : FetchParams) :
    ((s.read p).map FetchEntry.inst).map Inst.uniqueId =
      List.range' (s.uniqueId + 1) (s.read p).length := by
  rw [List.map_map]
  exact (H.returned.take _).numbers

/-- The numbers in the requests and in `ibuf_` after it has been filled. -/
theorem refilled_ids (H : Tracked s) (p : FetchParams) :
    ((s.groups.flatten ++ (s.fetch.ibuf ++ s.read p).map FetchEntry.inst).map
      Inst.uniqueId).Pairwise (· < ·) ∧
    ∀ x ∈ (s.groups.flatten ++ (s.fetch.ibuf ++ s.read p).map FetchEntry.inst).map Inst.uniqueId,
      x ≤ s.uniqueId + (s.read p).length := by
  have hids : (s.groups.flatten ++ (s.fetch.ibuf ++ s.read p).map FetchEntry.inst).map
      Inst.uniqueId = s.ids ++ List.range' (s.uniqueId + 1) (s.read p).length := by
    rw [List.map_append, List.map_append, List.map_append, H.read_ids, ids, List.map_append,
      List.append_assoc]
  rw [hids]
  refine ⟨List.pairwise_append.mpr ⟨H.ordered, List.pairwise_lt_range', fun x hx y hy => ?_⟩,
    fun x hx => ?_⟩
  · have hle := H.below x hx
    have hlt := (List.mem_range'_1.mp hy).1
    omega
  · rcases List.mem_append.mp hx with hx | hx
    · have hle := H.below x hx
      omega
    · have hlt := (List.mem_range'_1.mp hx).2
      omega

/-- What has not been requested has not been fetched. -/
theorem not_fetched (H : Tracked s) (p : FetchParams) {e : FetchEntry}
    (he : e ∈ s.fetch.ibuf ++ s.read p) : s.table.status e.inst.key ≠ .fetched := by
  intro hfetched
  obtain ⟨i, hi, hkey⟩ := List.mem_map.mp (H.fetched _ hfetched)
  have hordered := (H.refilled_ids p).1
  rw [List.map_append, List.pairwise_append] at hordered
  have hlt := hordered.2.2 _ (List.mem_map_of_mem hi) _
    (List.mem_map_of_mem (List.mem_map_of_mem he))
  have hid : i.uniqueId = e.inst.uniqueId := congrArg Prod.fst hkey
  omega

/-- The trace after a read. -/
theorem drop_returned (H : Tracked s) (p : FetchParams) :
    Returned (s.uniqueId + (s.read p).length)
      (s.trace.drop (p.ibufCapacity - s.fetch.ibuf.length)) := by
  refine ⟨?_, fun e he => H.returned.unmarked e (List.mem_of_mem_drop he)⟩
  rw [List.map_drop, H.returned.numbers, List.drop_range', read, List.length_take,
    List.length_drop]
  rcases Nat.le_total (p.ibufCapacity - s.fetch.ibuf.length) s.trace.length with hle | hle
  · rw [Nat.min_eq_left hle]
    congr 1
    omega
  · rw [Nat.sub_eq_zero_of_le hle]
    rfl

theorem fetch (H : Tracked s) : Tracked (s.handle p .fetch) := by
  have hread : s.read p ++ s.trace.drop (p.ibufCapacity - s.fetch.ibuf.length) = s.trace :=
    List.take_append_drop _ _
  have hstream := H.stream
  rw [toSend, ← hread] at hstream
  obtain ⟨hordered, hbelow⟩ := H.refilled_ids p
  rcases handle_fetch p s rfl with ⟨-, hibuf, hbuf, -, hgroups⟩ |
    ⟨-, block, -, hsplit, hbuf, -, hgroups⟩
  · rw [← hibuf, ← hgroups] at hordered hbelow
    refine ⟨?_, H.drop_returned p, hordered, hbelow, ?_, ?_⟩
    · rw [toSend, hibuf, hbuf]
      simpa using hstream
    · rw [hgroups]
      exact H.fetched
    · rw [hgroups, hbuf]
      exact H.buffer
  · have hflatten : (s.handle p .fetch).groups.flatten =
        s.groups.flatten ++ block.map FetchEntry.inst := by
      rw [hgroups]
      simp
    have hids : (s.handle p .fetch).groups.flatten ++
        (s.handle p .fetch).fetch.ibuf.map FetchEntry.inst =
        s.groups.flatten ++ (s.fetch.ibuf ++ s.read p).map FetchEntry.inst := by
      rw [hflatten, List.append_assoc, ← List.map_append, hsplit]
    rw [← hids] at hordered hbelow
    refine ⟨?_, H.drop_returned p, hordered, hbelow, fun k hk => ?_, fun e he => ?_⟩
    · rw [List.append_assoc, ← List.append_assoc s.fetch.ibuf, ← hsplit] at hstream
      rw [toSend, hbuf]
      simpa using hstream
    · rw [hflatten, List.map_append]
      exact List.mem_append_left _ (H.fetched k hk)
    · rw [hflatten]
      rw [hbuf] at he
      rcases List.mem_append.mp he with he | he
      · exact List.mem_append_left _ (H.buffer e he)
      · have hmem := List.mem_map_of_mem (f := FetchEntry.inst) he
        rw [Fetch.markLast_map_inst] at hmem
        exact List.mem_append_right _ hmem

theorem send (H : Tracked s) : Tracked (s.handle p .send) := by
  obtain ⟨hibuf, -, -, group, hsplit, hsent⟩ := handle_send p s rfl
  have hids : (s.handle p .send).ids = s.ids := by
    unfold ids
    rw [hibuf]
    rfl
  refine ⟨?_, H.returned, ?_, ?_, H.fetched, fun e he => H.buffer e ?_⟩
  · have hstream := H.stream
    rw [toSend, hsplit] at hstream
    rw [toSend, hsent, hibuf]
    simpa using hstream
  · rw [hids]
    exact H.ordered
  · rw [hids]
    exact H.below
  · rw [hsplit]
    exact List.mem_append_right _ he

theorem cacheResponse {r : ℕ} {hit : Bool} (H : Tracked s) :
    Tracked (s.handle p (.cacheResponse r hit)) := by
  refine ⟨H.stream, H.returned, H.ordered, H.below, fun k hk => ?_, H.buffer⟩
  cases hit with
  | false => exact H.fetched k hk
  | true =>
    have hk' : (if k ∈ (s.groups[r]?.getD []).map Inst.key then InstStatus.fetched
        else s.table.status k) = .fetched := hk
    split at hk'
    · rename_i hmem
      rcases hgroup : s.groups[r]? with _ | group
      · simp [hgroup] at hmem
      · rw [hgroup] at hmem
        exact (List.sublist_flatten_of_mem (List.mem_of_getElem? hgroup)).map Inst.key
          |>.subset hmem
    · exact H.fetched k hk'

theorem flush {trace : List FetchEntry} (H : Tracked s) (htrace : Returned s.uniqueId trace) :
    Tracked (s.handle p (.flush trace)) := by
  have hsub : (s.handle p (.flush trace)).ids.Sublist s.ids :=
    ((List.nil_sublist _).append_left _).map Inst.uniqueId
  exact ⟨rfl, htrace, H.ordered.sublist hsub, fun x hx => H.below x (hsub.subset hx), H.fetched,
    fun _ he => absurd he List.not_mem_nil⟩

theorem step (H : Tracked s) (hstep : s.step p op = .ok s') : Tracked s' := by
  obtain ⟨hdue, rfl⟩ := step_eq_ok.mp hstep
  cases op with
  | fetch => exact H.fetch
  | send => exact H.send
  | cacheResponse r hit => exact H.cacheResponse
  | cacheCredit n => exact ⟨H.stream, H.returned, H.ordered, H.below, H.fetched, H.buffer⟩
  | credits n => exact ⟨H.stream, H.returned, H.ordered, H.below, H.fetched, H.buffer⟩
  | flush trace => exact H.flush (of_decide_eq_true hdue)
  | nextCycle => exact ⟨H.stream, H.returned, H.ordered, H.below, H.fetched, H.buffer⟩

end Tracked

/-! ## The wakeups -/

/-- Fetch is not asleep while it has work that it can do. -/
structure Wakes (s : FetchUnit) : Prop where
  send : ∀ e ∈ s.fetch.fetchBuffer.head?, s.table.status e.inst.key = .fetched →
    s.fetch.creditsInstQueue ≠ 0 → s.evSend.Awake
  fetch : s.fetch.fetchBuffer = [] → s.fetch.creditsIcache ≠ 0 →
    ¬(s.fetch.ibuf = [] ∧ s.trace = []) → s.evFetch.Awake

namespace Wakes

theorem init {trace : List FetchEntry} : Wakes (init trace) :=
  ⟨fun _ he => (by cases he), fun _ hne => absurd rfl hne⟩

theorem fetch_step (W : Wakes s) (H : Tracked s) (hcap : 0 < p.ibufCapacity) :
    Wakes (s.handle p .fetch) := by
  have hinst : (s.handle p .fetch).fetch.creditsInstQueue = s.fetch.creditsInstQueue :=
    Fetch.fetchInstruction_creditsInstQueue p s.fetch s.trace
  rcases handle_fetch p s rfl with ⟨hreq, hibuf, hbuf, hcredits, -⟩ |
    ⟨-, block, hne, hsplit, hbuf, -, -⟩
  · refine ⟨?_, fun hempty hcredit hwork => absurd hreq ?_⟩
    · rw [hbuf, hinst]
      exact W.send
    -- with a credit, and room, it returns early only if there is nothing to request
    rw [hbuf] at hempty
    rw [hcredits] at hcredit
    have hrefilled : Fetch.refilled p s.fetch s.trace ≠ [] := by
      intro hnil
      obtain ⟨hzero, hread⟩ := List.append_eq_nil_iff.mp hnil
      rcases List.take_eq_nil_iff.mp hread with hcapacity | htrace
      · rw [hzero, List.length_nil] at hcapacity
        omega
      · refine hwork ⟨hibuf.trans hnil, ?_⟩
        show s.trace.drop _ = []
        rw [htrace, List.drop_nil]
    simp [Fetch.requests, hempty, hcredit, hrefilled]
  · have hmark : Fetch.markLast block ≠ [] := by
      intro hnil
      have hmap := Fetch.markLast_map_inst block
      rw [hnil] at hmap
      exact hne (List.map_eq_nil_iff.mp hmap.symm)
    refine ⟨fun e he hfetched hcredit => ?_, fun hempty => ?_⟩
    · rw [hbuf] at he
      rw [hinst] at hcredit
      rcases hold : s.fetch.fetchBuffer with _ | ⟨e₀, buf⟩
      · -- the front is new
        rw [hold, List.nil_append] at he
        have hmem := List.mem_map_of_mem (f := FetchEntry.inst) (List.mem_of_mem_head? he)
        rw [Fetch.markLast_map_inst] at hmem
        obtain ⟨x, hx, hxe⟩ := List.mem_map.mp hmem
        rw [← hxe] at hfetched
        exact absurd hfetched (H.not_fetched p (hsplit ▸ List.mem_append_left _ hx))
      · rw [hold, List.cons_append] at he
        have hfront : e ∈ s.fetch.fetchBuffer.head? := by
          rw [hold]
          exact he
        exact W.send e hfront hfetched hcredit
    · rw [hbuf] at hempty
      exact absurd (List.append_eq_nil_iff.mp hempty).2 hmark

theorem send_step (W : Wakes s) (hnum : 0 < p.numToFetch) : Wakes (s.handle p .send) := by
  obtain ⟨-, -, hsame, -⟩ := handle_send p s rfl
  by_cases hupper : Fetch.upper p s.fetch = 0
  · have hevFetch : (s.handle p .send).evFetch = s.evFetch := if_pos hupper
    have hfetch := W.fetch
    refine ⟨fun e he _ hcredit => absurd hupper ?_, ?_⟩
    · rw [hsame hupper] at he hcredit
      have hlen : s.fetch.fetchBuffer.length ≠ 0 := by
        intro hzero
        rw [List.length_eq_zero_iff.mp hzero] at he
        cases he
      unfold Fetch.upper
      omega
    · rw [hsame hupper, hevFetch]
      exact hfetch
  · have hevFetch : (s.handle p .send).evFetch = s.evFetch.scheduleNext := if_neg hupper
    refine ⟨fun e he _ hcredit => ?_, fun _ _ _ => ?_⟩
    · have hbuf : (s.handle p .send).fetch.fetchBuffer ≠ [] := by
        intro hnil
        rw [hnil] at he
        cases he
      have hagain : Fetch.sendsAgain (s.handle p .send).fetch = true := by
        simp [Fetch.sendsAgain, hbuf, Nat.pos_of_ne_zero hcredit]
      have hevSend : (s.handle p .send).evSend = s.evSend.fire.scheduleNext :=
        if_pos ⟨hupper, hagain⟩
      rw [hevSend]
      exact SingleCycleEvent.awake_scheduleNext
    · rw [hevFetch]
      exact SingleCycleEvent.awake_scheduleNext

theorem step (W : Wakes s) (H : Tracked s) (hnum : 0 < p.numToFetch) (hcap : 0 < p.ibufCapacity)
    (hstep : s.step p op = .ok s') : Wakes s' := by
  obtain ⟨hdue, rfl⟩ := step_eq_ok.mp hstep
  cases op with
  | fetch => exact W.fetch_step H hcap
  | send => exact W.send_step hnum
  | cacheResponse r hit =>
    cases hit with
    | false => exact ⟨W.send, W.fetch⟩
    | true => exact ⟨fun _ _ _ _ => SingleCycleEvent.awake_scheduleNow, W.fetch⟩
  | cacheCredit n => exact ⟨W.send, fun _ _ _ => SingleCycleEvent.awake_scheduleNow⟩
  | credits n => exact ⟨fun _ _ _ _ => SingleCycleEvent.awake_scheduleNow, W.fetch⟩
  | flush trace =>
    exact ⟨fun _ he => (by cases he), fun _ _ _ => SingleCycleEvent.awake_scheduleNext⟩
  | nextCycle =>
    simp only [due, Bool.and_eq_true, Bool.not_eq_true'] at hdue
    exact ⟨fun e he hfetched hcredit => (W.send e he hfetched hcredit).nextCycle hdue.2,
      fun hempty hcredit hwork => (W.fetch hempty hcredit hwork).nextCycle hdue.1⟩

end Wakes

theorem of_reachable (hnum : 0 < p.numToFetch) (hcap : 0 < p.ibufCapacity)
    {trace : List FetchEntry} (htrace : Returned 0 trace)
    (h : Run.Reachable (step p) (FetchUnit.init trace) s) : Tracked s ∧ Wakes s :=
  h.invariant (I := fun s => Tracked s ∧ Wakes s) ⟨.init htrace, .init⟩ fun _ _ _ ⟨H, W⟩ hstep =>
    ⟨H.step hstep, W.step H hnum hcap hstep⟩

end FetchUnit

/-- In every state that Fetch reaches with its events, whatever the cache and Decode do and
whenever it is flushed: what has been sent since the last flush and what is in the buffers and the
trace is what the generator returns, in its order.  And unless an event is scheduled, or its last
wakeup came after it had run in the cycle, there is nothing for it to do: the front of the fetch
buffer cannot be sent, and if the buffer is empty, nothing can be requested. -/
theorem fetch_not_asleep (p : FetchParams) (hnum : 0 < p.numToFetch) (hcap : 0 < p.ibufCapacity)
    {trace : List FetchEntry} (htrace : Returned 0 trace) {s : FetchUnit}
    (h : Run.Reachable (FetchUnit.step p) (FetchUnit.init trace) s) :
    s.sent ++ s.toSend = FetchSystem.asSent (s.program.map FetchEntry.inst) ∧
    (¬s.evSend.Awake → s.fetch.creditsInstQueue = 0 ∨
      ∀ e ∈ s.fetch.fetchBuffer.head?, s.table.status e.inst.key ≠ .fetched) ∧
    (¬s.evFetch.Awake → s.fetch.creditsIcache = 0 ∨ s.fetch.fetchBuffer ≠ [] ∨
      (s.fetch.ibuf = [] ∧ s.trace = [])) := by
  obtain ⟨H, W⟩ := FetchUnit.of_reachable hnum hcap htrace h
  refine ⟨H.stream, fun hsleep => ?_, fun hsleep => ?_⟩
  · by_contra hwork
    push Not at hwork
    obtain ⟨hcredit, e, he, hfetched⟩ := hwork
    exact hsleep (W.send e he hfetched hcredit)
  · by_contra hwork
    push Not at hwork
    obtain ⟨hcredit, hempty, hmore⟩ := hwork
    exact hsleep (W.fetch hempty hcredit fun hnone => hmore hnone.1 hnone.2)

/-- The first block is requested, after an event that has found nothing to send. -/
def requestedOps : List FetchUnitOp :=
  [.cacheCredit 2, .credits 4, .send, .fetch]

theorem fetch_not_asleep_sample :
    ∃ s, requestedOps.foldlM (FetchUnit.step {}) (FetchUnit.init branchTrace) = .ok s ∧
      s.fetch.creditsInstQueue = 4 ∧ s.fetch.fetchBuffer.map (fun e => e.inst.uniqueId) = [1, 2] ∧
      ∀ e ∈ s.fetch.fetchBuffer.head?, s.table.status e.inst.key ≠ .fetched := by
  have heval : (requestedOps.foldlM (FetchUnit.step {})
      (FetchUnit.init branchTrace)).toOption.map (fun s => (s.fetch.creditsInstQueue,
        s.fetch.fetchBuffer.map (fun e => e.inst.uniqueId), decide s.evSend.Awake)) =
        some (4, [1, 2], false) := by
    decide +kernel
  obtain ⟨s, hs, hval⟩ := Run.ok_of_eval heval
  simp only [Prod.mk.injEq] at hval
  obtain ⟨hcredits, hbuf, hasleep⟩ := hval
  obtain ⟨-, hsend, -⟩ := fetch_not_asleep {} (by decide) (by decide) (by decide) ⟨_, hs⟩
  rcases hsend (of_decide_eq_false hasleep) with hzero | hfront
  · omega
  · exact ⟨s, hs, hcredits, hbuf, hfront⟩

end Olympia
