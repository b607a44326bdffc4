import Mathlib.Data.List.Chain
import Mathlib.Data.List.DropRight
import Mathlib.Data.List.ModifyLast
import Olympia.Fetch

/-!
# What Fetch delivers

Fetch between the generator of instructions, the instruction cache and Decode.  The generator
returns any instructions, numbered by its `unique_id_`; the cache answers its requests in any
order, each with misses and at last a hit, also after a flush; credits and flushes come at any
time.

An instruction passes through `ibuf_` and the fetch buffer.  A run carries the history of what
the generator has returned, what the cache has answered and what has been sent, and
`FetchSystem.Inv` says that since the last flush the instructions returned are those sent and
those in the two buffers, in this order.

The groups are made by a test on neighbours.  `Fetch.splitBlock_spec` and
`Fetch.sendInstructions_group` give the chains of this test, and `OneBlock` and `OneFlow` what
they mean for a whole group.
-/

namespace Olympia

/-! ## Groups -/

/-- A taken branch only at the end, a change of flow only at the front. -/
structure OneFlow (group : List FetchEntry) : Prop where
  taken_last : ∀ l₁ e l₂, group = l₁ ++ e :: l₂ → e.isTakenBranch = true → l₂ = []
  cof_first : ∀ l₁ e l₂, group = l₁ ++ e :: l₂ → e.isCoF = true → l₁ = []

/-- All instructions are in one block of the instruction cache. -/
def OneBlock (p : FetchParams) (group : List FetchEntry) : Prop :=
  ∀ e ∈ group, ∀ e' ∈ group, e.pc >>> p.icacheBlockShift = e'.pc >>> p.icacheBlockShift

/-- Neighbours in a group: the flow of control does not change between them. -/
def Flows (e e' : FetchEntry) : Prop := e.isTakenBranch = false ∧ e'.isCoF = false

theorem OneFlow.of_chain {group : List FetchEntry} (h : group.IsChain Flows) : OneFlow group := by
  constructor
  · rintro l₁ e l₂ rfl htaken
    rcases l₂ with _ | ⟨e', l₂⟩
    · rfl
    · obtain ⟨-, hflows, -⟩ := List.isChain_append_cons_cons.mp h
      rw [hflows.1] at htaken
      cases htaken
  · rintro l₁ e l₂ rfl hcof
    rcases List.eq_nil_or_concat l₁ with rfl | ⟨l₁, e', rfl⟩
    · rfl
    · rw [List.concat_eq_append, List.append_assoc, List.singleton_append] at h
      obtain ⟨-, hflows, -⟩ := List.isChain_append_cons_cons.mp h
      rw [hflows.2] at hcof
      cases hcof

namespace Fetch

/-- The block is the front of the buffer, and not empty, and the test on neighbours finds no
boundary in it. -/
theorem splitBlock_spec (p : FetchParams) : ∀ ibuf : List FetchEntry,
    (splitBlock p ibuf).1 ++ (splitBlock p ibuf).2 = ibuf ∧
      (ibuf ≠ [] → (splitBlock p ibuf).1 ≠ []) ∧
      (splitBlock p ibuf).1.IsChain (fun e e' => differentBlocks p e e' = false)
  | [] => ⟨rfl, fun h => absurd rfl h, .nil⟩
  | [e] => ⟨rfl, fun _ => List.cons_ne_nil _ _, .singleton _⟩
  | e :: e' :: rest => by
    unfold splitBlock
    by_cases hdiff : differentBlocks p e e' = true
    · rw [if_pos hdiff]
      exact ⟨rfl, fun _ => List.cons_ne_nil _ _, .singleton _⟩
    · rw [if_neg hdiff]
      obtain ⟨happ, -, hchain⟩ := splitBlock_spec p (e' :: rest)
      refine ⟨congrArg (e :: ·) happ, fun _ => List.cons_ne_nil _ _, ?_⟩
      -- the block goes on with the neighbour that was tested
      refine List.isChain_cons.mpr ⟨fun y hy => ?_, hchain⟩
      have hfront : (splitBlock p (e' :: rest)).1.head? = some e' := by
        rcases rest with _ | ⟨e'', rest⟩
        · rfl
        · unfold splitBlock
          split <;> rfl
      rw [hfront] at hy
      obtain rfl := Option.some.inj hy
      simpa using hdiff

theorem oneFlow_of_block {p : FetchParams} {block : List FetchEntry}
    (h : block.IsChain (fun e e' => differentBlocks p e e' = false)) : OneFlow block := by
  refine .of_chain (h.imp fun e e' hdiff => ?_)
  simp only [differentBlocks, Bool.or_eq_false_iff] at hdiff
  exact ⟨hdiff.1.2, hdiff.2⟩

theorem oneBlock_of_block {p : FetchParams} {block : List FetchEntry}
    (h : block.IsChain (fun e e' => differentBlocks p e e' = false)) : OneBlock p block := by
  have hpcs : (block.map fun e => e.pc >>> p.icacheBlockShift).IsChain (· = ·) := by
    refine List.isChain_map_of_isChain _ (fun e e' hdiff => ?_) h
    simp only [differentBlocks, Bool.or_eq_false_iff] at hdiff
    simpa using hdiff.1.1
  rcases block with _ | ⟨e₀, rest⟩
  · intro e he
    cases he
  · rw [List.map_cons, List.isChain_cons_eq_iff_eq_replicate] at hpcs
    have hall : ∀ e ∈ e₀ :: rest, e.pc >>> p.icacheBlockShift = e₀.pc >>> p.icacheBlockShift := by
      intro e he
      rcases List.mem_cons.mp he with rfl | he
      · rfl
      · have hmem := List.mem_map_of_mem (f := fun e => e.pc >>> p.icacheBlockShift) he
        rw [hpcs] at hmem
        exact List.eq_of_mem_replicate hmem
    intro e he e' he'
    rw [hall e he, hall e' he']

/-- What the loop of `sendInstructions_` takes from the fetch buffer: fetched instructions
between which the flow of control does not change. -/
theorem sendLoop_group {T : InstTable} : ∀ (n : ℕ) {s s' : FetchState} {insts insts' : List Inst},
    sendLoop T n s insts = (s', insts') →
    ∃ group, s.fetchBuffer = group ++ s'.fetchBuffer ∧ s'.ibuf = s.ibuf ∧
      insts' = insts ++ group.map (fun e => e.inst.setSpeculative false) ∧
      (∀ e ∈ group, T.status e.inst.key = .fetched) ∧ group.IsChain Flows ∧
      (insts ≠ [] → ∀ e ∈ group.head?, e.isCoF = false)
  | 0, s, s', insts, insts', h => by
    obtain ⟨rfl, rfl⟩ := Prod.mk.inj h
    exact ⟨[], rfl, rfl, by simp, by simp, .nil, by simp⟩
  | n + 1, s, s', insts, insts', h => by
    unfold sendLoop at h
    split at h
    · obtain ⟨rfl, rfl⟩ := Prod.mk.inj h
      exact ⟨[], rfl, rfl, by simp, by simp, .nil, by simp⟩
    · rename_i entry rest hbuf
      split at h
      · obtain ⟨rfl, rfl⟩ := Prod.mk.inj h
        exact ⟨[], rfl, rfl, by simp, by simp, .nil, by simp⟩
      · rename_i hfetched
        split at h
        · obtain ⟨rfl, rfl⟩ := Prod.mk.inj h
          exact ⟨[], rfl, rfl, by simp, by simp, .nil, by simp⟩
        · rename_i hcof
          have hfirst : insts ≠ [] → entry.isCoF = false := by
            intro hne
            by_contra hc
            exact hcof ⟨by simpa using hc, hne⟩
          dsimp only at h
          split at h
          · obtain ⟨rfl, rfl⟩ := Prod.mk.inj h
            refine ⟨[entry], hbuf, rfl, rfl, by simpa using hfetched, .singleton _, ?_⟩
            intro hne e he
            obtain rfl := Option.some.inj he
            exact hfirst hne
          · rename_i htaken
            obtain ⟨group, hsplit, hibuf, hinsts, hall, hchain, hhead⟩ := sendLoop_group n h
            refine ⟨entry :: group, ?_, hibuf, ?_, ?_, ?_, ?_⟩
            · rw [hbuf, List.cons_append]
              exact congrArg (entry :: ·) hsplit
            · rw [hinsts, List.map_cons, List.append_assoc, List.singleton_append]
            · intro e he
              rcases List.mem_cons.mp he with rfl | he
              · exact not_not.mp hfetched
              · exact hall e he
            · refine List.isChain_cons.mpr ⟨fun e he => ?_, hchain⟩
              exact ⟨by simpa using htaken, hhead (by simp) e he⟩
            · intro hne e he
              obtain rfl := Option.some.inj he
              exact hfirst hne

/-- The group `sendInstructions_` sends is the front of the fetch buffer. -/
theorem sendInstructions_group {p : FetchParams} {s s' : FetchState} {T : InstTable}
    {insts : List Inst} (h : sendInstructions p s T = (s', insts)) :
    ∃ group, s.fetchBuffer = group ++ s'.fetchBuffer ∧ s'.ibuf = s.ibuf ∧
      insts = group.map (fun e => e.inst.setSpeculative false) ∧
      group.length ≤ min s.creditsInstQueue p.numToFetch ∧
      (∀ e ∈ group, T.status e.inst.key = .fetched) ∧ OneFlow group := by
  unfold sendInstructions at h
  dsimp only at h
  split at h
  · obtain ⟨rfl, rfl⟩ := Prod.mk.inj h
    exact ⟨[], rfl, rfl, rfl, Nat.zero_le _, by simp, .of_chain .nil⟩
  · rcases hloop : sendLoop T (min s.creditsInstQueue (min p.numToFetch s.fetchBuffer.length)) s []
      with ⟨s₁, insts₁⟩
    rw [hloop] at h
    obtain ⟨rfl, rfl⟩ := Prod.mk.inj h
    obtain ⟨group, hsplit, hibuf, hinsts, hall, hchain, -⟩ := sendLoop_group _ hloop
    refine ⟨group, hsplit, hibuf, by simpa using hinsts, ?_, hall, .of_chain hchain⟩
    have hlen := (sendLoop_spec T
      (min s.creditsInstQueue (min p.numToFetch s.fetchBuffer.length)) s []).1
    rw [hloop, hinsts] at hlen
    simp only [List.nil_append, List.length_map, List.length_nil] at hlen
    omega

/-- `ibuf_` after the loop that fills it. -/
def refilled (p : FetchParams) (s : FetchState) (next : List FetchEntry) : List FetchEntry :=
  s.ibuf ++ next.take (p.ibufCapacity - s.ibuf.length)

/-- `fetchInstruction_` does not return early. -/
def requests (p : FetchParams) (s : FetchState) (next : List FetchEntry) : Bool :=
  s.creditsIcache ≠ 0 && (refilled p s next).length ≠ 0 && s.fetchBuffer.length ≤ p.fetchBufferSize

/-- What `fetchInstruction_` does with what it has read from the trace: nothing, or it requests
the first block and moves it to the fetch buffer. -/
theorem fetchInstruction_cases (p : FetchParams) (s : FetchState) (next : List FetchEntry) :
    (requests p s next = false ∧
      fetchInstruction p s next = ({ s with ibuf := refilled p s next }, [])) ∨
    (requests p s next = true ∧ refilled p s next ≠ [] ∧
      fetchInstruction p s next = ({ s with
        ibuf := (splitBlock p (refilled p s next)).2
        fetchBuffer := s.fetchBuffer ++ markLast (splitBlock p (refilled p s next)).1
        creditsIcache := u32Sub s.creditsIcache 1
        fetchBufferOccupancy := u32Add s.fetchBufferOccupancy 1 },
        (splitBlock p (refilled p s next)).1)) := by
  unfold fetchInstruction
  dsimp only
  split
  · rename_i hstop
    refine .inl ⟨?_, rfl⟩
    by_contra hreq
    simp only [requests, Bool.not_eq_false, Bool.and_eq_true, decide_eq_true_eq, ne_eq,
      List.length_eq_zero_iff] at hreq
    rcases hstop with h | h | h
    · exact hreq.1.1 h
    · exact hreq.1.2 h
    · omega
  · rename_i hgo
    simp only [not_or, not_lt] at hgo
    refine .inr ⟨?_, hgo.2.1, rfl⟩
    simp only [requests, Bool.and_eq_true, decide_eq_true_eq, ne_eq, List.length_eq_zero_iff]
    exact ⟨⟨hgo.1, hgo.2.1⟩, hgo.2.2⟩

@[simp] theorem markLast_map_inst (block : List FetchEntry) :
    (markLast block).map FetchEntry.inst = block.map FetchEntry.inst := by
  rcases List.eq_nil_or_concat block with rfl | ⟨init, e, rfl⟩
  · rfl
  · simp [markLast, List.modifyLast_concat]

end Fetch

/-! ## The system -/

structure FetchSystem where
  phase : Phase := .tick
  fetch : FetchState := {}
  table : InstTable := ⟨fun _ => .beforeFetch, fun _ => false⟩
  /-- `unique_id_` of the generator -/
  uniqueId : ℕ := 0
  /-- the fetch groups of the requests that the cache has not answered with a hit, also of those
  that were flushed -/
  requests : List (List Inst) := []
  /-- the group on the port to Decode -/
  toDecode : List Inst := []

inductive FetchOp where
  /-- `fetchInstruction_`, when `next` is what the generator returns next -/
  | fetch (next : List FetchEntry)
  /-- the cache answers one of the requests -/
  | cacheResponse (n : ℕ) (hit : Bool)
  | cacheCredit (credits : ℕ)
  | send
  | credits (n : ℕ)
  /-- the group arrives at Decode -/
  | deliver
  /-- the flush phase of a cycle, with or without a flush -/
  | flush (c : Option FlushingCriteria)
  | nextCycle

/-- Instructions as the generator returns them: new, and numbered from `unique_id_` on. -/
structure Returned (uniqueId : ℕ) (next : List FetchEntry) : Prop where
  numbers : next.map (fun e => e.inst.uniqueId) = List.range' (uniqueId + 1) next.length
  unmarked : ∀ e ∈ next, e.lastInFetchBlock = false

instance (uniqueId : ℕ) (next : List FetchEntry) : Decidable (Returned uniqueId next) :=
  decidable_of_iff (next.map (fun e => e.inst.uniqueId) = List.range' (uniqueId + 1) next.length ∧
    ∀ e ∈ next, e.lastInFetchBlock = false) ⟨fun h => ⟨h.1, h.2⟩, fun h => ⟨h.1, h.2⟩⟩

theorem Returned.take {uniqueId : ℕ} {next : List FetchEntry} (h : Returned uniqueId next)
    (k : ℕ) : Returned uniqueId (next.take k) := by
  refine ⟨?_, fun e he => h.unmarked e (List.mem_of_mem_take he)⟩
  rw [List.map_take, h.numbers, List.length_take]
  rcases Nat.le_total k next.length with hk | hk
  · rw [List.take_range'_of_length_ge hk, Nat.min_eq_left hk]
  · rw [List.take_range'_of_length_le hk, Nat.min_eq_right hk]

namespace FetchSystem

/-- The instructions `fetchInstruction_` takes from the generator. -/
def read (p : FetchParams) (s : FetchSystem) (next : List FetchEntry) : List FetchEntry :=
  next.take (p.ibufCapacity - s.fetch.ibuf.length)

def step (p : FetchParams) (s : FetchSystem) : FetchOp → Except Stop FetchSystem
  | .fetch next => do
    enabled (s.phase = .tick ∧ Returned s.uniqueId next)
    let (fetch, group) := Fetch.fetchInstruction p s.fetch next
    return { s with
      fetch := fetch
      uniqueId := s.uniqueId + (s.read p next).length
      requests := if group = [] then s.requests else s.requests ++ [group.map FetchEntry.inst] }
  | .cacheResponse n hit =>
    match s.requests[n]? with
    | none => .error .disabled
    | some group => do
      enabled (s.phase = .tick)
      return { s with
        table := Fetch.receiveCacheResponse s.table group hit
        requests := if hit then s.requests.eraseIdx n else s.requests }
  | .cacheCredit n => do
    enabled (s.phase = .tick)
    return { s with fetch := Fetch.receiveCacheCredit s.fetch n }
  | .send => do
    enabled (s.phase = .tick)
    let (fetch, insts) := Fetch.sendInstructions p s.fetch s.table
    return { s with fetch := fetch, toDecode := s.toDecode ++ insts }
  | .credits n => do
    enabled (s.phase = .tick)
    return { s with fetch := Fetch.receiveFetchQueueCredits s.fetch n }
  | .deliver => do
    enabled (s.phase = .portUpdate)
    return { s with toDecode := [] }
  | .flush c => do
    enabled (s.phase = .portUpdate ∧ s.toDecode = [])
    match c with
    | none => return { s with phase := .tick }
    | some _ => return { s with phase := .tick, fetch := Fetch.flushFetch s.fetch, toDecode := [] }
  | .nextCycle => do
    enabled (s.phase = .tick)
    return { s with phase := .portUpdate }

variable {p : FetchParams} {s s' : FetchSystem}

/-- The handlers that move instructions. -/
def moves : FetchOp → Bool
  | .fetch _ => true
  | .send => true
  | .flush (some _) => true
  | _ => false

theorem step_fetch {next : List FetchEntry} (hstep : s.step p (.fetch next) = .ok s') :
    Returned s.uniqueId next ∧ s'.fetch = (Fetch.fetchInstruction p s.fetch next).1 ∧
      s'.table = s.table ∧ s'.uniqueId = s.uniqueId + (s.read p next).length := by
  obtain ⟨u, hen, hstep⟩ := Run.bind_eq_ok.mp hstep
  obtain rfl := Except.ok.inj hstep
  exact ⟨(of_decide_eq_true (enabled_eq_ok.mp hen)).2, rfl, rfl, rfl⟩

theorem step_send (hstep : s.step p .send = .ok s') :
    s'.fetch = (Fetch.sendInstructions p s.fetch s.table).1 ∧ s'.table = s.table ∧
      s'.uniqueId = s.uniqueId := by
  obtain ⟨-, -, hstep⟩ := Run.bind_eq_ok.mp hstep
  obtain rfl := Except.ok.inj hstep
  exact ⟨rfl, rfl, rfl⟩

theorem step_flush {c : FlushingCriteria} (hstep : s.step p (.flush (some c)) = .ok s') :
    s'.fetch = Fetch.flushFetch s.fetch ∧ s'.table = s.table ∧ s'.uniqueId = s.uniqueId := by
  obtain ⟨-, -, hstep⟩ := Run.bind_eq_ok.mp hstep
  obtain rfl := Except.ok.inj hstep
  exact ⟨rfl, rfl, rfl⟩

/-- The other handlers leave the buffers alone, and only an answer changes a status. -/
theorem step_still {op : FetchOp} (hop : moves op = false) (hstep : s.step p op = .ok s') :
    s'.fetch.ibuf = s.fetch.ibuf ∧ s'.fetch.fetchBuffer = s.fetch.fetchBuffer ∧
      s'.fetch.fetchBufferOccupancy = s.fetch.fetchBufferOccupancy ∧
      s'.uniqueId = s.uniqueId ∧
      ((∀ n, op ≠ .cacheResponse n true) → s'.table = s.table) := by
  cases op with
  | fetch next => cases hop
  | send => cases hop
  | flush c =>
    cases c with
    | some c => cases hop
    | none =>
      obtain ⟨-, -, hstep⟩ := Run.bind_eq_ok.mp hstep
      obtain rfl := Except.ok.inj hstep
      exact ⟨rfl, rfl, rfl, rfl, fun _ => rfl⟩
  | cacheResponse n hit =>
    unfold step at hstep
    rcases hreq : s.requests[n]? with _ | group
    · simp [hreq] at hstep
    · simp only [hreq] at hstep
      obtain ⟨-, -, hstep⟩ := Run.bind_eq_ok.mp hstep
      obtain rfl := Except.ok.inj hstep
      refine ⟨rfl, rfl, rfl, rfl, fun hmiss => ?_⟩
      cases hit with
      | true => exact absurd rfl (hmiss n)
      | false => rfl
  | cacheCredit n =>
    obtain ⟨-, -, hstep⟩ := Run.bind_eq_ok.mp hstep
    obtain rfl := Except.ok.inj hstep
    exact ⟨rfl, rfl, rfl, rfl, fun _ => rfl⟩
  | credits n =>
    obtain ⟨-, -, hstep⟩ := Run.bind_eq_ok.mp hstep
    obtain rfl := Except.ok.inj hstep
    exact ⟨rfl, rfl, rfl, rfl, fun _ => rfl⟩
  | deliver =>
    obtain ⟨-, -, hstep⟩ := Run.bind_eq_ok.mp hstep
    obtain rfl := Except.ok.inj hstep
    exact ⟨rfl, rfl, rfl, rfl, fun _ => rfl⟩
  | nextCycle =>
    obtain ⟨-, -, hstep⟩ := Run.bind_eq_ok.mp hstep
    obtain rfl := Except.ok.inj hstep
    exact ⟨rfl, rfl, rfl, rfl, fun _ => rfl⟩

/-! ## Histories -/

/-- What happens to one instruction, or to all of them. -/
inductive FetchEvent where
  | generated (i : Inst)
  /-- the cache answers the request of the instruction with a hit -/
  | hit (i : Inst)
  | sent (i : Inst)
  | flushed

def FetchEvent.isFlush : FetchEvent → Bool
  | .flushed => true
  | _ => false

/-- What a step shows. -/
def obs (p : FetchParams) (s : FetchSystem) : FetchOp → List FetchEvent
  | .fetch next => (s.read p next).map fun e => .generated e.inst
  | .cacheResponse n hit => if hit then (s.requests[n]?.getD []).map .hit else []
  | .send => (Fetch.sendInstructions p s.fetch s.table).2.map .sent
  | .flush (some _) => [.flushed]
  | _ => []

/-- The events since the last flush. -/
def sinceFlush (hist : List FetchEvent) : List FetchEvent := hist.rtakeWhile fun e => !e.isFlush

/-- The events up to the last flush. -/
def untilFlush (hist : List FetchEvent) : List FetchEvent := hist.rdropWhile fun e => !e.isFlush

def generatedOf (hist : List FetchEvent) : List Inst :=
  hist.filterMap fun
    | .generated i => some i
    | _ => none

def sentOf (hist : List FetchEvent) : List Inst :=
  hist.filterMap fun
    | .sent i => some i
    | _ => none

@[simp] theorem generatedOf_append (h h' : List FetchEvent) :
    generatedOf (h ++ h') = generatedOf h ++ generatedOf h' := List.filterMap_append

@[simp] theorem sentOf_append (h h' : List FetchEvent) :
    sentOf (h ++ h') = sentOf h ++ sentOf h' := List.filterMap_append

@[simp] theorem generatedOf_generated (l : List FetchEntry) :
    generatedOf (l.map fun e => .generated e.inst) = l.map FetchEntry.inst := by
  simp [generatedOf, List.filterMap_map]

@[simp] theorem generatedOf_sent (l : List Inst) : generatedOf (l.map .sent) = [] := by
  simp [generatedOf]

@[simp] theorem generatedOf_hit (l : List Inst) : generatedOf (l.map .hit) = [] := by
  simp [generatedOf]

@[simp] theorem sentOf_generated (l : List FetchEntry) :
    sentOf (l.map fun e => .generated e.inst) = [] := by
  simp [sentOf]

@[simp] theorem sentOf_sent (l : List Inst) : sentOf (l.map .sent) = l := by
  simp [sentOf, List.filterMap_map]

@[simp] theorem sentOf_hit (l : List Inst) : sentOf (l.map .hit) = [] := by
  simp [sentOf]

theorem sinceFlush_append {h h' : List FetchEvent} (hno : ∀ e ∈ h', e.isFlush = false) :
    sinceFlush (h ++ h') = sinceFlush h ++ h' := by
  induction h' using List.reverseRecOn with
  | nil => simp
  | append_singleton h' e ih =>
    have he := hno e (by simp)
    rw [← List.append_assoc]
    unfold sinceFlush at ih ⊢
    rw [List.rtakeWhile_concat_pos _ _ _ (by simpa using he),
      ih fun e he => hno e (List.mem_append_left _ he), List.append_assoc]

theorem sinceFlush_flushed (h : List FetchEvent) : sinceFlush (h ++ [.flushed]) = [] :=
  List.rtakeWhile_concat_neg _ _ _ (by simp [FetchEvent.isFlush])

theorem untilFlush_append_sinceFlush (h : List FetchEvent) : untilFlush h ++ sinceFlush h = h :=
  List.rdropWhile_append_rtakeWhile

/-! ## The invariant -/

/-- The instructions in the two buffers, oldest first. -/
def buffered (s : FetchSystem) : List Inst :=
  (s.fetch.fetchBuffer ++ s.fetch.ibuf).map FetchEntry.inst

/-- As Fetch sends an instruction, `speculative_path_` being false. -/
def asSent (insts : List Inst) : List Inst := insts.map fun i => i.setSpeculative false

@[simp] theorem asSent_append (a b : List Inst) : asSent (a ++ b) = asSent a ++ asSent b :=
  List.map_append

/-- What is read goes behind what Fetch has. -/
theorem buffered_fetch {next : List FetchEntry} (hstep : s.step p (.fetch next) = .ok s') :
    s'.buffered = s.buffered ++ (s.read p next).map FetchEntry.inst := by
  obtain ⟨-, hfetch, -⟩ := step_fetch hstep
  have hrefill : Fetch.refilled p s.fetch next = s.fetch.ibuf ++ s.read p next := rfl
  rw [buffered, hfetch]
  rcases Fetch.fetchInstruction_cases p s.fetch next with ⟨-, h⟩ | ⟨-, -, h⟩
  · rw [h, hrefill]
    simp [buffered]
  · rw [h]
    have hsplit := (Fetch.splitBlock_spec p (Fetch.refilled p s.fetch next)).1
    simp only [List.map_append, Fetch.markLast_map_inst, buffered, List.append_assoc]
    rw [← List.map_append, hsplit, hrefill]
    simp

structure Inv (hist : List FetchEvent) (s : FetchSystem) : Prop where
  stream : asSent (generatedOf (sinceFlush hist)) = sentOf (sinceFlush hist) ++ asSent s.buffered
  numbers : (generatedOf hist).map Inst.uniqueId = List.range' 1 s.uniqueId
  fetched : ∀ k, s.table.status k = .fetched → ∃ i, .hit i ∈ hist ∧ i.key = k
  sent : ∀ i ∈ sentOf hist, ∃ j, .hit j ∈ hist ∧ j.key = i.key

variable {hist : List FetchEvent}

theorem inv_init : Inv [] {} :=
  ⟨rfl, rfl, fun _ hk => by simp at hk, by simp [sentOf]⟩

namespace Inv

/-- A step that shows nothing and leaves the statuses alone. -/
theorem of_still {op : FetchOp} (H : Inv hist s) (hop : moves op = false)
    (hobs : s.obs p op = []) (hmiss : ∀ n, op ≠ .cacheResponse n true)
    (hstep : s.step p op = .ok s') : Inv (hist ++ s.obs p op) s' := by
  obtain ⟨hibuf, hbuf, -, hid, htable⟩ := step_still hop hstep
  have hbuffered : s'.buffered = s.buffered := by
    rw [buffered, hibuf, hbuf, buffered]
  rw [hobs, List.append_nil]
  exact ⟨by rw [hbuffered]; exact H.stream, by rw [hid]; exact H.numbers,
    by rw [htable hmiss]; exact H.fetched, H.sent⟩

theorem fetch {next : List FetchEntry} (H : Inv hist s)
    (hstep : s.step p (.fetch next) = .ok s') : Inv (hist ++ s.obs p (.fetch next)) s' := by
  obtain ⟨hnum, -, htable, hid⟩ := step_fetch hstep
  have hread : ∀ e ∈ (s.read p next).map fun e => FetchEvent.generated e.inst,
      e.isFlush = false := by
    intro e he
    obtain ⟨x, -, rfl⟩ := List.mem_map.mp he
    rfl
  have hbuf := buffered_fetch hstep
  refine ⟨?_, ?_, fun k hk => ?_, fun i hi => ?_⟩
  · rw [obs, sinceFlush_append hread, generatedOf_append, sentOf_append, generatedOf_generated,
      sentOf_generated, asSent_append, H.stream, List.append_nil, List.append_assoc,
      ← asSent_append, hbuf]
  · -- what is read is numbered from here on
    have hids : ((s.read p next).map FetchEntry.inst).map Inst.uniqueId =
        List.range' (s.uniqueId + 1) (s.read p next).length := by
      rw [List.map_map]
      exact (hnum.take _).numbers
    rw [obs, generatedOf_append, generatedOf_generated, List.map_append, H.numbers, hids,
      Nat.add_comm s.uniqueId 1, List.range'_append_1, hid]
  · rw [htable] at hk
    obtain ⟨i, hi, hkey⟩ := H.fetched k hk
    exact ⟨i, List.mem_append_left _ hi, hkey⟩
  · rw [obs, sentOf_append, sentOf_generated, List.append_nil] at hi
    obtain ⟨j, hj, hkey⟩ := H.sent i hi
    exact ⟨j, List.mem_append_left _ hj, hkey⟩

theorem cacheResponse {n : ℕ} {hit : Bool} (H : Inv hist s)
    (hstep : s.step p (.cacheResponse n hit) = .ok s') :
    Inv (hist ++ s.obs p (.cacheResponse n hit)) s' := by
  have hstep₀ := hstep
  unfold FetchSystem.step at hstep
  rcases hreq : s.requests[n]? with _ | group
  · simp [hreq] at hstep
  · simp only [hreq] at hstep
    obtain ⟨-, -, hstep'⟩ := Run.bind_eq_ok.mp hstep
    obtain rfl := Except.ok.inj hstep'
    cases hit with
    | false => exact H.of_still rfl rfl (fun _ h => (by cases h)) hstep₀
    | true =>
      have hobs : s.obs p (.cacheResponse n true) = group.map .hit := by simp [obs, hreq]
      have hhit : ∀ e ∈ group.map FetchEvent.hit, e.isFlush = false := by
        intro e he
        obtain ⟨x, -, rfl⟩ := List.mem_map.mp he
        rfl
      rw [hobs]
      refine ⟨?_, ?_, fun k hk => ?_, fun i hi => ?_⟩
      · rw [sinceFlush_append hhit, generatedOf_append, sentOf_append, generatedOf_hit, sentOf_hit,
          List.append_nil, List.append_nil]
        exact H.stream
      · rw [generatedOf_append, generatedOf_hit, List.append_nil]
        exact H.numbers
      · by_cases hmem : k ∈ group.map Inst.key
        · obtain ⟨i, hi, hkey⟩ := List.mem_map.mp hmem
          exact ⟨i, List.mem_append_right _ (List.mem_map_of_mem hi), hkey⟩
        · have hk' : (if k ∈ group.map Inst.key then InstStatus.fetched
              else s.table.status k) = .fetched := hk
          rw [if_neg hmem] at hk'
          obtain ⟨i, hi, hkey⟩ := H.fetched k hk'
          exact ⟨i, List.mem_append_left _ hi, hkey⟩
      · rw [sentOf_append, sentOf_hit, List.append_nil] at hi
        obtain ⟨j, hj, hkey⟩ := H.sent i hi
        exact ⟨j, List.mem_append_left _ hj, hkey⟩

theorem send (H : Inv hist s) (hstep : s.step p .send = .ok s') :
    Inv (hist ++ s.obs p .send) s' := by
  obtain ⟨hfetch, htable, hid⟩ := step_send hstep
  rcases hsend : Fetch.sendInstructions p s.fetch s.table with ⟨f, insts⟩
  rw [hsend] at hfetch
  obtain ⟨group, hsplit, hibuf, rfl, -, hall, -⟩ := Fetch.sendInstructions_group hsend
  have hobs : s.obs p .send =
      (group.map fun e => e.inst.setSpeculative false).map .sent := by simp [obs, hsend]
  have hsent : ∀ e ∈ (group.map fun e => e.inst.setSpeculative false).map FetchEvent.sent,
      e.isFlush = false := by
    intro e he
    obtain ⟨x, -, rfl⟩ := List.mem_map.mp he
    rfl
  rw [hobs]
  refine ⟨?_, ?_, fun k hk => ?_, fun i hi => ?_⟩
  · rw [sinceFlush_append hsent, generatedOf_append, sentOf_append, generatedOf_sent, sentOf_sent,
      List.append_nil, H.stream, List.append_assoc]
    simp [buffered, asSent, hfetch, hsplit, hibuf, Function.comp_def]
  · rw [generatedOf_append, generatedOf_sent, List.append_nil, hid]
    exact H.numbers
  · rw [htable] at hk
    obtain ⟨i, hi, hkey⟩ := H.fetched k hk
    exact ⟨i, List.mem_append_left _ hi, hkey⟩
  · rw [sentOf_append, sentOf_sent] at hi
    rcases List.mem_append.mp hi with hi | hi
    · obtain ⟨j, hj, hkey⟩ := H.sent i hi
      exact ⟨j, List.mem_append_left _ hj, hkey⟩
    · obtain ⟨e, he, rfl⟩ := List.mem_map.mp hi
      obtain ⟨j, hj, hkey⟩ := H.fetched _ (hall e he)
      exact ⟨j, List.mem_append_left _ hj, hkey⟩

theorem flush {c : FlushingCriteria} (H : Inv hist s)
    (hstep : s.step p (.flush (some c)) = .ok s') : Inv (hist ++ s.obs p (.flush (some c))) s' := by
  obtain ⟨hfetch, htable, hid⟩ := step_flush hstep
  refine ⟨?_, ?_, fun k hk => ?_, fun i hi => ?_⟩
  · rw [obs, sinceFlush_flushed, buffered, hfetch]
    rfl
  · rw [generatedOf_append, hid]
    exact (List.map_append.trans (by simp [obs, generatedOf])).trans H.numbers
  · rw [htable] at hk
    obtain ⟨i, hi, hkey⟩ := H.fetched k hk
    exact ⟨i, List.mem_append_left _ hi, hkey⟩
  · rw [sentOf_append] at hi
    obtain ⟨j, hj, hkey⟩ := H.sent i (by simpa [obs, sentOf] using hi)
    exact ⟨j, List.mem_append_left _ hj, hkey⟩

theorem step {op : FetchOp} (H : Inv hist s) (hstep : s.step p op = .ok s') :
    Inv (hist ++ s.obs p op) s' := by
  cases op with
  | fetch next => exact H.fetch hstep
  | cacheResponse n hit => exact H.cacheResponse hstep
  | send => exact H.send hstep
  | flush c =>
    cases c with
    | none => exact H.of_still rfl rfl (fun _ h => (by cases h)) hstep
    | some c => exact H.flush hstep
  | cacheCredit n => exact H.of_still rfl rfl (fun _ h => (by cases h)) hstep
  | credits n => exact H.of_still rfl rfl (fun _ h => (by cases h)) hstep
  | deliver => exact H.of_still rfl rfl (fun _ h => (by cases h)) hstep
  | nextCycle => exact H.of_still rfl rfl (fun _ h => (by cases h)) hstep

/-- The instructions returned so far are numbered in order. -/
theorem increasing (H : Inv hist s) :
    (generatedOf hist).Pairwise fun i j => i.uniqueId < j.uniqueId := by
  rw [← List.pairwise_map (f := Inst.uniqueId) (R := (· < ·)), H.numbers]
  exact List.pairwise_lt_range'

end Inv

theorem run_inv {ops : List FetchOp}
    (hrun : ops.foldlM (Run.traced (step p) (obs p)) ([], {}) = .ok (hist, s)) : Inv hist s := by
  refine Run.foldlM_ok_preserves (I := fun hs => Inv hs.1 hs.2) (fun op hs hs' H hone => ?_)
    inv_init hrun
  obtain ⟨hstep, hhist⟩ := Run.traced_eq_ok.mp hone
  rw [hhist]
  exact H.step hstep

/-! ## What is delivered -/

/-- What is sent between two flushes, after the history `hist`. -/
structure InOrder (hist : List FetchEvent) : Prop where
  stream : sentOf (sinceFlush hist) <+: asSent (generatedOf (sinceFlush hist))
  once : (sentOf (sinceFlush hist)).Pairwise fun i j => i.uniqueId < j.uniqueId
  fresh : ∀ i ∈ sentOf (sinceFlush hist), ∀ j ∈ generatedOf (untilFlush hist),
    j.uniqueId < i.uniqueId
  answered : ∀ i ∈ sentOf hist, ∃ j, .hit j ∈ hist ∧ j.key = i.key

/-- The group that `sendInstructions_` sends. -/
def GoodGroup (p : FetchParams) (s : FetchSystem) : Prop :=
  ∃ group : List FetchEntry,
    (Fetch.sendInstructions p s.fetch s.table).2 =
      group.map (fun e => e.inst.setSpeculative false) ∧
    group <+: s.fetch.fetchBuffer ∧
    group.length ≤ min s.fetch.creditsInstQueue p.numToFetch ∧
    (∀ e ∈ group, s.table.status e.inst.key = .fetched) ∧ OneFlow group

/-- The fetch group that `fetchInstruction_` requests. -/
def GoodRequest (p : FetchParams) (s : FetchSystem) (next : List FetchEntry) : Prop :=
  OneBlock p (Fetch.fetchInstruction p s.fetch next).2 ∧
    OneFlow (Fetch.fetchInstruction p s.fetch next).2

theorem goodGroup (p : FetchParams) (s : FetchSystem) : GoodGroup p s := by
  rcases hsend : Fetch.sendInstructions p s.fetch s.table with ⟨f, insts⟩
  obtain ⟨group, hsplit, -, rfl, hlen, hall, hflow⟩ := Fetch.sendInstructions_group hsend
  exact ⟨group, by rw [hsend], ⟨_, hsplit.symm⟩, hlen, hall, hflow⟩

theorem goodRequest (p : FetchParams) (s : FetchSystem) (next : List FetchEntry) :
    GoodRequest p s next := by
  unfold GoodRequest
  rcases Fetch.fetchInstruction_cases p s.fetch next with ⟨-, h⟩ | ⟨-, -, h⟩
  · rw [h]
    exact ⟨by simp [OneBlock], .of_chain .nil⟩
  · rw [h]
    obtain ⟨-, -, hchain⟩ := Fetch.splitBlock_spec p (Fetch.refilled p s.fetch next)
    exact ⟨Fetch.oneBlock_of_block hchain, Fetch.oneFlow_of_block hchain⟩

theorem Inv.inOrder (H : Inv hist s) : InOrder hist := by
  have hsent : sentOf (sinceFlush hist) <+: asSent (generatedOf (sinceFlush hist)) :=
    ⟨_, H.stream.symm⟩
  have horder := H.increasing
  rw [← untilFlush_append_sinceFlush hist, generatedOf_append, List.pairwise_append] at horder
  obtain ⟨-, hsince, hcross⟩ := horder
  refine ⟨hsent, ?_, fun i hi j hj => ?_, H.sent⟩
  · have hall : (asSent (generatedOf (sinceFlush hist))).Pairwise
        fun i j => i.uniqueId < j.uniqueId := List.pairwise_map.mpr hsince
    exact hall.sublist hsent.sublist
  · obtain ⟨i₀, hi₀, rfl⟩ := List.mem_map.mp (hsent.subset hi)
    exact hcross j hj i₀ hi₀

end FetchSystem

/-- In every run of Fetch, what is sent to Decode after a flush is a front of what the generator
has returned since, in order, nothing returned before the flush is sent after it, and only
instructions whose request was answered with a hit are sent.  Each group that is sent is of
fetched instructions, as many as there are credits and places for, and each group that is
requested is in one block; both have a taken branch only at the end and a change of flow only at
the front. -/
theorem fetch_delivers_in_order (p : FetchParams) {ops : List FetchOp}
    {hist : List FetchSystem.FetchEvent} {s : FetchSystem}
    (hrun : ops.foldlM (Run.traced (FetchSystem.step p) (FetchSystem.obs p)) ([], {}) =
      .ok (hist, s)) :
    FetchSystem.InOrder hist ∧
      (∀ t, Run.Takes (FetchSystem.step p) {} ops t .send → t.GoodGroup p) ∧
      ∀ t next, Run.Takes (FetchSystem.step p) {} ops t (.fetch next) → t.GoodRequest p next :=
  ⟨(FetchSystem.run_inv hrun).inOrder, fun t _ => t.goodGroup p,
    fun t next _ => t.goodRequest p next⟩

/-- The first instructions of a trace: the second is a taken branch, to a block of its own. -/
def branchTrace : List FetchEntry :=
  [{ inst := { uniqueId := 1, programId := 1 }, pc := 16 },
   { inst := { uniqueId := 2, programId := 2, isBranch := true }, pc := 20, isTakenBranch := true },
   { inst := { uniqueId := 3, programId := 3 }, pc := 64, isCoF := true }]

/-- The first block is answered at the second attempt and sent; a flush finds the other one on its
way, and the trace is read again. -/
def branchOps : List FetchOp :=
  [.credits 10, .cacheCredit 3, .fetch branchTrace, .fetch [], .cacheResponse 0 false,
   .cacheResponse 0 true, .send, .nextCycle, .deliver,
   .flush (some ⟨.misprediction, false, 2⟩), .cacheResponse 0 true,
   .fetch [{ inst := { uniqueId := 4, programId := 3 }, pc := 24 }], .cacheResponse 0 true, .send]

theorem fetch_delivers_in_order_sample :
    ∃ hist s, branchOps.foldlM (Run.traced (FetchSystem.step {}) (FetchSystem.obs {})) ([], {}) =
        .ok (hist, s) ∧ s.toDecode.map Inst.uniqueId = [4] ∧
      FetchSystem.InOrder hist ∧
      (∀ t, Run.Takes (FetchSystem.step {}) {} branchOps t .send → t.GoodGroup {}) ∧
      ∀ t next, Run.Takes (FetchSystem.step {}) {} branchOps t (.fetch next) →
        t.GoodRequest {} next := by
  have heval : (branchOps.foldlM (Run.traced (FetchSystem.step {}) (FetchSystem.obs {}))
      ([], {})).toOption.map (fun hs => hs.2.toDecode.map Inst.uniqueId) = some [4] := by
    decide +kernel
  obtain ⟨⟨hist, s⟩, hrun, hsent⟩ := Run.ok_of_eval heval
  exact ⟨hist, s, hrun, hsent, fetch_delivers_in_order {} hrun⟩

end Olympia
