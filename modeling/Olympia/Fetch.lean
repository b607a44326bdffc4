import Olympia.FlushManager

/-!
# Fetch

`core/fetch/Fetch.cpp`: instructions are read from the trace into `ibuf_`, requested from the
instruction cache block by block, kept in the fetch buffer until the cache has answered, and
sent to Decode in order, as many as there are credits.

The trace is outside: `fetchInstruction` takes what `getNextInst` returns.  A flush rewinds the
trace, so nothing of it appears here.  Events are not modelled.
-/

namespace Olympia

/-- An instruction with what Fetch looks at. -/
structure FetchEntry where
  inst : Inst
  pc : ℕ := 0
  isCoF : Bool := false
  isTakenBranch : Bool := false
  lastInFetchBlock : Bool := false

structure FetchParams where
  numToFetch : ℕ := 4
  blockWidth : ℕ := 16
  fetchBufferSize : ℕ := 8

namespace FetchParams

def icacheBlockShift (p : FetchParams) : ℕ := Nat.log2 p.blockWidth

def ibufCapacity (p : FetchParams) : ℕ := p.blockWidth / 2

end FetchParams

structure FetchState where
  creditsInstQueue : ℕ := 0
  creditsIcache : ℕ := 0
  ibuf : List FetchEntry := []
  fetchBuffer : List FetchEntry := []
  fetchBufferOccupancy : ℕ := 0

namespace Fetch

/-- `different_blocks`. -/
def differentBlocks (p : FetchParams) (lhs rhs : FetchEntry) : Bool :=
  lhs.pc >>> p.icacheBlockShift != rhs.pc >>> p.icacheBlockShift || lhs.isTakenBranch || rhs.isCoF

/-- The instructions up to the end of the first block, and the others. -/
def splitBlock (p : FetchParams) : List FetchEntry → List FetchEntry × List FetchEntry
  | [] => ([], [])
  | [e] => ([e], [])
  | e :: e' :: rest =>
    if differentBlocks p e e' then ([e], e' :: rest)
    else
      let block := splitBlock p (e' :: rest)
      (e :: block.1, block.2)

/-- `setLastInFetchBlock(true)` on the last entry. -/
def markLast (block : List FetchEntry) : List FetchEntry :=
  block.modifyLast fun e => { e with lastInFetchBlock := true }

/-- `fetchInstruction_`, given what the trace has next, and the group requested from the
cache. -/
def fetchInstruction (p : FetchParams) (s : FetchState) (next : List FetchEntry) :
    FetchState × List FetchEntry :=
  let s := { s with ibuf := s.ibuf ++ next.take (p.ibufCapacity - s.ibuf.length) }
  if s.creditsIcache = 0 ∨ s.ibuf = [] ∨ s.fetchBuffer.length > p.fetchBufferSize then (s, [])
  else
    let block := splitBlock p s.ibuf
    ({ s with
        ibuf := block.2
        fetchBuffer := s.fetchBuffer ++ markLast block.1
        creditsIcache := u32Sub s.creditsIcache 1
        fetchBufferOccupancy := u32Add s.fetchBufferOccupancy 1 }, block.1)

/-- `fetch_buffer_.pop_front()`, when `entry` is the front and `rest` the other entries. -/
def popFront (s : FetchState) (entry : FetchEntry) (rest : List FetchEntry) : FetchState :=
  { s with
    fetchBuffer := rest
    fetchBufferOccupancy :=
      if entry.lastInFetchBlock then u32Sub s.fetchBufferOccupancy 1
      else s.fetchBufferOccupancy }

/-- The loop of `sendInstructions_`. -/
def sendLoop (T : InstTable) : ℕ → FetchState → List Inst → FetchState × List Inst
  | 0, s, insts => (s, insts)
  | n + 1, s, insts =>
    match s.fetchBuffer with
    | [] => (s, insts)
    | entry :: rest =>
      -- the cache has not answered yet
      if T.status entry.inst.key ≠ .fetched then (s, insts)
      -- a change of flow starts a group of its own
      else if entry.isCoF ∧ insts ≠ [] then (s, insts)
      else
        let s' := popFront s entry rest
        let insts' := insts ++ [entry.inst.setSpeculative false]
        if entry.isTakenBranch then (s', insts') else sendLoop T n s' insts'

/-- `sendInstructions_` and the group it sends. -/
def sendInstructions (p : FetchParams) (s : FetchState) (T : InstTable) :
    FetchState × List Inst :=
  let upper := min s.creditsInstQueue (min p.numToFetch s.fetchBuffer.length)
  if upper = 0 then (s, [])
  else
    let (s', insts) := sendLoop T upper s []
    ({ s' with creditsInstQueue := u32Sub s'.creditsInstQueue insts.length }, insts)

/-- `receiveCacheResponse_`; a miss changes nothing. -/
def receiveCacheResponse (T : InstTable) (group : List Inst) (hit : Bool) : InstTable :=
  if hit then T.setStatuses (group.map Inst.key) .fetched else T

/-- `receiveCacheCredit_`. -/
def receiveCacheCredit (s : FetchState) (dat : ℕ) : FetchState :=
  { s with creditsIcache := u32Add s.creditsIcache dat }

/-- `receiveFetchQueueCredits_`. -/
def receiveFetchQueueCredits (s : FetchState) (dat : ℕ) : FetchState :=
  { s with creditsInstQueue := u32Add s.creditsInstQueue dat }

/-- `flushFetch_`.  The group on the port to Decode is cancelled by the system. -/
def flushFetch (s : FetchState) : FetchState := { s with ibuf := [], fetchBuffer := [] }

/-! ## What sending does to the credits -/

theorem fetchInstruction_creditsInstQueue (p : FetchParams) (s : FetchState)
    (next : List FetchEntry) :
    (fetchInstruction p s next).1.creditsInstQueue = s.creditsInstQueue := by
  simp only [fetchInstruction, apply_ite Prod.fst, apply_ite FetchState.creditsInstQueue, ite_self]

theorem sendLoop_spec (T : InstTable) : ∀ (n : ℕ) (s : FetchState) (insts : List Inst),
    (sendLoop T n s insts).2.length ≤ insts.length + n ∧
      (sendLoop T n s insts).1.creditsInstQueue = s.creditsInstQueue
  | 0, s, insts => ⟨le_rfl, rfl⟩
  | n + 1, s, insts => by
    have hstop : insts.length ≤ insts.length + (n + 1) := by omega
    unfold sendLoop
    rcases s.fetchBuffer with _ | ⟨entry, rest⟩
    · exact ⟨hstop, rfl⟩
    · dsimp only
      split
      · exact ⟨hstop, rfl⟩
      · split
        · exact ⟨hstop, rfl⟩
        · split
          · refine ⟨?_, rfl⟩
            rw [List.length_append, List.length_singleton]
            omega
          · obtain ⟨hlen, hcred⟩ := sendLoop_spec T n (popFront s entry rest)
              (insts ++ [entry.inst.setSpeculative false])
            refine ⟨?_, hcred⟩
            rw [List.length_append, List.length_singleton] at hlen
            omega

/-- `sendInstructions_` pays one credit for each instruction it sends. -/
theorem sendInstructions_spec {p : FetchParams} {s s' : FetchState} {T : InstTable}
    {insts : List Inst} (hlt : s.creditsInstQueue < 2 ^ 32)
    (h : sendInstructions p s T = (s', insts)) :
    s'.creditsInstQueue + insts.length = s.creditsInstQueue := by
  unfold sendInstructions at h
  dsimp only at h
  split at h
  · obtain ⟨rfl, rfl⟩ := Prod.mk.inj h
    rfl
  · obtain ⟨hlen, hcred⟩ :=
      sendLoop_spec T (min s.creditsInstQueue (min p.numToFetch s.fetchBuffer.length)) s []
    obtain ⟨rfl, rfl⟩ := Prod.mk.inj h
    have hle : (sendLoop T (min s.creditsInstQueue (min p.numToFetch s.fetchBuffer.length)) s
        []).2.length ≤ s.creditsInstQueue := by
      rw [List.length_nil] at hlen
      omega
    dsimp only
    rw [hcred, u32Sub_of_le hle hlt]
    omega

end Fetch

end Olympia
