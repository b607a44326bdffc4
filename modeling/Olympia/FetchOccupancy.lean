import Olympia.FetchOrder

/-!
# The occupancy of the fetch buffer

`fetch_buffer_occupancy_` is meant to be the number of blocks in the fetch buffer: a request adds
one, and sending the last instruction of a block takes one away.  Two handlers do not follow.
`flushFetch_` clears the buffer and leaves the counter, and `fetchInstruction_` compares the
capacity, in blocks, with the number of instructions in the buffer, so that it requests a block
when the buffer holds as many as it may.

`fetch_occupancy_iff`: the counter is exact and within the capacity throughout a run if and only
if no flush finds a block in the buffer and no block is requested when the buffer is full.
-/

namespace Olympia

namespace Fetch

/-- The blocks in the fetch buffer. -/
def blocks (s : FetchState) : ℕ := s.fetchBuffer.countP fun e => e.lastInFetchBlock

theorem countP_markLast {block : List FetchEntry} (hne : block ≠ [])
    (hnew : ∀ e ∈ block, e.lastInFetchBlock = false) :
    (markLast block).countP (fun e => e.lastInFetchBlock) = 1 := by
  rcases List.eq_nil_or_concat block with rfl | ⟨init, e, rfl⟩
  · exact absurd rfl hne
  · have hinit : init.countP (fun e => e.lastInFetchBlock) = 0 := by
      rw [List.countP_eq_zero]
      intro x hx
      simp [hnew x (by simp [hx])]
    simp [markLast, List.modifyLast_concat, hinit]

/-- The loop of `sendInstructions_` counts the blocks it finishes. -/
theorem sendLoop_blocks {T : InstTable} : ∀ (n : ℕ) {s s' : FetchState} {insts insts' : List Inst},
    sendLoop T n s insts = (s', insts') → s.fetchBufferOccupancy = blocks s →
    s.fetchBufferOccupancy < 2 ^ 32 →
    s'.fetchBufferOccupancy = blocks s' ∧ s'.fetchBufferOccupancy ≤ s.fetchBufferOccupancy
  | 0, s, s', insts, insts', h, hocc, hlt => by
    obtain ⟨rfl, rfl⟩ := Prod.mk.inj h
    exact ⟨hocc, le_rfl⟩
  | n + 1, s, s', insts, insts', h, hocc, hlt => by
    unfold sendLoop at h
    split at h
    · obtain ⟨rfl, rfl⟩ := Prod.mk.inj h
      exact ⟨hocc, le_rfl⟩
    · rename_i entry rest hbuf
      have hpop : (popFront s entry rest).fetchBufferOccupancy = blocks (popFront s entry rest) ∧
          (popFront s entry rest).fetchBufferOccupancy ≤ s.fetchBufferOccupancy := by
        have hcount : blocks s = rest.countP (fun e => e.lastInFetchBlock) +
            if entry.lastInFetchBlock then 1 else 0 := by
          rw [blocks, hbuf, List.countP_cons]
        unfold popFront
        dsimp only [blocks]
        split
        · rename_i hlast
          rw [if_pos hlast] at hcount
          rw [u32Sub_of_le (by omega) hlt]
          omega
        · rename_i hlast
          rw [if_neg hlast] at hcount
          omega
      split at h
      · obtain ⟨rfl, rfl⟩ := Prod.mk.inj h
        exact ⟨hocc, le_rfl⟩
      · split at h
        · obtain ⟨rfl, rfl⟩ := Prod.mk.inj h
          exact ⟨hocc, le_rfl⟩
        · dsimp only at h
          split at h
          · obtain ⟨rfl, rfl⟩ := Prod.mk.inj h
            exact hpop
          · obtain ⟨hocc', hle⟩ := sendLoop_blocks n h hpop.1 (lt_of_le_of_lt hpop.2 hlt)
            exact ⟨hocc', hle.trans hpop.2⟩

theorem sendInstructions_blocks {p : FetchParams} {s s' : FetchState} {T : InstTable}
    {insts : List Inst} (h : sendInstructions p s T = (s', insts))
    (hocc : s.fetchBufferOccupancy = blocks s) (hlt : s.fetchBufferOccupancy < 2 ^ 32) :
    s'.fetchBufferOccupancy = blocks s' ∧ s'.fetchBufferOccupancy ≤ s.fetchBufferOccupancy := by
  unfold sendInstructions at h
  dsimp only at h
  split at h
  · obtain ⟨rfl, rfl⟩ := Prod.mk.inj h
    exact ⟨hocc, le_rfl⟩
  · rcases hloop : sendLoop T (min s.creditsInstQueue (min p.numToFetch s.fetchBuffer.length)) s []
      with ⟨s₁, insts₁⟩
    rw [hloop] at h
    obtain ⟨rfl, rfl⟩ := Prod.mk.inj h
    have hspec := sendLoop_blocks _ hloop hocc hlt
    exact hspec

end Fetch

namespace FetchSystem

/-- The counter is the number of blocks in the fetch buffer, and within its capacity. -/
def ExactOccupancy (p : FetchParams) (s : FetchSystem) : Prop :=
  s.fetch.fetchBufferOccupancy = Fetch.blocks s.fetch ∧
    s.fetch.fetchBufferOccupancy ≤ p.fetchBufferSize

/-- The two handlers meet the counter where it suits them: a flush an empty buffer, a request a
buffer with a place for its block. -/
def Counts (p : FetchParams) (s : FetchSystem) : FetchOp → Prop
  | .fetch next =>
    Fetch.requests p s.fetch next = true → s.fetch.fetchBufferOccupancy < p.fetchBufferSize
  | .flush (some _) => s.fetch.fetchBufferOccupancy = 0
  | _ => True

instance (p : FetchParams) (s : FetchSystem) : ∀ op, Decidable (s.Counts p op)
  | .fetch _ => inferInstanceAs (Decidable (_ = true → _ < _))
  | .flush (some _) => inferInstanceAs (Decidable (_ = 0))
  | .flush none | .credits _ | .cacheCredit _ | .cacheResponse _ _ | .send | .deliver
  | .nextCycle => inferInstanceAs (Decidable True)

/-- The counter only goes down when a group is sent. -/
def SendsDown (p : FetchParams) (s : FetchSystem) : Prop :=
  (Fetch.sendInstructions p s.fetch s.table).1.fetchBufferOccupancy ≤ s.fetch.fetchBufferOccupancy

variable {p : FetchParams} {s s' : FetchSystem} {op : FetchOp}

/-- No instruction is marked before it is requested. -/
def Unmarked (s : FetchSystem) : Prop := ∀ e ∈ s.fetch.ibuf, e.lastInFetchBlock = false

theorem unmarked_refilled {next : List FetchEntry} (U : s.Unmarked)
    (hnext : Returned s.uniqueId next) :
    ∀ e ∈ Fetch.refilled p s.fetch next, e.lastInFetchBlock = false := by
  intro e he
  rcases List.mem_append.mp he with he | he
  · exact U e he
  · exact hnext.unmarked e (List.mem_of_mem_take he)

theorem unmarked_step (U : s.Unmarked) (hstep : s.step p op = .ok s') : s'.Unmarked := by
  by_cases hop : moves op = false
  · obtain ⟨hibuf, -, -, -, -⟩ := step_still hop hstep
    unfold Unmarked
    rw [hibuf]
    exact U
  · cases op with
    | fetch next =>
      obtain ⟨hnext, hfetch, -, -⟩ := step_fetch hstep
      have hnew := unmarked_refilled (p := p) U hnext
      unfold Unmarked
      rw [hfetch]
      rcases Fetch.fetchInstruction_cases p s.fetch next with ⟨-, h⟩ | ⟨-, -, h⟩
      · rw [h]
        exact hnew
      · rw [h]
        intro e he
        apply hnew
        rw [← (Fetch.splitBlock_spec p (Fetch.refilled p s.fetch next)).1]
        exact List.mem_append_right _ he
    | send =>
      obtain ⟨hfetch, -, -⟩ := step_send hstep
      rcases hsend : Fetch.sendInstructions p s.fetch s.table with ⟨f, insts⟩
      rw [hsend] at hfetch
      obtain ⟨-, -, hibuf, -⟩ := Fetch.sendInstructions_group hsend
      unfold Unmarked
      rw [hfetch, hibuf]
      exact U
    | flush c =>
      cases c with
      | none => exact absurd rfl hop
      | some c =>
        obtain ⟨hfetch, -, -⟩ := step_flush hstep
        unfold Unmarked
        rw [hfetch]
        intro e he
        cases he
    | _ => exact absurd rfl hop

/-- A request adds one block, and moves no other mark. -/
theorem blocks_of_request {next : List FetchEntry} (U : s.Unmarked)
    (hnext : Returned s.uniqueId next) (hreq : Fetch.requests p s.fetch next = true) :
    Fetch.blocks (Fetch.fetchInstruction p s.fetch next).1 = Fetch.blocks s.fetch + 1 ∧
      (Fetch.fetchInstruction p s.fetch next).1.fetchBufferOccupancy =
        u32Add s.fetch.fetchBufferOccupancy 1 := by
  rcases Fetch.fetchInstruction_cases p s.fetch next with ⟨hno, -⟩ | ⟨-, hne, h⟩
  · rw [hreq] at hno
    cases hno
  · obtain ⟨happ, hblock, -⟩ := Fetch.splitBlock_spec p (Fetch.refilled p s.fetch next)
    have hone : (Fetch.markLast (Fetch.splitBlock p (Fetch.refilled p s.fetch next)).1).countP
        (fun e => e.lastInFetchBlock) = 1 := by
      refine Fetch.countP_markLast (hblock hne) fun e he => ?_
      apply unmarked_refilled (p := p) U hnext
      rw [← happ]
      exact List.mem_append_left _ he
    rw [h]
    refine ⟨?_, rfl⟩
    rw [Fetch.blocks, List.countP_append, hone]
    rfl

/-- A handler that meets the counter where it suits it keeps the counter exact. -/
theorem exactOccupancy_step (hsize : p.fetchBufferSize < 2 ^ 32) (U : s.Unmarked)
    (H : s.ExactOccupancy p) (hcounts : s.Counts p op) (hstep : s.step p op = .ok s') :
    s'.ExactOccupancy p := by
  obtain ⟨hocc, hle⟩ := H
  by_cases hop : moves op = false
  · obtain ⟨-, hbuf, hsame, -, -⟩ := step_still hop hstep
    unfold ExactOccupancy Fetch.blocks
    rw [hbuf, hsame]
    exact ⟨hocc, hle⟩
  · cases op with
    | fetch next =>
      obtain ⟨hnext, hfetch, -, -⟩ := step_fetch hstep
      unfold ExactOccupancy
      rw [hfetch]
      by_cases hreq : Fetch.requests p s.fetch next = true
      · obtain ⟨hblocks, hadd⟩ := blocks_of_request U hnext hreq
        have hroom : s.fetch.fetchBufferOccupancy < p.fetchBufferSize := hcounts hreq
        rw [hblocks, hadd, u32Add_of_lt (by omega)]
        omega
      · rcases Fetch.fetchInstruction_cases p s.fetch next with ⟨-, h⟩ | ⟨hyes, -, -⟩
        · rw [h]
          exact ⟨hocc, hle⟩
        · exact absurd hyes hreq
    | send =>
      obtain ⟨hfetch, -, -⟩ := step_send hstep
      rcases hsend : Fetch.sendInstructions p s.fetch s.table with ⟨f, insts⟩
      rw [hsend] at hfetch
      obtain ⟨hocc', hdown⟩ := Fetch.sendInstructions_blocks hsend hocc (by omega)
      unfold ExactOccupancy
      rw [hfetch]
      exact ⟨hocc', hdown.trans hle⟩
    | flush c =>
      cases c with
      | none => exact absurd rfl hop
      | some c =>
        obtain ⟨hfetch, -, -⟩ := step_flush hstep
        have hzero : s.fetch.fetchBufferOccupancy = 0 := hcounts
        unfold ExactOccupancy
        rw [hfetch]
        exact ⟨hzero, (Nat.le_of_eq hzero).trans (Nat.zero_le _)⟩
    | _ => exact absurd rfl hop

/-- A handler that does not, does not. -/
theorem counts_of_exactOccupancy (U : s.Unmarked) (H : s.ExactOccupancy p)
    (H' : s'.ExactOccupancy p) (hstep : s.step p op = .ok s') : s.Counts p op := by
  obtain ⟨hocc, hle⟩ := H
  obtain ⟨hocc', hle'⟩ := H'
  cases op with
  | fetch next =>
    intro hreq
    obtain ⟨hnext, hfetch, -, -⟩ := step_fetch hstep
    obtain ⟨hblocks, -⟩ := blocks_of_request U hnext hreq
    rw [hfetch] at hocc' hle'
    omega
  | flush c =>
    cases c with
    | none => trivial
    | some c =>
      -- the buffer is empty after the flush, and the counter is what it was
      obtain ⟨hfetch, -, -⟩ := step_flush hstep
      rw [hfetch] at hocc'
      exact hocc'
  | _ => trivial

theorem sendsDown (hsize : p.fetchBufferSize < 2 ^ 32) (H : s.ExactOccupancy p) :
    s.SendsDown p := by
  rcases hsend : Fetch.sendInstructions p s.fetch s.table with ⟨f, insts⟩
  unfold SendsDown
  rw [hsend]
  exact (Fetch.sendInstructions_blocks hsend H.1 (lt_of_le_of_lt H.2 hsize)).2

theorem unmarked_of_visits {ops : List FetchOp}
    (hs : Run.Visits (step p) {} ops s) : s.Unmarked :=
  hs.reachable.invariant (fun e he => by cases he) fun _ _ _ U h => unmarked_step U h

end FetchSystem

/-- In a run of Fetch, the counter is the number of blocks in the fetch buffer, within its
capacity, and never counts down below zero, if and only if every flush finds the counter at zero
and every request finds it below the capacity. -/
theorem fetch_occupancy_iff (p : FetchParams) (hsize : p.fetchBufferSize < 2 ^ 32)
    {ops : List FetchOp} {t : FetchSystem} (hrun : ops.foldlM (FetchSystem.step p) {} = .ok t) :
    ((∀ s, Run.Visits (FetchSystem.step p) {} ops s → s.ExactOccupancy p) ∧
        ∀ s, Run.Takes (FetchSystem.step p) {} ops s .send → s.SendsDown p) ↔
      ∀ s op, Run.Takes (FetchSystem.step p) {} ops s op → s.Counts p op := by
  constructor
  · rintro ⟨hexact, -⟩ s op htakes
    obtain ⟨s', hstep, hs'⟩ := htakes.next hrun
    exact FetchSystem.counts_of_exactOccupancy
      (FetchSystem.unmarked_of_visits htakes.visits) (hexact s htakes.visits) (hexact s' hs') hstep
  · intro hcounts
    have hexact : ∀ s, Run.Visits (FetchSystem.step p) {} ops s → s.ExactOccupancy p := by
      intro s hs
      refine (hs.invariant (I := fun s => s.Unmarked ∧ s.ExactOccupancy p)
        ⟨fun e he => (by cases he), rfl, Nat.zero_le _⟩ ?_).2
      rintro op s s' ⟨U, H⟩ htakes hstep
      exact ⟨FetchSystem.unmarked_step U hstep,
        FetchSystem.exactOccupancy_step hsize U H (hcounts s op htakes) hstep⟩
    exact ⟨hexact, fun s htakes => FetchSystem.sendsDown hsize (hexact s htakes.visits)⟩

/-- Both blocks of the trace are sent before a flush, and the trace is read again. -/
def sentOps : List FetchOp :=
  [.credits 10, .cacheCredit 3, .fetch branchTrace, .fetch [], .cacheResponse 0 true,
   .cacheResponse 0 true, .send, .nextCycle, .deliver, .flush none, .send, .nextCycle, .deliver,
   .flush (some ⟨.misprediction, false, 2⟩),
   .fetch [{ inst := { uniqueId := 4, programId := 3 }, pc := 24 }], .cacheResponse 0 true, .send]

theorem fetch_occupancy_iff_sample :
    ∃ t, sentOps.foldlM (FetchSystem.step {}) {} = .ok t ∧
      t.toDecode.map Inst.uniqueId = [4] ∧
      (∀ s, Run.Visits (FetchSystem.step {}) {} sentOps s → s.ExactOccupancy {}) ∧
        ∀ s, Run.Takes (FetchSystem.step {}) {} sentOps s .send → s.SendsDown {} := by
  have heval : (sentOps.foldlM (FetchSystem.step {}) {}).toOption.map (fun t =>
      t.toDecode.map Inst.uniqueId) = some [4] := by
    decide +kernel
  have hall : Run.along (FetchSystem.step {}) (fun s op => decide (s.Counts {} op)) {} sentOps =
      true := by
    decide +kernel
  obtain ⟨t, ht, hsent⟩ := Run.ok_of_eval heval
  refine ⟨t, ht, hsent, (fetch_occupancy_iff {} (by decide) ht).mpr fun s op htakes => ?_⟩
  have htest := htakes.of_along hall
  exact of_decide_eq_true htest

/-- The flush of `branchOps` finds the second block in the buffer: when everything has been sent,
the counter still says that there is one. -/
theorem fetch_occupancy_stale :
    ¬∀ s, Run.Reachable (FetchSystem.step {}) {} s →
      s.fetch.fetchBufferOccupancy = Fetch.blocks s.fetch := by
  intro hall
  have heval : (branchOps.foldlM (FetchSystem.step {}) {}).toOption.map
      (fun s => (s.fetch.fetchBufferOccupancy, Fetch.blocks s.fetch)) = some (1, 0) := by
    decide +kernel
  obtain ⟨s, hs, heq⟩ := Run.ok_of_eval heval
  obtain ⟨hocc, hblocks⟩ := Prod.mk.inj heq
  have hexact := hall s ⟨_, hs⟩
  rw [hocc, hblocks] at hexact
  cases hexact

end Olympia
