import Olympia.Lsu.Invariant

/-!
# What a flush leaves behind

`handleFlush_` filters every list of the LSU by the same test, so what it takes and what it keeps
follow from one fact about filters.  The exception are the ready callbacks: `flushIssueQueue_`
clears them by the unique ID of an instruction that it takes out of `ldst_inst_queue_`, and in the
integer and the float file only.
-/

namespace Olympia

namespace Lsu

variable {p : LsuParams} {c : FlushingCriteria}

/-- The flush leaves the instruction alone. -/
def keeps (c : FlushingCriteria) (ri : RenamedInst) : Bool := !c.includedInFlush ri.inst

/-- No instruction included in the flush is in a structure of the LSU. -/
structure NoTrace (c : FlushingCriteria) (s : LsuState) : Prop where
  ldstInstQueue : ∀ ri ∈ s.ldstInstQueue, keeps c ri = true
  storeBuffer : ∀ ri ∈ s.storeBuffer, keeps c ri = true
  readyQueue : ∀ ri ∈ s.work.readyQueue, keeps c ri = true
  replayBuffer : ∀ ri ∈ s.work.replayBuffer, keeps c ri = true
  stages : ∀ n, ∀ ri ∈ s.work.stages n, keeps c ri = true
  appendReady : ∀ ri ∈ s.work.appendReady, keeps c ri = true
  replayReady : ∀ ri ∈ s.work.replayReady, keeps c ri = true
  callbacks : ∀ cb ∈ s.work.callbacks, keeps c cb.inst = true

/-- The instructions not included are where they were, in the same order. -/
structure Untouched (c : FlushingCriteria) (s s' : LsuState) : Prop where
  ldstInstQueue : s'.ldstInstQueue.filter (keeps c) = s.ldstInstQueue.filter (keeps c)
  storeBuffer : s'.storeBuffer.filter (keeps c) = s.storeBuffer.filter (keeps c)
  readyQueue : s'.work.readyQueue.filter (keeps c) = s.work.readyQueue.filter (keeps c)
  replayBuffer : s'.work.replayBuffer.filter (keeps c) = s.work.replayBuffer.filter (keeps c)
  stages : ∀ n, (s'.work.stages n).filter (keeps c) = (s.work.stages n).filter (keeps c)
  appendReady : s'.work.appendReady.filter (keeps c) = s.work.appendReady.filter (keeps c)
  replayReady : s'.work.replayReady.filter (keeps c) = s.work.replayReady.filter (keeps c)
  callbacks : s'.work.callbacks.filter (fun cb => keeps c cb.inst) =
    s.work.callbacks.filter fun cb => keeps c cb.inst

theorem filter_keeps {α : Type} (k : α → Bool) (l : List α) :
    (l.filter k).filter k = l.filter k := by
  rw [List.filter_filter]
  exact List.filter_congr fun a _ => Bool.and_self _

theorem option_filter_keeps {α : Type} (k : α → Bool) (o : Option α) :
    (o.filter k).filter k = o.filter k := by
  rcases o with _ | a
  · rfl
  · by_cases ha : k a = true
    · simp [Option.filter, ha]
    · simp [Option.filter, ha]

/-- A flush does not touch what it does not include. -/
theorem handleFlush_untouched (s : LsuState) (c : FlushingCriteria) :
    Untouched c s (handleFlush s c).1 := by
  refine ⟨filter_keeps _ _, filter_keeps _ _, filter_keeps _ _, filter_keeps _ _,
    fun n => option_filter_keeps _ _, filter_keeps _ _, filter_keeps _ _, ?_⟩
  -- a callback is cleared for an instruction with the same unique ID, which is included as well
  refine (List.filter_filter).trans (List.filter_congr fun cb _ => ?_)
  rw [Bool.and_eq_left_iff_imp]
  intro hkeep
  refine decide_eq_true (.inr ?_)
  rw [Bool.not_eq_true', List.any_eq_false]
  intro e he huid
  have hinc := (List.mem_filter.mp he).2
  have huid : e.inst.uniqueId = cb.inst.inst.uniqueId := of_decide_eq_true huid
  unfold keeps FlushingCriteria.includedInFlush at hkeep
  unfold FlushingCriteria.includedInFlush at hinc
  rw [← huid, hinc] at hkeep
  cases hkeep

/-- A callback stays if it is in the vector file, or of an instruction that is not in the queue. -/
theorem mem_callbacks_handleFlush {s : LsuState} {cb : LsuCallback} :
    cb ∈ (handleFlush s c).1.work.callbacks ↔ cb ∈ s.work.callbacks ∧
      (cb.regFile = .vector ∨ ∀ ri ∈ s.ldstInstQueue, c.includedInFlush ri.inst = true →
        ri.uniqueId ≠ cb.inst.uniqueId) := by
  unfold handleFlush
  simp only [List.mem_filter, decide_eq_true_eq, Bool.not_eq_true', List.any_eq_false]
  refine and_congr_right fun _ => or_congr_right ?_
  constructor
  · intro h ri hri hinc huid
    exact h ri ⟨hri, hinc⟩ huid
  · rintro h ri ⟨hri, hinc⟩ huid
    exact h ri hri hinc huid

/-- A flush takes what it includes out of everything but the callbacks. -/
theorem handleFlush_noTrace {s : LsuState} (hcb : ∀ cb ∈ (handleFlush s c).1.work.callbacks,
    keeps c cb.inst = true) : NoTrace c (handleFlush s c).1 where
  ldstInstQueue _ h := (List.mem_filter.mp h).2
  storeBuffer _ h := (List.mem_filter.mp h).2
  readyQueue _ h := (List.mem_filter.mp h).2
  replayBuffer _ h := (List.mem_filter.mp h).2
  stages _ _ h := (Option.filter_eq_some_iff.mp h).2
  appendReady _ h := (List.mem_filter.mp h).2
  replayReady _ h := (List.mem_filter.mp h).2
  callbacks := hcb

end Lsu

namespace LsuSystem

open Lsu

variable {p : LsuParams} {s : LsuSystem}

/-- A flush leaves no trace exactly when the callbacks of the included instructions are in the
integer or the float file and belong to instructions of the queue.  The stages are all there is in
the pipeline: nothing has just been appended. -/
theorem flush_no_trace (hreach : Run.Reachable (step p) {} s) (c : FlushingCriteria) :
    (NoTrace c (handleFlush s.lsu c).1 ∧ Untouched c s.lsu (handleFlush s.lsu c).1 ∧
      (handleFlush s.lsu c).1.ldstInstQueue.length + (handleFlush s.lsu c).2 = s.queue.length ∧
      (s.phase = .portUpdate → (handleFlush s.lsu c).1.work.appended = none)) ↔
    ∀ cb ∈ s.work.callbacks, c.includedInFlush cb.inst.inst = true →
      cb.regFile ≠ .vector ∧ ∃ ri ∈ s.queue, ri.uniqueId = cb.inst.uniqueId := by
  constructor
  · rintro ⟨htrace, -⟩ cb hcb hinc
    have hgone : cb ∉ (handleFlush s.lsu c).1.work.callbacks := fun hmem => by
      simpa [keeps, hinc] using htrace.callbacks cb hmem
    rw [mem_callbacks_handleFlush] at hgone
    simp only [not_and, not_or, not_forall, not_not] at hgone
    obtain ⟨hvector, ri, hri, -, huid⟩ := hgone hcb
    exact ⟨hvector, ri, hri, huid⟩
  · intro hcond
    refine ⟨handleFlush_noTrace fun cb hcb => ?_, handleFlush_untouched _ _,
      handleFlush_length _ _, fun hphase => ((Inv.reachable hreach).between hphase).1⟩
    obtain ⟨hcb, hkept⟩ := mem_callbacks_handleFlush.mp hcb
    rw [keeps, Bool.not_eq_true']
    by_contra hinc
    have hinc : c.includedInFlush cb.inst.inst = true := by simpa using hinc
    obtain ⟨hvector, ri, hri, huid⟩ := hcond cb hcb hinc
    rcases hkept with h | h
    · exact hvector h
    · refine h ri hri ?_ huid
      have huid : ri.inst.uniqueId = cb.inst.inst.uniqueId := huid
      unfold FlushingCriteria.includedInFlush at hinc ⊢
      rw [huid]
      exact hinc

/-- A load, and behind it a store that waits for its data in an integer register. -/
def integerStoreRun : List LsuSystemOp :=
  [.clearBits .integer {4}, .dispatch (sampleLoad 1 2 64) false,
    .dispatch (sampleStore 2 3 64 .integer 4) false]

def integerStoreFlush : FlushingCriteria := ⟨.trap, true, 2⟩

/-- The flush takes the store with its callback, and leaves the load. -/
theorem flush_no_trace_in_run : ∃ s, Run.Reachable (step {}) {} s ∧
    s.work.callbacks = [.data .integer (sampleStore 2 3 64 .integer 4)] ∧
    NoTrace integerStoreFlush (handleFlush s.lsu integerStoreFlush).1 ∧
    Untouched integerStoreFlush s.lsu (handleFlush s.lsu integerStoreFlush).1 ∧
    (handleFlush s.lsu integerStoreFlush).2 = 1 := by
  obtain ⟨s, hs, heq⟩ := Run.ok_of_eval (x := integerStoreRun.foldlM (step {}) {})
    (f := fun s => (s.work.callbacks, s.queue,
      (handleFlush s.lsu integerStoreFlush).1.ldstInstQueue.length))
    (b := ([.data .integer (sampleStore 2 3 64 .integer 4)],
      [sampleLoad 1 2 64, sampleStore 2 3 64 .integer 4], 1)) rfl
  obtain ⟨hcallbacks, heq⟩ := Prod.mk.inj heq
  obtain ⟨hqueue, hleft⟩ := Prod.mk.inj heq
  obtain ⟨htrace, huntouched, hcredits, -⟩ :=
    (flush_no_trace ⟨_, hs⟩ integerStoreFlush).mpr fun cb hcb _ => by
      rw [hcallbacks] at hcb
      obtain rfl := List.mem_singleton.mp hcb
      exact ⟨by decide, _, by rw [hqueue]; exact List.mem_cons_of_mem _ List.mem_cons_self, rfl⟩
  rw [hqueue, hleft] at hcredits
  exact ⟨s, ⟨_, hs⟩, hcallbacks, htrace, huntouched, Nat.add_left_cancel hcredits⟩

/-- A store that waits for its data in a vector register, and a flush that takes it. -/
def vectorStoreRun : List LsuSystemOp :=
  [.clearBits .vector {4}, .dispatch (sampleStore 1 2 64 .vector 4) false]

def vectorStoreFlush : FlushingCriteria := ⟨.trap, true, 1⟩

/-- The callback of the store stays in the vector file. -/
theorem flush_leaves_callback : ∃ s, Run.Reachable (step {}) {} s ∧
    ¬NoTrace vectorStoreFlush (handleFlush s.lsu vectorStoreFlush).1 := by
  obtain ⟨s, hs, heq⟩ := Run.ok_of_eval (x := vectorStoreRun.foldlM (step {}) {})
    (f := fun s => (handleFlush s.lsu vectorStoreFlush).1.work.callbacks)
    (b := [.data .vector (sampleStore 1 2 64 .vector 4)]) rfl
  refine ⟨s, ⟨_, hs⟩, fun htrace => ?_⟩
  have hkept := htrace.callbacks (.data .vector (sampleStore 1 2 64 .vector 4)) (by
    rw [heq]
    exact List.mem_cons_self)
  exact absurd hkept (by decide)

end LsuSystem

end Olympia
