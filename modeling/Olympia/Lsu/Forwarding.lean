import Olympia.Lsu.Invariant

/-!
# Store-to-load forwarding

`tryStoreToLoadForwarding` counts the bytes of a load that the stores of the store buffer cover.
What it counts lies in the range of a store (`hasByte_of_mem_coveredBy`), so a load that is
forwarded finds every byte in the store buffer (`exists_hasByte`).  The loop does not compare the
ages: whether the bytes are those of older stores depends on the younger stores in the buffer.
-/

namespace Olympia

namespace Lsu

/-! ## Bytes -/

/-- The `n`-th byte of a load lies in the range of a store, in an address space of 64 bits. -/
def HasByte (load store : Inst) (n : ℕ) : Prop :=
  ∃ m < store.memAccessSize, (load.targetVAddr + n) % 2 ^ 64 = (store.targetVAddr + m) % 2 ^ 64

instance (load store : Inst) (n : ℕ) : Decidable (HasByte load store n) :=
  inferInstanceAs (Decidable (∃ m < store.memAccessSize, _))

variable {load store : Inst} {n : ℕ}

theorem mem_coveredBy (h : n ∈ coveredBy load store) :
    store.targetVAddr ≤ load.targetVAddr + n ∧
      load.targetVAddr + n < (load.targetVAddr + load.memAccessSize) % 2 ^ 64 ∧
      load.targetVAddr + n < (store.targetVAddr + store.memAccessSize) % 2 ^ 64 := by
  unfold coveredBy at h
  dsimp only at h
  split at h
  · simp at h
  · obtain ⟨a, ha, rfl⟩ := Finset.mem_image.mp h
    obtain ⟨hstart, hend⟩ := Finset.mem_Ico.mp ha
    have hload := (le_max_left _ _).trans hstart
    rw [Nat.add_sub_cancel' hload]
    exact ⟨(le_max_right _ _).trans hstart, hend.trans_le (min_le_left _ _),
      hend.trans_le (min_le_right _ _)⟩

theorem lt_of_mem_coveredBy (h : n ∈ coveredBy load store) : n < load.memAccessSize := by
  have hlt := (mem_coveredBy h).2.1
  have hle := Nat.mod_le (load.targetVAddr + load.memAccessSize) (2 ^ 64)
  omega

theorem hasByte_of_mem_coveredBy (h : n ∈ coveredBy load store) : HasByte load store n := by
  obtain ⟨hstart, -, hend⟩ := mem_coveredBy h
  have hle := Nat.mod_le (store.targetVAddr + store.memAccessSize) (2 ^ 64)
  refine ⟨load.targetVAddr + n - store.targetVAddr, by omega, ?_⟩
  rw [Nat.add_sub_cancel' hstart]

/-- The bytes that the stores of the buffer cover together. -/
theorem mem_covered {storeBuffer : List RenamedInst} :
    n ∈ storeBuffer.foldr (fun e covered => covered ∪ coveredBy load e.inst) ∅ ↔
      ∃ e ∈ storeBuffer, n ∈ coveredBy load e.inst := by
  induction storeBuffer with
  | nil => simp
  | cons e l ih =>
    rw [List.foldr_cons, Finset.mem_union, ih]
    constructor
    · rintro (⟨e', he', hn⟩ | hn)
      · exact ⟨e', List.mem_cons_of_mem _ he', hn⟩
      · exact ⟨e, List.mem_cons_self, hn⟩
    · rintro ⟨e', he', hn⟩
      rcases List.mem_cons.mp he' with rfl | he'
      · exact .inr hn
      · exact .inl ⟨e', he', hn⟩

/-- The counter reaches the size of the load when every byte is covered. -/
theorem tryStoreToLoadForwarding_eq_true {storeBuffer : List RenamedInst} :
    tryStoreToLoadForwarding storeBuffer load = true ↔ 0 < load.memAccessSize ∧
      ∀ n < load.memAccessSize, ∃ e ∈ storeBuffer, n ∈ coveredBy load e.inst := by
  have hsub : storeBuffer.foldr (fun e covered => covered ∪ coveredBy load e.inst) ∅ ⊆
      Finset.range load.memAccessSize := by
    intro m hm
    obtain ⟨e, -, hm⟩ := mem_covered.mp hm
    exact Finset.mem_range.mpr (lt_of_mem_coveredBy hm)
  simp only [tryStoreToLoadForwarding, Bool.and_eq_true, bne_iff_ne, beq_iff_eq,
    Nat.pos_iff_ne_zero]
  refine and_congr_right fun _ => ?_
  constructor
  · intro hcard n hn
    have hall := Finset.eq_of_subset_of_card_le hsub (by rw [Finset.card_range, hcard])
    refine mem_covered.mp ?_
    rw [hall]
    exact Finset.mem_range.mpr hn
  · intro hall
    have heq := Finset.Subset.antisymm hsub fun n hn =>
      mem_covered.mpr (hall n (Finset.mem_range.mp hn))
    rw [heq, Finset.card_range]

/-- A load that is forwarded finds each of its bytes in the store buffer. -/
theorem exists_hasByte {storeBuffer : List RenamedInst}
    (h : tryStoreToLoadForwarding storeBuffer load = true) (hn : n < load.memAccessSize) :
    ∃ e ∈ storeBuffer, HasByte load e.inst n := by
  obtain ⟨e, he, hcov⟩ := (tryStoreToLoadForwarding_eq_true.mp h).2 n hn
  exact ⟨e, he, hasByte_of_mem_coveredBy hcov⟩

end Lsu

/-! ## The forwarded loads -/

open Lsu

namespace LsuSystem

/-- `handleCacheLookupReq_` comes to `tryStoreToLoadForwarding` with the load, and it returns
true. -/
structure Forwards (p : LsuParams) (s : LsuSystem) (load : RenamedInst) : Prop where
  stage : s.work.stages p.cacheLookupStage = some load
  isLoad : load.inst.isStore = false
  phyAddr : (s.work.info load.key).phyAddrReady = true
  older : p.allowSpeculativeLoadExec = false ∨ allOlderStoresIssued s.queue s.work load = true
  allowed : p.allowDataForwarding = true
  found : tryStoreToLoadForwarding s.lsu.storeBuffer load.inst = true

variable {p : LsuParams} {s : LsuSystem} {load : RenamedInst}

/-- Then the load is marked. -/
theorem Forwards.handleCacheLookupReq (h : Forwards p s load) :
    handleCacheLookupReq p s.queue s.lsu.storeBuffer s.work s.table =
      .ok (s.work.modifyInfo load.key fun i => { i with dataReady := true, cacheState := .hit },
        s.table) := by
  obtain ⟨hstage, hload, hphy, holder, hallowed, hfound⟩ := h
  have hspec : ¬(!load.inst.isStore && !allOlderStoresIssued s.queue s.work load &&
      p.allowSpeculativeLoadExec) = true := by
    rcases holder with h | h <;> simp [h]
  unfold Lsu.handleCacheLookupReq
  rw [hstage]
  dsimp only
  rw [if_neg (by simp [hphy]), if_neg (by simp [hload]), if_neg hspec,
    if_pos (by simp [hload, hallowed, hfound])]

/-- Nothing else in the handler makes data ready. -/
theorem forwards_of_dataReady {w : LsuWork} {T : InstTable} {k : InstKey}
    (h : handleCacheLookupReq p s.queue s.lsu.storeBuffer s.work s.table = .ok (w, T))
    (hold : (s.work.info k).dataReady = false) (hnew : (w.info k).dataReady = true) :
    ∃ load, load.key = k ∧ Forwards p s load := by
  have hkept : (w.info k).toMemoryAccessInfo ≠ (s.work.info k).toMemoryAccessInfo := by
    intro heq
    rw [show (w.info k).dataReady = _ from congrArg MemoryAccessInfo.dataReady heq, hold] at hnew
    cases hnew
  have hready : ∀ k', (((s.work.modifyInfo k' fun i => { i with state := .ready }).info k)
      ).toMemoryAccessInfo = (s.work.info k).toMemoryAccessInfo := by
    intro k'
    by_cases hk : k = k'
    · subst hk
      simp [LsuWork.modifyInfo]
    · simp [LsuWork.modifyInfo, hk]
  cases handleCacheLookupReq_cases h with
  | idle _ => exact absurd rfl hkept
  | miss _ _ hbounce =>
    exact absurd ((bounce_access hbounce k).trans (scheduleReplay_access k)) hkept
  | store _ _ _ _ => exact (hkept ((scheduleReplay_access k).trans (hready _))).elim
  | wait _ _ _ _ => exact (hkept ((scheduleReplay_access k).trans (hready _))).elim
  | @forward ri hri hphy hload holder hallowed hfound =>
    by_cases hk : ri.key = k
    · exact ⟨ri, hk, hri, hload, hphy, holder, hallowed, hfound⟩
    · exact absurd (by simp [LsuWork.modifyInfo, Ne.symm hk]) hkept
  | bypass _ _ => exact absurd rfl hkept
  | request _ _ _ _ => exact absurd rfl hkept

/-- The bytes of a forwarded load are those of older stores exactly when a younger store covers
only bytes that an older one covers as well. -/
theorem forwarded_from_older (hfwd : Forwards p s load) :
    (∀ n < load.inst.memAccessSize, ∃ e ∈ s.lsu.storeBuffer,
      e.uniqueId < load.uniqueId ∧ HasByte load.inst e.inst n) ↔
    ∀ e ∈ s.lsu.storeBuffer, load.uniqueId ≤ e.uniqueId →
      ∀ n < load.inst.memAccessSize, HasByte load.inst e.inst n →
        ∃ e' ∈ s.lsu.storeBuffer, e'.uniqueId < load.uniqueId ∧ HasByte load.inst e'.inst n := by
  constructor
  · intro hold e _ _ n hn _
    exact hold n hn
  · intro hyoung n hn
    obtain ⟨e, he, hbyte⟩ := exists_hasByte hfwd.found hn
    by_cases hage : e.uniqueId < load.uniqueId
    · exact ⟨e, he, hage, hbyte⟩
    · exact hyoung e he (by omega) n hn hbyte

/-- A run that comes to the lookup of a load. -/
theorem forwards_of_eval (ops : List LsuSystemOp) (load : RenamedInst)
    {stores : List RenamedInst}
    (heval : (ops.foldlM (step {}) {}).toOption.map (fun s =>
      (s.work.stages 2, (s.work.info load.key).phyAddrReady, s.lsu.storeBuffer)) =
        some (some load, true, stores))
    (hload : load.inst.isStore = false)
    (hfound : tryStoreToLoadForwarding stores load.inst = true) :
    ∃ s, Run.Reachable (step {}) {} s ∧ Forwards {} s load ∧ s.lsu.storeBuffer = stores := by
  obtain ⟨s, hs, heq⟩ := Run.ok_of_eval heval
  obtain ⟨hstage, heq⟩ := Prod.mk.inj heq
  obtain ⟨hphy, rfl⟩ := Prod.mk.inj heq
  exact ⟨s, ⟨_, hs⟩, ⟨hstage, hload, hphy, .inl rfl, rfl, hfound⟩, rfl⟩

/-- A load between two stores to its address, up to its lookup. -/
def betweenStoresRun : List LsuSystemOp :=
  [.dispatch (sampleStore 1 3 64 .integer 4) false, .dispatch (sampleLoad 2 3 64) false,
    .dispatch (sampleStore 3 3 64 .integer 4) false, .tick, .issueInst, .nextCycle, .tick,
    .addressCalculation, .issueInst, .nextCycle, .tick, .work .mmuLookup, .work (.mmuAck 0 true),
    .addressCalculation, .issueInst, .nextCycle, .tick, .work .cacheLookup, .work .mmuLookup,
    .work (.mmuAck 0 true), .addressCalculation, .nextCycle, .tick, .work .cacheLookup,
    .work .mmuLookup, .work (.mmuAck 0 true), .nextCycle, .tick]

/-- All bytes are those of the first store, too. -/
theorem forwarded_from_older_in_run : ∃ s, Run.Reachable (step {}) {} s ∧
    Forwards {} s (sampleLoad 2 3 64) ∧ ∀ n < 4, ∃ e ∈ s.lsu.storeBuffer,
      e.uniqueId < 2 ∧ HasByte (sampleLoad 2 3 64).inst e.inst n := by
  obtain ⟨s, hreach, hfwd, hbuffer⟩ := forwards_of_eval betweenStoresRun (sampleLoad 2 3 64)
    (show _ = some (_, _, [sampleStore 1 3 64 .integer 4, sampleStore 3 3 64 .integer 4]) from rfl)
    rfl rfl
  refine ⟨s, hreach, hfwd, (forwarded_from_older hfwd).mpr fun e _ _ n hn _ => ?_⟩
  have hmem : sampleStore 1 3 64 .integer 4 ∈ s.lsu.storeBuffer := by
    rw [hbuffer]
    exact List.mem_cons_self
  exact ⟨_, hmem, by decide, n, hn, rfl⟩

/-- A load, and behind it a store to the same address, up to the lookup of the load. -/
def forwardingRun : List LsuSystemOp :=
  [.dispatch (sampleLoad 1 2 64) false, .dispatch (sampleStore 2 3 64 .integer 4) false, .tick,
    .issueInst, .nextCycle, .tick, .addressCalculation, .issueInst, .nextCycle, .tick,
    .addressCalculation, .work .mmuLookup, .work (.mmuAck 0 true), .nextCycle, .tick]

/-- The load takes its data from the store behind it. -/
theorem younger_store_forwarded : ∃ s load, Run.Reachable (step {}) {} s ∧ Forwards {} s load ∧
    ¬∀ n < load.inst.memAccessSize, ∃ e ∈ s.lsu.storeBuffer,
      e.uniqueId < load.uniqueId ∧ HasByte load.inst e.inst n := by
  obtain ⟨s, hreach, hfwd, hbuffer⟩ := forwards_of_eval forwardingRun (sampleLoad 1 2 64)
    (show _ = some (_, _, [sampleStore 2 3 64 .integer 4]) from rfl) rfl rfl
  refine ⟨s, _, hreach, hfwd, fun hall => ?_⟩
  obtain ⟨e, he, hage, -⟩ := hall 0 (by decide)
  rw [hbuffer] at he
  rw [List.mem_singleton.mp he] at hage
  exact absurd hage (by decide)

end LsuSystem

end Olympia
