import Mathlib.Order.Interval.Finset.Nat
import Olympia.Lib.Mask
import Olympia.Lsu.Forwarding

/-!
# The coverage mask of store-to-load forwarding

The loops of `tryStoreToLoadForwarding` as they are written, with the mask, the counter and the
early exit (`scanStoreBuffer`).  They never leave the mask and compute `tryStoreToLoadForwarding`
(`scanStoreBuffer_eq`), which only asks how many bytes the stores cover together.

The ends of the ranges are sums of 64 bits.  A load or a store whose last byte is the last of the
address space ends at 0, and overlaps nothing.
-/

namespace Olympia

namespace Lsu

/-- The body of the loop over the bytes of the overlap.  The mask has the size of the load, so its
counter is a number of 32 bits. -/
def markByte (load : Inst) (m : Mask) (addr : ℕ) : Option Mask :=
  m.mark ((addr - load.targetVAddr) % 2 ^ 32)

/-- The loop over the bytes that a store and the load have in common. -/
def markStore (load store : Inst) (m : Mask) : Option Mask :=
  let overlapStart := max load.targetVAddr store.targetVAddr
  let overlapEnd := min ((load.targetVAddr + load.memAccessSize) % 2 ^ 64)
    ((store.targetVAddr + store.memAccessSize) % 2 ^ 64)
  if overlapStart < overlapEnd then
    (List.range' overlapStart (overlapEnd - overlapStart)).foldlM (markByte load) m
  else some m

/-- The loop over the stores, from the youngest on. -/
def scanStores (load : Inst) : List RenamedInst → Mask → Option Mask
  | [], m => some m
  | e :: older, m =>
    if e.inst.memAccessSize = 0 then scanStores load older m
    else do
      let m ← markStore load e.inst m
      if m.count = load.memAccessSize then return m else scanStores load older m

/-- `tryStoreToLoadForwarding`, loop by loop. -/
def scanStoreBuffer (storeBuffer : List RenamedInst) (load : Inst) : Option Bool :=
  if load.memAccessSize = 0 then some false
  else do
    let m ← scanStores load storeBuffer.reverse (.empty load.memAccessSize)
    return m.count = load.memAccessSize

variable {load store : Inst} {m : Mask} {S : Finset ℕ}

theorem coveredBy_subset_range : coveredBy load store ⊆ Finset.range load.memAccessSize :=
  fun _ hn => Finset.mem_range.mpr (lt_of_mem_coveredBy hn)

theorem coveredBy_of_size_zero (h : store.memAccessSize = 0) : coveredBy load store = ∅ := by
  unfold coveredBy
  exact if_pos h

/-- The bytes of an overlap are those of `coveredBy`. -/
theorem markStore_marks (H : m.Marks load.memAccessSize S) (hsize : load.memAccessSize < 2 ^ 32)
    (hstore : store.memAccessSize ≠ 0) :
    ∃ m', markStore load store m = some m' ∧
      m'.Marks load.memAccessSize (S ∪ coveredBy load store) := by
  unfold markStore
  dsimp only
  have hend := Nat.mod_le (load.targetVAddr + load.memAccessSize) (2 ^ 64)
  split
  · rename_i hlt
    have hidx : ∀ addr ∈ List.range' (max load.targetVAddr store.targetVAddr)
        (min ((load.targetVAddr + load.memAccessSize) % 2 ^ 64)
          ((store.targetVAddr + store.memAccessSize) % 2 ^ 64) -
            max load.targetVAddr store.targetVAddr),
        addr - load.targetVAddr < load.memAccessSize := by
      intro addr haddr
      rw [List.mem_range'_1] at haddr
      omega
    have hcast : ∀ addr ∈ List.range' (max load.targetVAddr store.targetVAddr)
        (min ((load.targetVAddr + load.memAccessSize) % 2 ^ 64)
          ((store.targetVAddr + store.memAccessSize) % 2 ^ 64) -
            max load.targetVAddr store.targetVAddr),
        (addr - load.targetVAddr) % 2 ^ 32 = addr - load.targetVAddr := fun addr haddr =>
      Nat.mod_eq_of_lt ((hidx addr haddr).trans hsize)
    obtain ⟨m', hm', H'⟩ := H.foldlM_mark (f := fun addr => (addr - load.targetVAddr) % 2 ^ 32)
      fun addr haddr => by rw [hcast addr haddr]; exact hidx addr haddr
    refine ⟨m', hm', ?_⟩
    rw [List.map_congr_left hcast] at H'
    have hset : coveredBy load store = ((List.range' (max load.targetVAddr store.targetVAddr)
        (min ((load.targetVAddr + load.memAccessSize) % 2 ^ 64)
          ((store.targetVAddr + store.memAccessSize) % 2 ^ 64) -
            max load.targetVAddr store.targetVAddr)).map
              fun addr => addr - load.targetVAddr).toFinset := by
      unfold coveredBy
      rw [if_neg hstore]
      ext n
      simp only [Finset.mem_image, Finset.mem_Ico, List.mem_toFinset, List.mem_map,
        List.mem_range'_1]
      refine exists_congr fun addr => and_congr_left fun _ => ?_
      omega
    rw [hset]
    exact H'
  · rename_i hnot
    have hempty : coveredBy load store = ∅ := by
      unfold coveredBy
      rw [if_neg hstore, Finset.Ico_eq_empty hnot, Finset.image_empty]
    exact ⟨m, rfl, by rwa [hempty, Finset.union_empty]⟩

/-- The early exit leaves out only what adds nothing. -/
theorem scanStores_marks (hsize : load.memAccessSize < 2 ^ 32) :
    ∀ (stores : List RenamedInst) {m : Mask} {S : Finset ℕ}, m.Marks load.memAccessSize S →
      ∃ m', scanStores load stores m = some m' ∧ m'.Marks load.memAccessSize
        (stores.foldl (fun covered e => covered ∪ coveredBy load e.inst) S)
  | [], m, S, H => ⟨m, rfl, H⟩
  | e :: older, m, S, H => by
    rw [List.foldl_cons]
    unfold scanStores
    split
    · rename_i hzero
      rw [coveredBy_of_size_zero hzero, Finset.union_empty]
      exact scanStores_marks hsize older H
    · rename_i hstore
      obtain ⟨m₁, hm₁, H₁⟩ := markStore_marks H hsize hstore
      rw [hm₁]
      dsimp only [bind, Option.bind]
      split
      · rename_i hfull
        have hrest : ∀ (stores : List RenamedInst), stores.foldl
            (fun covered e => covered ∪ coveredBy load e.inst) (S ∪ coveredBy load e.inst) =
              S ∪ coveredBy load e.inst := by
          intro stores
          induction stores with
          | nil => rfl
          | cons e' stores ih =>
            rw [List.foldl_cons, H₁.union_eq coveredBy_subset_range hfull]
            exact ih
        exact ⟨m₁, rfl, by rwa [hrest]⟩
      · exact scanStores_marks hsize older H₁

/-- The mask, the counter and the early exit do not change the answer, and no index is outside of
the mask. -/
theorem scanStoreBuffer_eq (storeBuffer : List RenamedInst) (hsize : load.memAccessSize < 2 ^ 32) :
    scanStoreBuffer storeBuffer load = some (tryStoreToLoadForwarding storeBuffer load) := by
  unfold scanStoreBuffer tryStoreToLoadForwarding
  split
  · rename_i hzero
    simp [hzero]
  · rename_i hpos
    obtain ⟨m, hm, H⟩ := scanStores_marks hsize storeBuffer.reverse
      (Mask.marks_empty load.memAccessSize)
    rw [List.foldl_reverse] at H
    rw [hm]
    have hne : (load.memAccessSize != 0) = true := by simpa using hpos
    rw [hne, Bool.true_and]
    simp only [bind, Option.bind, pure, H.count]
    rfl

/-! ## What is forwarded -/

/-- The address lies in the range of the access. -/
def Inst.Accesses (i : Inst) (addr : ℕ) : Prop :=
  i.targetVAddr ≤ addr ∧ addr < i.targetVAddr + i.memAccessSize

/-- The load reads something, and every byte of it lies in the range of a store. -/
def Covers (storeBuffer : List RenamedInst) (load : Inst) : Prop :=
  0 < load.memAccessSize ∧ ∀ addr, Inst.Accesses load addr →
    ∃ e ∈ storeBuffer, Inst.Accesses e.inst addr

/-- The access ends before the end of the address space. -/
def endsInside (i : Inst) : Bool := i.targetVAddr + i.memAccessSize < 2 ^ 64

theorem mem_coveredBy_iff {n : ℕ} (hload : endsInside load = true)
    (hstore : endsInside store = true) :
    n ∈ coveredBy load store ↔
      n < load.memAccessSize ∧ Inst.Accesses store (load.targetVAddr + n) := by
  have hload := of_decide_eq_true hload
  have hstore := of_decide_eq_true hstore
  unfold coveredBy
  dsimp only
  rw [Nat.mod_eq_of_lt hload, Nat.mod_eq_of_lt hstore]
  split
  · rename_i hzero
    simp only [Finset.notMem_empty, Inst.Accesses, false_iff, hzero]
    omega
  · simp only [Finset.mem_image, Finset.mem_Ico, Inst.Accesses]
    constructor
    · rintro ⟨addr, haddr, rfl⟩
      omega
    · intro hn
      exact ⟨load.targetVAddr + n, by omega, by omega⟩

/-- What ends at the end of the address space ends at 0. -/
theorem end_eq_zero {i : Inst} (hle : i.targetVAddr + i.memAccessSize ≤ 2 ^ 64)
    (hend : endsInside i = false) : (i.targetVAddr + i.memAccessSize) % 2 ^ 64 = 0 := by
  have hge := of_decide_eq_false hend
  have heq : i.targetVAddr + i.memAccessSize = 2 ^ 64 := by omega
  rw [heq, Nat.mod_self]

theorem coveredBy_eq_empty (h : (load.targetVAddr + load.memAccessSize) % 2 ^ 64 = 0 ∨
    (store.targetVAddr + store.memAccessSize) % 2 ^ 64 = 0) : coveredBy load store = ∅ := by
  refine Finset.eq_empty_of_forall_notMem fun n hn => ?_
  obtain ⟨-, hload, hstore⟩ := mem_coveredBy hn
  omega

/-- The loads that are forwarded: those that end inside of the address space and are covered by
the stores that do so as well. -/
theorem tryStoreToLoadForwarding_iff {storeBuffer : List RenamedInst}
    (hload : load.targetVAddr + load.memAccessSize ≤ 2 ^ 64)
    (hstores : ∀ e ∈ storeBuffer, e.inst.targetVAddr + e.inst.memAccessSize ≤ 2 ^ 64) :
    tryStoreToLoadForwarding storeBuffer load = true ↔
      endsInside load = true ∧ Covers (storeBuffer.filter fun e => endsInside e.inst) load := by
  rw [tryStoreToLoadForwarding_eq_true]
  constructor
  · rintro ⟨hpos, hcov⟩
    have hload_inside : endsInside load = true := by
      by_contra hend
      obtain ⟨e, -, h0⟩ := hcov 0 hpos
      rw [coveredBy_eq_empty (.inl (end_eq_zero hload (by simpa using hend)))] at h0
      exact Finset.notMem_empty 0 h0
    refine ⟨hload_inside, hpos, fun addr haddr => ?_⟩
    obtain ⟨hstart, hlt⟩ := haddr
    obtain ⟨e, he, hn⟩ := hcov (addr - load.targetVAddr) (by omega)
    have hinside : endsInside e.inst = true := by
      by_contra hend
      rw [coveredBy_eq_empty (.inr (end_eq_zero (hstores e he) (by simpa using hend)))] at hn
      exact Finset.notMem_empty _ hn
    refine ⟨e, List.mem_filter.mpr ⟨he, hinside⟩, ?_⟩
    have hacc := ((mem_coveredBy_iff hload_inside hinside).mp hn).2
    rwa [Nat.add_sub_cancel' hstart] at hacc
  · rintro ⟨hinside, hpos, hall⟩
    refine ⟨hpos, fun n hn => ?_⟩
    obtain ⟨e, he, hacc⟩ := hall (load.targetVAddr + n) ⟨Nat.le_add_right _ _, by omega⟩
    obtain ⟨he, hend⟩ := List.mem_filter.mp he
    exact ⟨e, he, (mem_coveredBy_iff hinside hend).mpr ⟨hn, hacc⟩⟩

/-- The loops of the forwarding check compute whether the stores cover the load, provided that a
load that they cover ends inside of the address space, and that those that do so as well cover
it.  The loops never leave the mask, and neither it nor the counter nor the early exit changes the
answer. -/
theorem forwarding_coverage {storeBuffer : List RenamedInst}
    (hsize : load.memAccessSize < 2 ^ 32) (hload : load.targetVAddr + load.memAccessSize ≤ 2 ^ 64)
    (hstores : ∀ e ∈ storeBuffer, e.inst.targetVAddr + e.inst.memAccessSize ≤ 2 ^ 64) :
    scanStoreBuffer storeBuffer load = some (tryStoreToLoadForwarding storeBuffer load) ∧
      ((tryStoreToLoadForwarding storeBuffer load = true ↔ Covers storeBuffer load) ↔
        (Covers storeBuffer load → endsInside load = true ∧
          Covers (storeBuffer.filter fun e => endsInside e.inst) load)) := by
  refine ⟨scanStoreBuffer_eq storeBuffer hsize, ?_⟩
  rw [tryStoreToLoadForwarding_iff hload hstores]
  constructor
  · exact fun h => h.mpr
  · intro h
    refine ⟨fun hfound => ?_, h⟩
    obtain ⟨-, hpos, hall⟩ := hfound
    refine ⟨hpos, fun addr haddr => ?_⟩
    obtain ⟨e, he, hacc⟩ := hall addr haddr
    exact ⟨e, List.mem_of_mem_filter he, hacc⟩

/-- An access of eight bytes. -/
def doubleword (uid addr : ℕ) (store : Bool) : RenamedInst where
  inst := { uniqueId := uid, pipe := .lsu, isStore := store, isLoad := !store,
            targetVAddr := addr, memAccessSize := 8 }

/-- The load of the last doubleword of the address space is covered by the store to it, and is not
forwarded. -/
theorem last_doubleword_not_forwarded :
    scanStoreBuffer [doubleword 1 (2 ^ 64 - 8) true] (doubleword 2 (2 ^ 64 - 8) false).inst =
        some false ∧
      Covers [doubleword 1 (2 ^ 64 - 8) true] (doubleword 2 (2 ^ 64 - 8) false).inst := by
  refine ⟨by decide, by decide, fun addr haddr => ?_⟩
  exact ⟨_, List.mem_cons_self, haddr⟩

/-- A load that takes four bytes from each of two stores. -/
theorem forwarding_coverage_sample :
    tryStoreToLoadForwarding [doubleword 1 64 true, doubleword 2 72 true]
        (doubleword 3 68 false).inst = true ∧
      scanStoreBuffer [doubleword 1 64 true, doubleword 2 72 true] (doubleword 3 68 false).inst =
        some true ∧
      Covers [doubleword 1 64 true, doubleword 2 72 true] (doubleword 3 68 false).inst := by
  have hfound : tryStoreToLoadForwarding [doubleword 1 64 true, doubleword 2 72 true]
      (doubleword 3 68 false).inst = true := by decide
  obtain ⟨hscan, hiff⟩ := @forwarding_coverage (doubleword 3 68 false).inst
    [doubleword 1 64 true, doubleword 2 72 true] (by decide) (by decide) (by decide)
  rw [hfound] at hscan
  refine ⟨hfound, hscan, (hiff.mpr fun hcov => ⟨by decide, ?_⟩).mp hfound⟩
  exact hcov

end Lsu

end Olympia
