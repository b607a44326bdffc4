import Mathlib.Data.Finset.Card
import Olympia.Lib.Pool
import Olympia.Rename.Model

/-!
# Reference accounting of Rename

Who holds a reference to a physical register: an architectural register through its entry in
`map_table_`, and a destination of an instruction in flight through its `prev_dest`.  `refs`
is the multiset of all of them for one register file, and `Balanced` says that the counters
and the free list of every register file account for exactly those references.

Each of the four ways in which Rename touches a counter changes `refs` by one element:

* a destination taken from the free list adds the register taken (`Balanced.popDest`);
* a destination of an eliminated move adds the shared register (`Balanced.shareDest`);
* retiring a destination removes its `prev_dest` (`Balanced.reclaim`);
* flushing a destination removes its `phys_reg`, because the table entry goes back to the
  `prev_dest` that the destination no longer holds (`Balanced.restore`).
-/

namespace Olympia

/-! ## Register file components as a pool -/

namespace RegfileComponents

/-- The counters and the free list, without producers and scoreboard. -/
def pool (c : RegfileComponents) : Pool ℕ := ⟨fun r => (c.referenceCounter r).cnt, c.freelist⟩

theorem reference_pool (c : RegfileComponents) (prf : ℕ) (i : Inst) :
    (c.reference prf i).pool = c.pool.retain prf := by
  have hcnt : (c.reference prf i).pool.cnt = (c.pool.retain prf).cnt := by
    funext r
    by_cases hr : r = prf
    · simp [hr, pool, reference, Pool.retain]
    · simp [hr, pool, reference, Pool.retain]
  show Pool.mk _ _ = Pool.mk _ _
  exact congrArg (fun cnt => Pool.mk cnt c.freelist) hcnt

/-- A register with a reference can be reclaimed. -/
theorem reclaim_ok {c : RegfileComponents} {prf : ℕ} (h : c.pool.cnt prf ≠ 0) :
    ∃ c', c.reclaim prf = .ok c' ∧ c'.pool = c.pool.release prf ∧
      c'.scoreboard = c.scoreboard := by
  have hne : (c.referenceCounter prf).cnt ≠ 0 := h
  refine ⟨_, if_neg hne, ?_, rfl⟩
  have hcnt : (fun r => (Function.update c.referenceCounter prf
      { c.referenceCounter prf with cnt := (c.referenceCounter prf).cnt - 1 } r).cnt)
      = (c.pool.release prf).cnt := by
    funext r
    by_cases hr : r = prf
    · simp [hr, pool, Pool.release]
    · simp [hr, pool, Pool.release]
  show Pool.mk _ _ = Pool.mk _ _
  rw [hcnt]
  rfl

end RegfileComponents

/-! ## References -/

/-- All references to physical registers of a file, when `m` is the map table and `L` the
list of destinations in flight. -/
def refs (m : ArchReg → ℕ) (L : List Reg) (f : RegFile) : Multiset ℕ :=
  (archRegs f).val.map (fun a => m (f, a)) +
    ↑((L.filter fun d => d.opInfo.regFile = f).map Reg.prevDest)

section Refs

variable {m : ArchReg → ℕ} {L L' : List Reg} {f g : RegFile} {d : Reg}

theorem refs_perm (h : L.Perm L') : refs m L f = refs m L' f := by
  unfold refs
  rw [Multiset.coe_eq_coe.mpr ((h.filter _).map _)]

theorem refs_cons (d : Reg) :
    refs m (d :: L) f =
      if d.opInfo.regFile = f then d.prevDest ::ₘ refs m L f else refs m L f := by
  by_cases hf : d.opInfo.regFile = f
  · simp [refs, hf, ← Multiset.cons_coe]
  · simp [refs, hf]

/-- Changing one entry of the map table exchanges one reference. -/
theorem refs_update {a v : ℕ} (ha : a ∈ archRegs f) :
    m (f, a) ::ₘ refs (Function.update m (f, a) v) L f = v ::ₘ refs m L f := by
  have hsplit : (archRegs f).val = a ::ₘ (archRegs f).val.erase a :=
    (Multiset.cons_erase ha).symm
  have hrest : ((archRegs f).val.erase a).map
        (fun b => Function.update m (f, a) v (f, b))
      = ((archRegs f).val.erase a).map fun b => m (f, b) := by
    refine Multiset.map_congr rfl fun b hb => ?_
    have hne : b ≠ a := ((archRegs f).nodup.mem_erase_iff.mp hb).1
    exact Function.update_of_ne (by simpa using hne) _ _
  unfold refs
  rw [hsplit, Multiset.map_cons, Multiset.map_cons, hrest, Function.update_self]
  simp only [Multiset.cons_add]
  exact Multiset.cons_swap _ _ _

/-- The references of one register file do not depend on the table entries of another. -/
theorem refs_update_of_ne {r : ArchReg} {v : ℕ} (hne : r.1 ≠ f) :
    refs (Function.update m r v) L f = refs m L f := by
  have hmap : (fun a => Function.update m r v (f, a)) = fun a => m (f, a) := by
    funext a
    refine Function.update_of_ne ?_ _ _
    rintro rfl
    exact hne rfl
  unfold refs
  rw [hmap]

/-- Renaming a destination adds one reference, to the register it is renamed to. -/
theorem refs_rename (hd : d.opInfo.fieldValue ∈ archRegs d.opInfo.regFile)
    (hprev : d.prevDest = m d.opInfo.reg) :
    refs (Function.update m d.opInfo.reg d.physReg) (d :: L) f =
      if d.opInfo.regFile = f then d.physReg ::ₘ refs m L f else refs m L f := by
  rw [refs_cons]
  by_cases hf : d.opInfo.regFile = f
  · subst hf
    rw [if_pos rfl, if_pos rfl, hprev]
    exact refs_update hd
  · rw [if_neg hf, if_neg hf, refs_update_of_ne hf]

/-- Taking a renamed destination back removes that reference again. -/
theorem refs_restore (hd : d.opInfo.fieldValue ∈ archRegs d.opInfo.regFile)
    (hphys : m d.opInfo.reg = d.physReg) :
    refs m (d :: L) f =
      if d.opInfo.regFile = f then
        d.physReg ::ₘ refs (Function.update m d.opInfo.reg d.prevDest) L f
      else refs (Function.update m d.opInfo.reg d.prevDest) L f := by
  rw [refs_cons]
  by_cases hf : d.opInfo.regFile = f
  · subst hf
    rw [if_pos rfl, if_pos rfl, ← hphys]
    exact (refs_update hd).symm
  · rw [if_neg hf, if_neg hf, refs_update_of_ne hf]

/-- The references counted by who holds them. -/
theorem count_refs (r : ℕ) :
    (refs m L f).count r =
      ((archRegs f).filter fun a => m (f, a) = r).card +
        (L.filter fun d => d.opInfo.regFile = f).countP (fun d => d.prevDest = r) := by
  unfold refs
  rw [Multiset.count_add, Multiset.count_map, Multiset.coe_count]
  congr 1
  · rw [Finset.card_def, Finset.filter_val]
    simp only [eq_comm]
  · rw [List.count, List.countP_map]
    rfl

/-- A mapped register is referenced. -/
theorem mem_refs_of_map {a : ℕ} (ha : a ∈ archRegs f) : m (f, a) ∈ refs m L f :=
  Multiset.mem_add.mpr (.inl (Multiset.mem_map.mpr ⟨a, ha, rfl⟩))

/-- The `prev_dest` of a destination in flight is referenced. -/
theorem mem_refs_of_prevDest (hd : d ∈ L) : d.prevDest ∈ refs m L d.opInfo.regFile := by
  refine Multiset.mem_add.mpr (.inr ?_)
  have hmem : d ∈ L.filter fun d' => d'.opInfo.regFile = d.opInfo.regFile := by
    simpa using hd
  exact List.mem_map_of_mem hmem

/-- A register is referenced by a mapping or as a `prev_dest`. -/
theorem mem_refs_iff {q : ℕ} : q ∈ refs m L f ↔
    (∃ a ∈ archRegs f, m (f, a) = q) ∨ ∃ d ∈ L, d.opInfo.regFile = f ∧ d.prevDest = q := by
  unfold refs
  rw [Multiset.mem_add, Multiset.mem_map, Multiset.mem_coe, List.mem_map]
  simp [and_assoc]

end Refs

/-! ## Balanced tables -/

/-- The physical registers of a file that can be mapped: all but integer register 0. -/
def prfs (p : RenameParams) (f : RegFile) : Set ℕ := {r | firstReg f ≤ r ∧ r < numPrfs p f}

theorem ne_noPrevDest_of_mem_prfs {p : RenameParams} {f : RegFile} {r : ℕ}
    (h : r ∈ prfs p f) : r ≠ noPrevDest := by
  have hlt : r < max 32 (p.numRenames f) := h.2
  have hnum := p.numRenames_lt f
  unfold noPrevDest
  omega

/-- Counters and free lists account for the references of the map table and of the
destinations `L`. -/
def Balanced (p : RenameParams) (t : RenameTables) (L : List Reg) : Prop :=
  ∀ f, Pool.Exact (prfs p f) (t.regfileComponents f).pool (refs t.mapTable L f)

namespace Balanced

variable {p : RenameParams} {t : RenameTables} {L L' : List Reg} {d : Reg}

theorem perm (h : Balanced p t L) (hL : L.Perm L') : Balanced p t L' :=
  fun f => (h f).congr (refs_perm hL.symm)

/-- Replacing the components of the register file of `d`, when the references of that file
change to `R` and those of the others do not change. -/
theorem update {m' : ArchReg → ℕ} {q' : List RenamedInst} {c' : RegfileComponents}
    {f : RegFile} (h : Balanced p t L)
    (hself : Pool.Exact (prfs p f) c'.pool (refs m' L' f))
    (hother : ∀ g, f ≠ g → refs m' L' g = refs t.mapTable L g) :
    Balanced p ⟨m', q', Function.update t.regfileComponents f c'⟩ L' := by
  intro g
  by_cases hg : f = g
  · subst hg
    simpa using hself
  · show Pool.Exact _ (Function.update t.regfileComponents f c' g).pool _
    rw [Function.update_of_ne (Ne.symm hg)]
    exact (h g).congr (hother g hg)

/-- A destination renamed to a register that is referenced already. -/
theorem shareDest {i : Inst} (h : Balanced p t L)
    (hd : d.opInfo.fieldValue ∈ archRegs d.opInfo.regFile)
    (hprev : d.prevDest = t.mapTable d.opInfo.reg)
    (hshared : d.physReg ∈ refs t.mapTable L d.opInfo.regFile) :
    Balanced p
      { t with
        mapTable := Function.update t.mapTable d.opInfo.reg d.physReg
        regfileComponents := Function.update t.regfileComponents d.opInfo.regFile
          ((t.regfileComponents d.opInfo.regFile).reference d.physReg i) }
      (d :: L) := by
  refine h.update ?_ fun g hg => ?_
  · rw [refs_rename hd hprev, if_pos rfl, RegfileComponents.reference_pool]
    exact (h _).retain hshared
  · rw [refs_rename hd hprev, if_neg hg]

/-- A destination renamed to the front of the free list. -/
theorem popDest {i : Inst} {rest : List ℕ} {sb : Scoreboard} (h : Balanced p t L)
    (hd : d.opInfo.fieldValue ∈ archRegs d.opInfo.regFile)
    (hprev : d.prevDest = t.mapTable d.opInfo.reg)
    (hfree : (t.regfileComponents d.opInfo.regFile).freelist = d.physReg :: rest) :
    Balanced p
      { t with
        mapTable := Function.update t.mapTable d.opInfo.reg d.physReg
        regfileComponents := Function.update t.regfileComponents d.opInfo.regFile
          { ({ t.regfileComponents d.opInfo.regFile with freelist := rest }).reference
              d.physReg i with scoreboard := sb } }
      (d :: L) := by
  refine h.update ?_ fun g hg => ?_
  · rw [refs_rename hd hprev, if_pos rfl]
    have hpool : ({ ({ t.regfileComponents d.opInfo.regFile with freelist := rest }).reference
        d.physReg i with scoreboard := sb } : RegfileComponents).pool
        = (t.regfileComponents d.opInfo.regFile).pool.pop.retain d.physReg := by
      refine (RegfileComponents.reference_pool
        { t.regfileComponents d.opInfo.regFile with freelist := rest } d.physReg i).trans ?_
      simp [Pool.pop, RegfileComponents.pool, hfree]
    rw [hpool]
    exact (h _).acquire hfree
  · rw [refs_rename hd hprev, if_neg hg]

/-- Reclaiming succeeds and removes the reference `r` from the file it is in. -/
theorem reclaim {m' : ArchReg → ℕ} {f : RegFile} {r : ℕ} (h : Balanced p t L)
    (q' : List RenamedInst)
    (hself : refs t.mapTable L f = r ::ₘ refs m' L' f)
    (hother : ∀ g, f ≠ g → refs m' L' g = refs t.mapTable L g) :
    ∃ c', (t.regfileComponents f).reclaim r = .ok c' ∧
      c'.scoreboard = (t.regfileComponents f).scoreboard ∧
      Balanced p ⟨m', q', Function.update t.regfileComponents f c'⟩ L' := by
  have hexact := (h f).congr hself.symm
  have hcnt := hexact.cnt_ne_zero (Multiset.mem_cons_self r _)
  obtain ⟨c', hc', hpool, hsb⟩ := RegfileComponents.reclaim_ok hcnt
  refine ⟨c', hc', hsb, h.update ?_ hother⟩
  rw [hpool]
  exact hexact.release

/-- Retiring a destination never meets a zero counter. -/
theorem reclaimRename (h : Balanced p t (d :: L)) (hx0 : d.opInfo.isX0 = false) :
    ∃ t', Olympia.reclaimRename t d = .ok t' ∧ Balanced p t' L ∧
      t'.mapTable = t.mapTable ∧ t'.instQueue = t.instQueue ∧
      ∀ f, (t'.regfileComponents f).scoreboard = (t.regfileComponents f).scoreboard := by
  have hself : refs t.mapTable (d :: L) d.opInfo.regFile
      = d.prevDest ::ₘ refs t.mapTable L d.opInfo.regFile := by
    rw [refs_cons, if_pos rfl]
  have hother : ∀ g, d.opInfo.regFile ≠ g →
      refs t.mapTable L g = refs t.mapTable (d :: L) g := by
    intro g hg
    rw [refs_cons, if_neg hg]
  have hmem : d.prevDest ∈ prfs p d.opInfo.regFile :=
    (h _).refs_mem _ (by rw [hself]; exact Multiset.mem_cons_self _ _)
  obtain ⟨c', hc', hsb, hbal⟩ := h.reclaim t.instQueue hself hother
  refine ⟨_, ?_, hbal, rfl, rfl, fun f => ?_⟩
  · simp [Olympia.reclaimRename, hx0, spartaAssert, ne_noPrevDest_of_mem_prfs hmem, hc', pure,
      Except.pure, bind, Except.bind]
  · by_cases hf : f = d.opInfo.regFile
    · subst hf
      simpa using hsb
    · simp [hf]

/-- Flushing a destination that its architectural register still maps to never meets a zero
counter. -/
theorem restoreDest (h : Balanced p t (d :: L)) (hx0 : d.opInfo.isX0 = false)
    (hd : d.opInfo.fieldValue ∈ archRegs d.opInfo.regFile)
    (hphys : t.mapTable d.opInfo.reg = d.physReg) :
    ∃ t', Olympia.restoreDest t d = .ok t' ∧ Balanced p t' L ∧
      t'.mapTable = Function.update t.mapTable d.opInfo.reg d.prevDest ∧
      t'.instQueue = t.instQueue ∧
      ∀ f, (t'.regfileComponents f).scoreboard = (t.regfileComponents f).scoreboard := by
  have hself := refs_restore (L := L) (f := d.opInfo.regFile) hd hphys
  rw [if_pos rfl] at hself
  have hother : ∀ g, d.opInfo.regFile ≠ g →
      refs (Function.update t.mapTable d.opInfo.reg d.prevDest) L g
        = refs t.mapTable (d :: L) g := by
    intro g hg
    rw [refs_restore hd hphys, if_neg hg]
  obtain ⟨c', hc', hsb, hbal⟩ := h.reclaim t.instQueue hself hother
  refine ⟨_, ?_, hbal, rfl, rfl, fun f => ?_⟩
  · simp [Olympia.restoreDest, hx0, hc', pure, Except.pure, bind, Except.bind]
  · by_cases hf : f = d.opInfo.regFile
    · subst hf
      simpa using hsb
    · simp [hf]

end Balanced

/-- The constructed unit is balanced, with nothing in flight. -/
theorem balanced_init (p : RenameParams) (x0 : ℕ) :
    Balanced p (RenameState.init p x0).toRenameTables [] := by
  intro f
  have hmap : ∀ a ∈ archRegs f, setupMap x0 (f, a) = a := by
    intro a ha
    obtain ⟨-, hne⟩ := mem_archRegs.mp ha
    cases f with
    | integer => cases a with
      | zero => exact absurd ⟨rfl, rfl⟩ hne
      | succ a => rfl
    | float => rfl
    | vector => rfl
  have hrefs : refs (setupMap x0) [] f = (archRegs f).val := by
    unfold refs
    rw [Multiset.map_congr rfl hmap]
    simp
  have hcount : ∀ r, (archRegs f).val.count r
      = if firstReg f ≤ r ∧ r < numRiscvRegs then 1 else 0 := by
    intro r
    rw [Multiset.count_eq_of_nodup (archRegs f).nodup]
    refine if_congr ?_ rfl rfl
    show r ∈ archRegs f ↔ _
    rw [mem_archRegs]
    cases f <;> simp [firstReg, numRiscvRegs]
    omega
  show Pool.Exact _ (setupRegfile p f).pool (refs (setupMap x0) [] f)
  rw [hrefs]
  refine ⟨fun r => ?_, fun r hr => ?_, fun r hr => ?_, fun r hr => ?_⟩
  · exact (hcount r).symm
  · obtain ⟨hfirst, hlt⟩ := hr
    rw [hcount]
    show (List.range' _ _).count r = _
    unfold numPrfs at hlt
    rw [List.Nodup.count List.nodup_range']
    by_cases hr : r < numRiscvRegs
    · rw [if_neg (by rw [List.mem_range'_1]; omega), if_neg (by simp [hr, hfirst])]
    · rw [if_pos (by rw [List.mem_range'_1]; omega), if_pos (by simp [hr])]
  · have hmem : r ∈ List.range' numRiscvRegs (p.numRenames f - numRiscvRegs) := hr
    rw [List.mem_range'_1] at hmem
    have hfirst : firstReg f ≤ numRiscvRegs := by cases f <;> simp [firstReg, numRiscvRegs]
    exact ⟨by omega, by unfold numPrfs; omega⟩
  · have hpos := Multiset.count_pos.mpr hr
    rw [hcount] at hpos
    split at hpos
    · rename_i h
      exact ⟨h.1, lt_of_lt_of_le h.2 (le_max_left _ _)⟩
    · omega

end Olympia
