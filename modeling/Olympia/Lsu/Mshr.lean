import Olympia.Lsu.DCacheSystem

/-!
# The entries of the data cache for misses

Each block should have at most one entry of `mshr_file_`, and a request to the L2 cache an entry of
its block.  The lookup finds the entry of an access by its iterator and does not compare addresses,
so two accesses to one block get two entries (`mshr_block_twice`); an access that misses while the
file is full, or whose refill arrives between its lookup and its read, is sent without one.

`mshr_unique_per_block` is about the runs without these: a lookup that misses without an entry
finds room and no entry of its block, and no refill arrives for an access that has missed and is
about to be read.

`Filed` relates entries and accesses: an entry records the one access whose iterator points to it.
-/

namespace Olympia

open DCache

namespace DCache

variable {p : DCacheParams} {acc : ℕ → DAccess} {s s' : DCacheState p} {a : ℕ}

/-- The block of an access. -/
def blockOf (p : DCacheParams) (acc : ℕ → DAccess) (a : ℕ) : ℕ := p.blockAddr (acc a).phyAddr

/-- The block of an entry, which is that of the access it records. -/
def entryBlock (p : DCacheParams) (acc : ℕ → DAccess) (e : MSHREntryInfo) : Option ℕ :=
  e.memRequest.map (blockOf p acc)

/-- Entries and accesses belong together. -/
structure Filed (s : DCacheState p) : Prop where
  ids : (s.mshrFile.map MSHREntryInfo.id).Nodup
  fresh : ∀ e ∈ s.mshrFile, e.id < s.nextEntry
  older : ∀ a id, (s.objs a).mshr = some id → id < s.nextEntry
  owner : ∀ e ∈ s.mshrFile, ∃ a, e.memRequest = some a ∧
    ∀ b, (s.objs b).mshr = some e.id ↔ b = a

theorem iterValid_iff {it : Option ℕ} :
    iterValid s it = true ↔ ∃ e ∈ s.mshrFile, it = some e.id := by
  simp [iterValid]

/-- The access that is looked up is not in the cache and has no entry. -/
def missesFresh (p : DCacheParams) (acc : ℕ → DAccess) (s : DCacheState p) (a : ℕ) : Prop :=
  Pipeline.at? s.pipeline lookupStage = some (.lsu a) ∧
    (p.cacheModel.lookup p.l1AlwaysHit s.l1Cache (acc a).phyAddr).1 = false ∧
    iterValid s (s.objs a).mshr = false

/-- What a lookup of an access does to the accesses and the entries. -/
inductive Looked (p : DCacheParams) (acc : ℕ → DAccess) (s : DCacheState p) (a : ℕ)
    (s' : DCacheState p) : Prop where
  | hit (hobjs : s'.objs = Function.update s.objs a { s.objs a with cacheState := .hit })
      (hfile : s'.mshrFile = s.mshrFile) (hnext : s'.nextEntry = s.nextEntry)
  | full (hfresh : missesFresh p acc s a) (hfull : p.mshrEntries ≤ s.mshrFile.length)
      (hobjs : s'.objs = Function.update s.objs a { s.objs a with cacheState := .miss })
      (hfile : s'.mshrFile = s.mshrFile) (hnext : s'.nextEntry = s.nextEntry)
  | entry {e : MSHREntryInfo} {c : CacheState} {g : MSHREntryInfo → MSHREntryInfo}
      (he : e ∈ s.mshrFile) (hid : (s.objs a).mshr = some e.id)
      (hg : ∀ x, (g x).id = x.id ∧ ((g x).memRequest = some a ∨ (g x).memRequest = x.memRequest))
      (hobjs : s'.objs = Function.update s.objs a { s.objs a with cacheState := c })
      (hfile : s'.mshrFile = s.mshrFile.map fun x => if x.id = e.id then g x else x)
      (hnext : s'.nextEntry = s.nextEntry)
  | alloc {e : MSHREntryInfo} {c : CacheState} (hfresh : missesFresh p acc s a)
      (hfree : s.mshrFile.length < p.mshrEntries) (hid : e.id = s.nextEntry)
      (hreq : e.memRequest = some a)
      (hobjs : s'.objs = Function.update s.objs a
        { s.objs a with cacheState := c, mshr := some s.nextEntry })
      (hfile : s'.mshrFile = s.mshrFile ++ [e]) (hnext : s'.nextEntry = s.nextEntry + 1)

theorem entryAt_eq_some {it : Option ℕ} {e : MSHREntryInfo} (h : entryAt s it = some e) :
    e ∈ s.mshrFile ∧ it = some e.id :=
  ⟨List.mem_of_find?_eq_some h, by simpa using List.find?_some h⟩

/-- The end of a lookup writes the entry of the access, and the state of the access. -/
theorem lookupEntry_cases {out : DCacheOut p} (h : lookupEntry acc s a = .ok out) :
    out.l2Req = none ∧ ∃ e g c, entryAt s (s.objs a).mshr = some e ∧
      (∀ x, (g x).id = x.id ∧ ((g x).memRequest = some a ∨ (g x).memRequest = x.memRequest)) ∧
      (e.dataArrived = false → ∀ x, (g x).memRequest = some a) ∧
      out.st = setCacheState (setEntry s e.id g) a c := by
  unfold lookupEntry at h
  rcases he : entryAt s (s.objs a).mshr with _ | e
  · rw [he] at h
    cases h
  rw [he] at h
  dsimp only at h
  split at h
  · obtain rfl := Except.ok.inj h
    exact ⟨rfl, e, fun e => { e with modified := true, memRequest := some a }, .hit, rfl,
      fun x => ⟨rfl, .inl rfl⟩, fun _ x => rfl, rfl⟩
  · split at h
    · rename_i harr
      obtain rfl := Except.ok.inj h
      refine ⟨rfl, e, id, .hit, rfl, fun x => ⟨rfl, .inr rfl⟩, ?_, ?_⟩
      · intro hnot
        rw [harr] at hnot
        cases hnot
      · have hsame : setEntry s e.id id = s := by
          simp [setEntry]
        rw [hsame]
    · obtain rfl := Except.ok.inj h
      exact ⟨rfl, e, fun e => { e with memRequest := some a }, .miss, rfl,
        fun x => ⟨rfl, .inl rfl⟩, fun _ x => rfl, rfl⟩

/-- What a lookup does. -/
theorem handleLookup_cases (H : Filed s) {out : DCacheOut p}
    (h : handleLookup p acc s = .ok out) :
    out.l2Req = none ∧ out.st.pipeline = s.pipeline ∧ out.st.lookupDue = false ∧
      out.st.l2MemAccess = s.l2MemAccess ∧ out.st.l2Busy = s.l2Busy ∧
      ((∃ r, Pipeline.at? s.pipeline lookupStage = some (.refill r) ∧
          out.st.objs = s.objs ∧ out.st.mshrFile = s.mshrFile ∧ out.st.nextEntry = s.nextEntry) ∨
        ∃ a, Pipeline.at? s.pipeline lookupStage = some (.lsu a) ∧ Looked p acc s a out.st) := by
  unfold handleLookup at h
  rcases hat : Pipeline.at? s.pipeline lookupStage with _ | r
  · simp only [hat] at h
    cases h
  rcases r with a | r
  · simp only [hat] at h
    split at h
    · obtain rfl := Except.ok.inj h
      exact ⟨rfl, rfl, rfl, rfl, rfl, .inr ⟨a, rfl, .hit rfl rfl rfl⟩⟩
    rename_i hmiss
    have hmiss : (p.cacheModel.lookup p.l1AlwaysHit s.l1Cache (acc a).phyAddr).1 = false :=
      Bool.eq_false_of_not_eq_true hmiss
    unfold lookupMiss at h
    split at h
    · obtain ⟨hl2, e, g, c, he, hg, -, hst⟩ := lookupEntry_cases h
      obtain ⟨hmem, hid⟩ := entryAt_eq_some he
      rw [hst]
      exact ⟨hl2, rfl, rfl, rfl, rfl, .inr ⟨a, rfl, .entry hmem hid hg rfl rfl rfl⟩⟩
    rename_i hiter
    have hfresh : missesFresh p acc s a := ⟨hat, hmiss, Bool.eq_false_of_not_eq_true hiter⟩
    split at h
    · rename_i hfull
      obtain rfl := Except.ok.inj h
      have hfull : p.mshrEntries ≤ s.mshrFile.length := Nat.sub_eq_zero_iff_le.mp hfull
      exact ⟨rfl, rfl, rfl, rfl, rfl, .inr ⟨a, rfl, .full hfresh hfull rfl rfl rfl⟩⟩
    · obtain ⟨s₁, hs₁, h⟩ := Run.bind_eq_ok.mp h
      obtain ⟨u, -, hs₁⟩ := Run.bind_eq_ok.mp hs₁
      obtain ⟨u', hfree, hs₁⟩ := Run.bind_eq_ok.mp hs₁
      obtain rfl := Except.ok.inj hs₁
      obtain ⟨hl2, e, g, c, he, hg, hreq, hst⟩ := lookupEntry_cases h
      -- the iterator points to the new entry, because the others are older
      have hnone : s.mshrFile.find? (fun e => decide (some s.nextEntry = some e.id)) = none := by
        apply List.find?_eq_none.mpr
        intro x hx
        have hlt := H.fresh x hx
        simp only [Option.some.injEq, decide_eq_true_eq]
        omega
      have hnew : e = { id := s.nextEntry } := by
        simp only [entryAt, setObj, Function.update_self, List.find?_append, hnone,
          Option.none_or] at he
        simpa using he.symm
      subst hnew
      have hfile : (s.mshrFile ++ [({ id := s.nextEntry } : MSHREntryInfo)]).map
          (fun x => if x.id = s.nextEntry then g x else x) =
            s.mshrFile ++ [g { id := s.nextEntry }] := by
        rw [List.map_append]
        congr 1
        · have hsame : s.mshrFile.map (fun x => if x.id = s.nextEntry then g x else x) =
              s.mshrFile.map id := by
            apply List.map_congr_left
            intro x hx
            rw [if_neg (H.fresh x hx).ne]
            rfl
          rw [hsame, List.map_id]
        · simp
      rw [hst]
      refine ⟨hl2, rfl, rfl, rfl, rfl, .inr ⟨a, rfl, .alloc (c := c) hfresh
        (by simpa using hfree) (hg _).1 (hreq rfl _) ?_ hfile rfl⟩⟩
      simp only [setCacheState, setEntry, setObj, Function.update_self, Function.update_idem]
  · simp only [hat] at h
    obtain rfl := Except.ok.inj h
    exact ⟨rfl, rfl, rfl, rfl, rfl, .inl ⟨r, rfl, rfl, rfl, rfl⟩⟩

/-! ## Entries and accesses -/

/-- A lookup keeps entries and accesses together. -/
theorem Filed.looked (H : Filed s) (h : Looked p acc s a s') : Filed s' := by
  -- the iterators of the accesses stay, in all cases but the last one
  have hkeep : ∀ {c}, s'.objs = Function.update s.objs a { s.objs a with cacheState := c } →
      ∀ b, (s'.objs b).mshr = (s.objs b).mshr := by
    intro c hobjs b
    rw [hobjs]
    by_cases hb : b = a
    · subst hb
      rw [Function.update_self]
    · rw [Function.update_of_ne hb]
  cases h with
  | hit hobjs hfile hnext =>
    have hmshr := hkeep hobjs
    refine ⟨?_, ?_, ?_, ?_⟩ <;> simp only [hfile, hnext, hmshr]
    · exact H.ids
    · exact H.fresh
    · exact H.older
    · exact H.owner
  | full _ _ hobjs hfile hnext =>
    have hmshr := hkeep hobjs
    refine ⟨?_, ?_, ?_, ?_⟩ <;> simp only [hfile, hnext, hmshr]
    · exact H.ids
    · exact H.fresh
    · exact H.older
    · exact H.owner
  | @entry e c g he hid hg hobjs hfile hnext =>
    have hmshr := hkeep hobjs
    have hids : ∀ x : MSHREntryInfo, (if x.id = e.id then g x else x).id = x.id := by
      intro x
      split
      · exact (hg x).1
      · rfl
    refine ⟨?_, ?_, ?_, ?_⟩ <;> simp only [hfile, hnext, hmshr]
    · rw [List.map_map]
      have hsame : MSHREntryInfo.id ∘ (fun x => if x.id = e.id then g x else x) =
          MSHREntryInfo.id := funext hids
      rw [hsame]
      exact H.ids
    · intro x hx
      obtain ⟨y, hy, rfl⟩ := List.mem_map.mp hx
      rw [hids]
      exact H.fresh y hy
    · exact H.older
    · intro x hx
      obtain ⟨y, hy, rfl⟩ := List.mem_map.mp hx
      rw [hids]
      obtain ⟨b, hreq, hown⟩ := H.owner y hy
      refine ⟨b, ?_, hown⟩
      split
      · rename_i hsame
        obtain rfl : a = b := (hown a).mp (hsame ▸ hid)
        rcases (hg y).2 with h | h
        · exact h
        · exact h.trans hreq
      · exact hreq
  | @alloc e c hfresh hfree hid hreq hobjs hfile hnext =>
    have hself : (s'.objs a).mshr = some s.nextEntry := by
      rw [hobjs, Function.update_self]
    have hother : ∀ b, b ≠ a → (s'.objs b).mshr = (s.objs b).mshr := by
      intro b hb
      rw [hobjs, Function.update_of_ne hb]
    refine ⟨?_, ?_, ?_, ?_⟩
    · rw [hfile, List.map_append, List.nodup_append]
      refine ⟨H.ids, by simp, ?_⟩
      rintro x hx y hy rfl
      obtain ⟨z, hz, rfl⟩ := List.mem_map.mp hx
      have hlt := H.fresh z hz
      simp only [List.map_cons, List.map_nil, List.mem_singleton, hid] at hy
      omega
    · intro x hx
      rw [hfile] at hx
      rw [hnext]
      rcases List.mem_append.mp hx with hx | hx
      · exact (H.fresh x hx).trans (Nat.lt_succ_self _)
      · rw [List.mem_singleton.mp hx, hid]
        exact Nat.lt_succ_self _
    · intro b id hb
      rw [hnext]
      by_cases hba : b = a
      · rw [hba, hself] at hb
        obtain rfl := Option.some.inj hb
        exact Nat.lt_succ_self _
      · rw [hother b hba] at hb
        exact (H.older b id hb).trans (Nat.lt_succ_self _)
    · intro x hx
      rw [hfile] at hx
      rcases List.mem_append.mp hx with hx | hx
      · obtain ⟨b, hreq, hown⟩ := H.owner x hx
        have hlt := H.fresh x hx
        -- the access had no entry, so this one is another's
        have hba : b ≠ a := by
          rintro rfl
          have hvalid := iterValid_iff.mpr ⟨x, hx, (hown b).mpr rfl⟩
          rw [hfresh.2.2] at hvalid
          cases hvalid
        refine ⟨b, hreq, fun b' => ?_⟩
        by_cases hb' : b' = a
        · subst hb'
          rw [hself, Option.some.injEq]
          exact iff_of_false (by omega) hba.symm
        · rw [hother b' hb']
          exact hown b'
      · obtain rfl := List.mem_singleton.mp hx
        refine ⟨a, hreq, fun b => ?_⟩
        rw [hid]
        by_cases hb : b = a
        · rw [hb, hself]
          simp
        · rw [hother b hb]
          refine iff_of_false (fun h => ?_) hb
          exact absurd (H.older b _ h) (lt_irrefl _)

/-- Entries may be erased. -/
theorem Filed.erase (H : Filed s) (it : Option ℕ) : Filed (eraseEntry s it) where
  ids := H.ids.sublist (List.filter_sublist.map _)
  fresh e he := H.fresh e (List.mem_of_mem_filter he)
  older := H.older
  owner e he := H.owner e (List.mem_of_mem_filter he)

/-- The entry that an iterator of an access points to is for the block of the access. -/
theorem Filed.entryBlock_eq (H : Filed s) {e : MSHREntryInfo} (he : e ∈ s.mshrFile)
    (hid : (s.objs a).mshr = some e.id) : entryBlock p acc e = some (blockOf p acc a) := by
  obtain ⟨b, hreq, hown⟩ := H.owner e he
  rw [entryBlock, hreq, (hown a).mp hid]
  rfl

end DCache

namespace DCacheSystem

variable {p : DCacheParams} {acc : ℕ → DAccess} {s s' : DCacheSystem p} {op : DCacheOp}

/-- A refill that has arrived: its entry is no longer there. -/
def Arrived (s : DCacheState p) (r : Refill) : Prop :=
  s.l2MemAccess = some r ∨ ∃ n, ⟨n, .refill r⟩ ∈ s.pipeline

/-- What every step keeps. -/
structure Tracked (s : DCacheSystem p) : Prop where
  filed : Filed s.dc
  /-- the L2 cache is busy with one request, or has none -/
  flight : s.toL2.length + s.atL2.length = s.dc.l2Busy.toNat
  copies : ∀ r ∈ s.atL2, ∀ id, r.mshr = some id → id < s.dc.nextEntry
  gone : ∀ r, Arrived s.dc r → ∀ id, r.mshr = some id →
    id < s.dc.nextEntry ∧ ∀ e ∈ s.dc.mshrFile, e.id ≠ id
  waiting : s.phase = .portUpdate → ∀ e ∈ s.dc.pipeline, e.age = lookupStage →
    s.dc.lookupDue = true
  done : s.phase = .postTick → s.dc.lookupDue = false
  sparse : Pipeline.Sparse s.dc.pipeline

theorem Tracked.init : Tracked ({} : DCacheSystem p) where
  filed := by
    refine ⟨.nil, ?_, ?_, ?_⟩
    · intro e he
      cases he
    · intro a id h
      cases h
    · intro e he
      cases he
  flight := rfl
  copies r hr := by cases hr
  gone r hr := by
    rcases hr with h | ⟨n, h⟩
    · cases h
    · cases h
  waiting _ e he := by cases he
  done h := by cases h
  sparse := .nil

/-- The entries and the pipeline stay, and an access changes at most to a hit. -/
structure Same (dc dc' : DCacheState p) : Prop where
  file : dc'.mshrFile = dc.mshrFile
  next : dc'.nextEntry = dc.nextEntry
  pipe : dc'.pipeline = dc.pipeline
  l2 : dc'.l2MemAccess = dc.l2MemAccess
  mshr : ∀ a, (dc'.objs a).mshr = (dc.objs a).mshr
  state : ∀ a, (dc'.objs a).cacheState = (dc.objs a).cacheState ∨ (dc'.objs a).cacheState = .hit

theorem Same.of_objs {dc dc' : DCacheState p} (hfile : dc'.mshrFile = dc.mshrFile)
    (hnext : dc'.nextEntry = dc.nextEntry) (hpipe : dc'.pipeline = dc.pipeline)
    (hl2 : dc'.l2MemAccess = dc.l2MemAccess) (hobjs : dc'.objs = dc.objs) : Same dc dc' :=
  ⟨hfile, hnext, hpipe, hl2, fun a => by rw [hobjs], fun a => .inl (by rw [hobjs])⟩

/-- What a step does to the entries, the pipeline and the requests. -/
inductive Moved (p : DCacheParams) (acc : ℕ → DAccess) (s : DCacheSystem p) :
    DCacheOp → DCacheSystem p → Prop where
  | refill {i : ℕ} {r : Refill} (hphase : s.phase = .portUpdate) (hr : s.atL2[i]? = some r) :
    Moved p acc s (.refill i)
      { s with dc := receiveRespFromL2Cache s.dc r, atL2 := s.atL2.eraseIdx i }
  | quiet {op : DCacheOp} {s' : DCacheSystem p} (hdc : Same s.dc s'.dc)
      (hdue : s'.dc.lookupDue = s.dc.lookupDue) (hbusy : s'.dc.l2Busy = s.dc.l2Busy)
      (htoL2 : s'.toL2 = s.toL2) (hatL2 : s'.atL2 = s.atL2) (hphase : s'.phase = s.phase) :
    Moved p acc s op s'
  | lookupRefill {s' : DCacheSystem p} {r : Refill}
      (hat : Pipeline.at? s.dc.pipeline lookupStage = some (.refill r)) (hdc : Same s.dc s'.dc)
      (hdue : s'.dc.lookupDue = false) (hbusy : s'.dc.l2Busy = s.dc.l2Busy)
      (htoL2 : s'.toL2 = s.toL2) (hatL2 : s'.atL2 = s.atL2) (hphase : s'.phase = .tick) :
    Moved p acc s .lookup s'
  | lookup {s' : DCacheSystem p} {a : ℕ}
      (hat : Pipeline.at? s.dc.pipeline lookupStage = some (.lsu a))
      (hdc : Looked p acc s.dc a s'.dc) (hpipe : s'.dc.pipeline = s.dc.pipeline)
      (hl2 : s'.dc.l2MemAccess = s.dc.l2MemAccess) (hdue : s'.dc.lookupDue = false)
      (hbusy : s'.dc.l2Busy = s.dc.l2Busy) (htoL2 : s'.toL2 = s.toL2)
      (hatL2 : s'.atL2 = s.atL2) (hphase : s'.phase = .tick) :
    Moved p acc s .lookup s'
  | sent {op : DCacheOp} {s' : DCacheSystem p} {a : ℕ} (hidle : s.dc.l2Busy = false)
      (hdc : Same s.dc s'.dc) (hdue : s'.dc.lookupDue = s.dc.lookupDue)
      (hbusy : s'.dc.l2Busy = true) (htoL2 : s'.toL2 = s.toL2 ++ [a]) (hatL2 : s'.atL2 = s.atL2)
      (hphase : s'.phase = s.phase) :
    Moved p acc s op s'
  | arbitrate {dc : DCacheState p} {req : DRequest} (hreq : ∀ r, req = .refill r →
        s.dc.l2MemAccess = some r) (hobjs : dc.objs = s.dc.objs)
      (hfile : dc.mshrFile = s.dc.mshrFile) (hnext : dc.nextEntry = s.dc.nextEntry)
      (hzero : Pipeline.isValid s.dc.pipeline 0 = false)
      (hpipe : dc.pipeline = Pipeline.append s.dc.pipeline req) (hl2 : dc.l2MemAccess = none)
      (hdue : dc.lookupDue = s.dc.lookupDue) (hbusy : dc.l2Busy = s.dc.l2Busy)
      (hphase : s.phase = .tick) :
    Moved p acc s .arbitrate { s with dc := dc }
  | copy {i a : ℕ} (ha : s.toL2[i]? = some a) :
    Moved p acc s (.copy i) { s with
      toL2 := s.toL2.eraseIdx i
      atL2 := s.atL2 ++ [copyOf acc s.dc a] }
  | tick (hphase : s.phase = .portUpdate) : Moved p acc s .tick { s with phase := .tick }
  | postTick (hdone : s.dc.lookupDue = false) :
    Moved p acc s .postTick { s with phase := .postTick }
  | nextCycle (hphase : s.phase = .postTick) :
    Moved p acc s .nextCycle { s with phase := .portUpdate, dc := DCache.nextCycle s.dc }

theorem step_moved (H : Tracked s) (h : s.step p acc op = .ok s') : Moved p acc s op s' := by
  obtain ⟨hphase, hdue, h⟩ := step_eq_ok.mp h
  cases op with
  | refill i =>
    obtain ⟨hlt, -⟩ := Bool.and_eq_true_iff.mp hdue
    have hr := List.getElem?_eq_getElem (of_decide_eq_true hlt)
    simp only [handle, hr] at h
    obtain rfl := Except.ok.inj h
    exact .refill hphase hr
  | lsuReq a =>
    obtain rfl := Except.ok.inj h
    exact .quiet (.of_objs rfl rfl rfl rfl rfl) rfl rfl rfl rfl rfl
  | forward a =>
    obtain rfl := Except.ok.inj h
    refine .quiet ⟨rfl, rfl, rfl, rfl, fun b => ?_, fun b => ?_⟩ rfl rfl rfl rfl rfl
    · by_cases hb : b = a
      · subst hb
        simp [setObj]
      · simp [setObj, Function.update_of_ne hb]
    · by_cases hb : b = a
      · subst hb
        simp [setObj]
      · simp [setObj, Function.update_of_ne hb]
  | lookup =>
    obtain ⟨out, hout, h⟩ := Run.bind_eq_ok.mp h
    obtain rfl := Except.ok.inj h
    obtain ⟨hl2Req, hpipe, hlook, hl2, hbusy, ⟨r, hat, hobjs, hfile, hnext⟩ | ⟨a, hat, hlooked⟩⟩ :=
      handleLookup_cases H.filed hout
    · refine .lookupRefill hat (.of_objs hfile hnext hpipe hl2 hobjs) hlook hbusy ?_ rfl hphase
      simp [emit, hl2Req]
    · refine .lookup hat hlooked hpipe hl2 hlook hbusy ?_ rfl hphase
      simp [emit, hl2Req]
  | dataRead =>
    obtain ⟨out, hout, h⟩ := Run.bind_eq_ok.mp h
    obtain rfl := Except.ok.inj h
    unfold handleDataRead at hout
    rcases hat : Pipeline.at? s.dc.pipeline dataReadStage with _ | ⟨a⟩ | ⟨r⟩
    · simp only [hat] at hout
      cases hout
    · simp only [hat] at hout
      split at hout
      · obtain rfl := Except.ok.inj hout
        refine .quiet ⟨rfl, rfl, rfl, rfl, fun b => ?_, fun b => .inl ?_⟩ rfl rfl
          (by simp [emit]) rfl rfl
        · by_cases hb : b = a
          · subst hb
            simp [emit, setObj]
          · simp [emit, setObj, Function.update_of_ne hb]
        · by_cases hb : b = a
          · subst hb
            simp [emit, setObj]
          · simp [emit, setObj, Function.update_of_ne hb]
      · split at hout
        · obtain rfl := Except.ok.inj hout
          exact .quiet (.of_objs rfl rfl rfl rfl rfl) rfl rfl (by simp [emit]) rfl rfl
        · rename_i hidle
          obtain rfl := Except.ok.inj hout
          exact .sent (Bool.eq_false_of_not_eq_true hidle) (.of_objs rfl rfl rfl rfl rfl) rfl rfl
            rfl rfl rfl
    · simp only [hat] at hout
      obtain rfl := Except.ok.inj hout
      exact .quiet (.of_objs rfl rfl rfl rfl rfl) rfl rfl (by simp [emit]) rfl rfl
  | deallocate =>
    obtain ⟨out, hout, h⟩ := Run.bind_eq_ok.mp h
    obtain rfl := Except.ok.inj h
    unfold handleDeallocate at hout
    rcases hat : Pipeline.at? s.dc.pipeline deallocateStage with _ | ⟨a⟩ | ⟨r⟩
    · simp only [hat] at hout
      cases hout
    · simp only [hat] at hout
      obtain rfl := Except.ok.inj hout
      exact .quiet (.of_objs rfl rfl rfl rfl rfl) rfl rfl (by simp [emit]) rfl rfl
    · simp only [hat] at hout
      split at hout
      · obtain rfl := Except.ok.inj hout
        exact .quiet (.of_objs rfl rfl rfl rfl rfl) rfl rfl (by simp [emit]) rfl rfl
      · -- the entry went when the refill arrived
        rename_i e he
        obtain ⟨hmem, hid⟩ := entryAt_eq_some he
        exact absurd rfl ((H.gone r (.inr ⟨_, Pipeline.mem_of_at hat⟩) e.id hid).2 e hmem)
  | arbitrate =>
    obtain ⟨dc, hdc, h⟩ := Run.bind_eq_ok.mp h
    obtain rfl := Except.ok.inj h
    obtain ⟨req, hreq, hdc⟩ := Run.bind_eq_ok.mp hdc
    obtain ⟨u, hzero, hdc⟩ := Run.bind_eq_ok.mp hdc
    obtain rfl := Except.ok.inj hdc
    have hzero : Pipeline.isValid s.dc.pipeline 0 = false := by simpa using hzero
    refine .arbitrate (fun r hr => ?_) rfl rfl rfl hzero rfl rfl rfl rfl hphase
    subst hr
    unfold winner at hreq
    rcases hl2 : s.dc.l2MemAccess with _ | r'
    · rcases hlsu : s.dc.lsuMemAccess with _ | a
      · simp only [hl2, hlsu] at hreq
        cases hreq
      · simp only [hl2, hlsu] at hreq
        cases hreq
    · simp only [hl2] at hreq
      obtain rfl : r' = r := by simpa using hreq
      rfl
  | mshrRequest =>
    obtain rfl := Except.ok.inj h
    unfold DCache.mshrRequest
    dsimp only
    split
    · exact .quiet (.of_objs rfl rfl rfl rfl rfl) rfl rfl (by simp [emit]) rfl rfl
    · rename_i hidle
      split
      · exact .quiet (.of_objs rfl rfl rfl rfl rfl) rfl rfl (by simp [emit]) rfl rfl
      · exact .sent (Bool.eq_false_of_not_eq_true hidle) (.of_objs rfl rfl rfl rfl rfl) rfl rfl
          rfl rfl rfl
  | copy i =>
    have ha := List.getElem?_eq_getElem (of_decide_eq_true hdue)
    simp only [handle, ha] at h
    obtain rfl := Except.ok.inj h
    exact .copy ha
  | tick =>
    obtain rfl := Except.ok.inj h
    exact .tick hphase
  | postTick =>
    obtain rfl := Except.ok.inj h
    have hdue : tickDone s.dc = true := hdue
    simp only [tickDone, Bool.and_eq_true, Bool.not_eq_true'] at hdue
    exact .postTick hdue.1.1.2
  | nextCycle =>
    obtain rfl := Except.ok.inj h
    exact .nextCycle hphase

theorem Filed.same {dc dc' : DCacheState p} (H : Filed dc) (h : Same dc dc') : Filed dc' := by
  refine ⟨?_, ?_, ?_, ?_⟩ <;> simp only [h.file, h.next, h.mshr]
  · exact H.ids
  · exact H.fresh
  · exact H.older
  · exact H.owner

/-- A lookup does not erase entries, and new ones have new identities. -/
theorem Looked.entries {dc dc' : DCacheState p} {a : ℕ} (h : Looked p acc dc a dc') :
    dc.nextEntry ≤ dc'.nextEntry ∧
      ∀ e ∈ dc'.mshrFile, (∃ x ∈ dc.mshrFile, x.id = e.id) ∨ e.id = dc.nextEntry := by
  cases h with
  | hit _ hfile hnext =>
    rw [hfile, hnext]
    exact ⟨le_rfl, fun e he => .inl ⟨e, he, rfl⟩⟩
  | full _ _ _ hfile hnext =>
    rw [hfile, hnext]
    exact ⟨le_rfl, fun e he => .inl ⟨e, he, rfl⟩⟩
  | entry _ _ hg _ hfile hnext =>
    rw [hfile, hnext]
    refine ⟨le_rfl, fun e he => .inl ?_⟩
    obtain ⟨x, hx, rfl⟩ := List.mem_map.mp he
    refine ⟨x, hx, ?_⟩
    split
    · exact ((hg x).1).symm
    · rfl
  | alloc _ _ hid _ _ hfile hnext =>
    rw [hfile, hnext]
    refine ⟨Nat.le_succ _, fun e he => ?_⟩
    rcases List.mem_append.mp he with he | he
    · exact .inl ⟨e, he, rfl⟩
    · rw [List.mem_singleton.mp he]
      exact .inr hid

/-- Every step keeps track of the entries and the requests. -/
theorem Tracked.step (H : Tracked s) (h : s.step p acc op = .ok s') : Tracked s' := by
  have hflight := H.flight
  have hbound := Bool.toNat_le s.dc.l2Busy
  cases step_moved H h with
  | @refill i r hphase hr =>
    obtain ⟨hlt, hget⟩ := List.getElem?_eq_some_iff.mp hr
    refine ⟨{ H.filed.erase r.mshr with }, ?_, ?_, ?_, H.waiting, H.done, H.sparse⟩
    · simp only [receiveRespFromL2Cache, List.length_eraseIdx, if_pos hlt, Bool.toNat_false]
      omega
    · intro r' hr'
      exact H.copies r' (List.mem_of_mem_eraseIdx hr')
    · intro r' hr' id hid
      have hgone : ∀ e ∈ (receiveRespFromL2Cache s.dc r).mshrFile,
          e ∈ s.dc.mshrFile ∧ r.mshr ≠ some e.id := by
        intro e he
        obtain ⟨hmem, hne⟩ := List.mem_filter.mp he
        exact ⟨hmem, by simpa using hne⟩
      rcases hr' with hr' | hr'
      · obtain rfl : r = r' := Option.some.inj hr'
        refine ⟨H.copies r (hget ▸ List.getElem_mem hlt) id hid, fun e he heq => ?_⟩
        exact (hgone e he).2 (by rw [hid, heq])
      · obtain ⟨hlt, hne⟩ := H.gone r' (.inr hr') id hid
        exact ⟨hlt, fun e he => hne e (hgone e he).1⟩
  | quiet hdc hdue hbusy htoL2 hatL2 hphase =>
    refine ⟨Filed.same H.filed hdc, ?_, ?_, ?_, ?_, ?_, hdc.pipe ▸ H.sparse⟩
    · rw [htoL2, hatL2, hbusy]
      exact hflight
    · rw [hatL2, hdc.next]
      exact H.copies
    · simp only [Arrived, hdc.l2, hdc.pipe, hdc.next, hdc.file]
      exact H.gone
    · rw [hphase, hdc.pipe, hdue]
      exact H.waiting
    · rw [hphase, hdue]
      exact H.done
  | lookupRefill _ hdc hdue hbusy htoL2 hatL2 hphase =>
    refine ⟨Filed.same H.filed hdc, ?_, ?_, ?_, ?_, fun _ => hdue, hdc.pipe ▸ H.sparse⟩
    · rw [htoL2, hatL2, hbusy]
      exact hflight
    · rw [hatL2, hdc.next]
      exact H.copies
    · simp only [Arrived, hdc.l2, hdc.pipe, hdc.next, hdc.file]
      exact H.gone
    · intro hport
      rw [hphase] at hport
      cases hport
  | lookup _ hdc hpipe hl2 hdue hbusy htoL2 hatL2 hphase =>
    obtain ⟨hnext, hentries⟩ := Looked.entries hdc
    refine ⟨H.filed.looked hdc, ?_, ?_, ?_, ?_, fun _ => hdue, hpipe ▸ H.sparse⟩
    · rw [htoL2, hatL2, hbusy]
      exact hflight
    · intro r hr id hid
      rw [hatL2] at hr
      exact (H.copies r hr id hid).trans_le hnext
    · intro r hr id hid
      simp only [Arrived, hl2, hpipe] at hr
      obtain ⟨hlt, hne⟩ := H.gone r hr id hid
      refine ⟨hlt.trans_le hnext, fun e he => ?_⟩
      rcases hentries e he with ⟨x, hx, heq⟩ | heq
      · rw [← heq]
        exact hne x hx
      · omega
    · intro hport
      rw [hphase] at hport
      cases hport
  | sent hidle hdc hdue hbusy htoL2 hatL2 hphase =>
    rw [hidle, Bool.toNat_false] at hflight
    refine ⟨Filed.same H.filed hdc, ?_, ?_, ?_, ?_, ?_, hdc.pipe ▸ H.sparse⟩
    · rw [htoL2, hatL2, hbusy, List.length_append, List.length_singleton, Bool.toNat_true]
      omega
    · rw [hatL2, hdc.next]
      exact H.copies
    · simp only [Arrived, hdc.l2, hdc.pipe, hdc.next, hdc.file]
      exact H.gone
    · rw [hphase, hdc.pipe, hdue]
      exact H.waiting
    · rw [hphase, hdue]
      exact H.done
  | @arbitrate dc req hreq hobjs hfile hnext hzero hpipe hl2 hdue hbusy hphase =>
    refine ⟨?_, ?_, ?_, ?_, ?_, ?_, hpipe ▸ H.sparse.append hzero⟩
    · refine ⟨?_, ?_, ?_, ?_⟩ <;> simp only [hfile, hnext, hobjs]
      · exact H.filed.ids
      · exact H.filed.fresh
      · exact H.filed.older
      · exact H.filed.owner
    · simpa only [hbusy] using hflight
    · simpa only [hnext] using H.copies
    · intro r hr
      simp only [hnext, hfile]
      rcases hr with hr | ⟨n, hr⟩
      · rw [hl2] at hr
        cases hr
      · rw [hpipe] at hr
        rcases List.mem_append.mp hr with hr | hr
        · exact H.gone r (.inr ⟨n, hr⟩)
        · obtain ⟨-, hval⟩ := Staged.mk.inj (List.mem_singleton.mp hr)
          exact H.gone r (.inl (hreq r hval.symm))
    · intro hport
      rw [hphase] at hport
      cases hport
    · intro hpost
      rw [hphase] at hpost
      cases hpost
  | @copy i a ha =>
    obtain ⟨hlt, -⟩ := List.getElem?_eq_some_iff.mp ha
    refine { H with flight := ?_, copies := ?_ }
    · simp only [List.length_eraseIdx, if_pos hlt, List.length_append, List.length_singleton]
      omega
    · intro r hr id hid
      rcases List.mem_append.mp hr with hr | hr
      · exact H.copies r hr id hid
      · rw [List.mem_singleton.mp hr] at hid
        exact H.filed.older a id hid
  | tick hphase =>
    refine { H with waiting := ?_, done := ?_ }
    · intro hport
      cases hport
    · intro hpost
      cases hpost
  | postTick hdone =>
    refine { H with waiting := ?_, done := fun _ => hdone }
    intro hport
    cases hport
  | nextCycle hphase =>
    refine ⟨{ H.filed with }, hflight, H.copies, ?_, ?_, ?_, H.sparse.advance.remove⟩
    · rintro r (hr | ⟨n, hr⟩)
      · exact H.gone r (.inl hr)
      · obtain ⟨hr, -⟩ := Pipeline.mem_remove.mp hr
        obtain ⟨x, hx, heq⟩ := Pipeline.mem_advance.mp hr
        obtain ⟨-, hval⟩ := Staged.mk.inj heq
        refine H.gone r (.inr ⟨x.age, ?_⟩)
        rw [hval]
        exact hx
    · intro _ e he hage
      exact Pipeline.isValid_iff.mpr ⟨e, he, hage⟩
    · intro hpost
      cases hpost

theorem Tracked.of_reachable (h : Run.Reachable (DCacheSystem.step p acc) {} s) : Tracked s :=
  h.invariant .init fun _ _ _ H hstep => H.step hstep

/-! ## One entry for each block -/

/-- A lookup that misses without an entry finds room, and no entry of its block. -/
def FindsRoom (acc : ℕ → DAccess) (s : DCacheSystem p) : Prop :=
  ∀ a, missesFresh p acc s.dc a → s.dc.mshrFile.length < p.mshrEntries ∧
    ∀ e ∈ s.dc.mshrFile, entryBlock p acc e ≠ some (blockOf p acc a)

/-- The refill does not take the entry of an access that has missed and is about to be read. -/
def SparesReads (s : DCacheSystem p) (i : ℕ) : Prop :=
  ∀ r, s.atL2[i]? = some r → ∀ a, ⟨dataReadStage, .lsu a⟩ ∈ s.dc.pipeline →
    (s.dc.objs a).cacheState ≠ .hit → ∀ id, r.mshr = some id → (s.dc.objs a).mshr ≠ some id

/-- The blocks of the entries differ, and an access that has missed has an entry until it is
read. -/
structure PerBlock (acc : ℕ → DAccess) (s : DCacheSystem p) : Prop where
  unique : (s.dc.mshrFile.map (entryBlock p acc)).Nodup
  looked : ∀ n a, ⟨n, .lsu a⟩ ∈ s.dc.pipeline →
    (n = dataReadStage ∨ n = lookupStage ∧ s.dc.lookupDue = false) →
    (s.dc.objs a).cacheState ≠ .hit → iterValid s.dc (s.dc.objs a).mshr = true

theorem PerBlock.init : PerBlock acc ({} : DCacheSystem p) where
  unique := .nil
  looked n a h := by cases h

theorem PerBlock.same (H : PerBlock acc s) (hdc : Same s.dc s'.dc)
    (hdue : s'.dc.lookupDue = s.dc.lookupDue) : PerBlock acc s' := by
  constructor
  · rw [hdc.file]
    exact H.unique
  · intro n a hmem hn hstate
    rw [hdc.pipe] at hmem
    rw [hdue] at hn
    rw [iterValid, hdc.file, hdc.mshr]
    rcases hdc.state a with hsame | hhit
    · rw [hsame] at hstate
      exact H.looked n a hmem hn hstate
    · exact absurd hhit hstate

/-- The entries that are valid stay valid, and the access that is looked up has one if it
misses. -/
theorem PerBlock.lookup (T : Tracked s) (H : PerBlock acc s) {a : ℕ} (hroom : s.FindsRoom acc)
    (hdc : Looked p acc s.dc a s'.dc) :
    (s'.dc.mshrFile.map (entryBlock p acc)).Nodup ∧
      ((s'.dc.objs a).cacheState ≠ .hit → iterValid s'.dc (s'.dc.objs a).mshr = true) ∧
      (∀ b, b ≠ a → s'.dc.objs b = s.dc.objs b) ∧
      ∀ it, iterValid s.dc it = true → iterValid s'.dc it = true := by
  cases hdc with
  | hit hobjs hfile hnext =>
    refine ⟨hfile ▸ H.unique, ?_, ?_, ?_⟩
    · intro hne
      rw [hobjs, Function.update_self] at hne
      exact absurd rfl hne
    · intro b hb
      rw [hobjs, Function.update_of_ne hb]
    · intro it hit
      rw [iterValid, hfile]
      exact hit
  | full hfresh hfull => exact absurd (hroom a hfresh).1 (not_lt.mpr hfull)
  | @entry e c g he hid hg hobjs hfile hnext =>
    have hids : ∀ x : MSHREntryInfo, (if x.id = e.id then g x else x).id = x.id := by
      intro x
      split
      · exact (hg x).1
      · rfl
    have hkeep : ∀ it, iterValid s.dc it = true → iterValid s'.dc it = true := by
      intro it hit
      obtain ⟨x, hx, heq⟩ := iterValid_iff.mp hit
      refine iterValid_iff.mpr ⟨_, hfile ▸ List.mem_map_of_mem hx, ?_⟩
      rw [hids]
      exact heq
    refine ⟨?_, ?_, ?_, hkeep⟩
    · have hblocks : s'.dc.mshrFile.map (entryBlock p acc) =
          s.dc.mshrFile.map (entryBlock p acc) := by
        rw [hfile, List.map_map]
        apply List.map_congr_left
        intro x hx
        dsimp only [Function.comp_apply]
        split
        · rename_i hsame
          -- the entry records this access already
          obtain ⟨b, hreq, hown⟩ := T.filed.owner x hx
          obtain rfl : a = b := (hown a).mp (hsame ▸ hid)
          rcases (hg x).2 with h | h
          · rw [entryBlock, entryBlock, h, hreq]
          · rw [entryBlock, entryBlock, h]
        · rfl
      rw [hblocks]
      exact H.unique
    · intro _
      rw [hobjs, Function.update_self]
      exact hkeep _ (iterValid_iff.mpr ⟨e, he, hid⟩)
    · intro b hb
      rw [hobjs, Function.update_of_ne hb]
  | @alloc e c hfresh hfree hid hreq hobjs hfile hnext =>
    have hblock : entryBlock p acc e = some (blockOf p acc a) := by
      rw [entryBlock, hreq]
      rfl
    refine ⟨?_, ?_, ?_, ?_⟩
    · rw [hfile, List.map_append, List.nodup_append]
      refine ⟨H.unique, by simp, ?_⟩
      rintro x hx y hy rfl
      obtain ⟨z, hz, rfl⟩ := List.mem_map.mp hx
      refine (hroom a hfresh).2 z hz ?_
      rw [← hblock]
      simpa using hy
    · intro _
      rw [hobjs, Function.update_self]
      exact iterValid_iff.mpr ⟨e, by simp [hfile], by rw [hid]⟩
    · intro b hb
      rw [hobjs, Function.update_of_ne hb]
    · intro it hit
      obtain ⟨x, hx, heq⟩ := iterValid_iff.mp hit
      exact iterValid_iff.mpr ⟨x, by simp [hfile, hx], heq⟩

theorem PerBlock.step (T : Tracked s) (H : PerBlock acc s)
    (hroom : op = .lookup → s.FindsRoom acc) (hspare : ∀ i, op = .refill i → s.SparesReads i)
    (h : s.step p acc op = .ok s') : PerBlock acc s' := by
  cases step_moved T h with
  | @refill i r hphase hr =>
    constructor
    · exact H.unique.sublist (List.filter_sublist.map _)
    · intro n a hmem hn hstate
      rcases hn with rfl | ⟨rfl, hdue⟩
      · obtain ⟨e, he, hid⟩ := iterValid_iff.mp (H.looked _ a hmem (.inl rfl) hstate)
        refine iterValid_iff.mpr ⟨e, List.mem_filter.mpr ⟨he, ?_⟩, hid⟩
        have hne : r.mshr ≠ some e.id := by
          intro heq
          exact hspare i rfl r hr a hmem hstate e.id heq hid
        simpa using hne
      · -- what is in the first stage has not been looked up
        have hwait := T.waiting hphase _ hmem rfl
        have hdue : s.dc.lookupDue = false := hdue
        rw [hwait] at hdue
        cases hdue
  | quiet hdc hdue => exact H.same hdc hdue
  | lookupRefill hat hdc hdue =>
    constructor
    · rw [hdc.file]
      exact H.unique
    · intro n a hmem hn hstate
      rw [hdc.pipe] at hmem
      rw [iterValid, hdc.file, hdc.mshr]
      rcases hn with rfl | ⟨rfl, -⟩
      · rcases hdc.state a with hsame | hhit
        · rw [hsame] at hstate
          exact H.looked _ a hmem (.inl rfl) hstate
        · exact absurd hhit hstate
      · cases Pipeline.eq_of_at T.sparse hat hmem
  | @lookup _ a hat hdc hpipe =>
    obtain ⟨hunique, hself, hother, hkeep⟩ := H.lookup T (hroom rfl) hdc
    refine ⟨hunique, ?_⟩
    intro n b hmem hn hstate
    by_cases hb : b = a
    · subst hb
      exact hself hstate
    · rw [hpipe] at hmem
      rw [hother b hb] at hstate ⊢
      rcases hn with rfl | ⟨rfl, -⟩
      · exact hkeep _ (H.looked _ b hmem (.inl rfl) hstate)
      · exact absurd (DRequest.lsu.inj (Pipeline.eq_of_at T.sparse hat hmem)) hb
  | sent _ hdc hdue => exact H.same hdc hdue
  | arbitrate _ hobjs hfile _ _ hpipe _ hdue =>
    constructor
    · simp only [hfile]
      exact H.unique
    · intro n a hmem hn
      simp only [iterValid, hfile, hobjs]
      simp only [hpipe, hdue] at hmem hn
      rcases List.mem_append.mp hmem with hmem | hmem
      · exact H.looked n a hmem hn
      · obtain ⟨rfl, -⟩ := Staged.mk.inj (List.mem_singleton.mp hmem)
        rcases hn with hn | ⟨hn, -⟩
        · cases hn
        · cases hn
  | copy _ => exact ⟨H.unique, H.looked⟩
  | tick _ => exact ⟨H.unique, H.looked⟩
  | postTick _ => exact ⟨H.unique, H.looked⟩
  | nextCycle hphase =>
    refine ⟨H.unique, ?_⟩
    intro n a hmem hn hstate
    have hmoved := hmem
    obtain ⟨hmem, -⟩ := Pipeline.mem_remove.mp hmem
    obtain ⟨x, hx, heq⟩ := Pipeline.mem_advance.mp hmem
    obtain ⟨hage, hval⟩ := Staged.mk.inj heq
    rcases hn with rfl | ⟨rfl, hdue⟩
    · obtain rfl : x = ⟨lookupStage, .lsu a⟩ := by
        rcases x with ⟨age, val⟩
        obtain rfl : age = lookupStage := by
          simp only [dataReadStage, lookupStage] at hage ⊢
          omega
        obtain rfl : val = .lsu a := hval.symm
        rfl
      exact H.looked _ a hx (.inr ⟨rfl, T.done hphase⟩) hstate
    · have hvalid : (DCache.nextCycle s.dc).lookupDue = true :=
        Pipeline.isValid_iff.mpr ⟨_, hmoved, rfl⟩
      have hdue : (DCache.nextCycle s.dc).lookupDue = false := hdue
      rw [hvalid] at hdue
      cases hdue

/-- A request that is sent has an entry of its block, and the L2 cache has no other request. -/
theorem PerBlock.requests (T : Tracked s) (H : PerBlock acc s) {a : ℕ}
    (hreq : s.requests op = some a) :
    (∃ e ∈ s.dc.mshrFile, entryBlock p acc e = some (blockOf p acc a)) ∧
      s.toL2 = [] ∧ s.atL2 = [] := by
  have hidle : s.dc.l2Busy = false → s.toL2 = [] ∧ s.atL2 = [] := by
    intro hidle
    have hflight := T.flight
    rw [hidle, Bool.toNat_false] at hflight
    exact ⟨List.eq_nil_of_length_eq_zero (by omega), List.eq_nil_of_length_eq_zero (by omega)⟩
  cases op with
  | dataRead =>
    simp only [DCacheSystem.requests, handleDataRead] at hreq
    rcases hat : Pipeline.at? s.dc.pipeline dataReadStage with _ | ⟨b⟩ | ⟨r⟩
    · simp [hat, Except.toOption] at hreq
    · simp only [hat] at hreq
      split at hreq
      · simp [Except.toOption] at hreq
      · rename_i hmiss
        split at hreq
        · simp [Except.toOption] at hreq
        · rename_i hbusy
          obtain rfl : b = a := by simpa [Except.toOption] using hreq
          have hvalid := H.looked _ b (Pipeline.mem_of_at hat) (.inl rfl) hmiss
          obtain ⟨e, he, hid⟩ := iterValid_iff.mp hvalid
          exact ⟨⟨e, he, T.filed.entryBlock_eq he hid⟩, hidle (Bool.eq_false_of_not_eq_true hbusy)⟩
    · simp [hat, Except.toOption] at hreq
  | mshrRequest =>
    simp only [DCacheSystem.requests, DCache.mshrRequest] at hreq
    split at hreq
    · cases hreq
    · rename_i hbusy
      split at hreq
      · cases hreq
      · rename_i b hnext
        obtain rfl : b = a := by simpa using hreq
        obtain ⟨e, he, hsome⟩ := List.exists_of_findSome?_eq_some hnext
        split at hsome
        · refine ⟨⟨e, he, ?_⟩, hidle (Bool.eq_false_of_not_eq_true hbusy)⟩
          rw [entryBlock, hsome]
          rfl
        · cases hsome
  | _ => cases hreq

end DCacheSystem

/-- In a run in which every lookup that misses without an entry finds room and no entry of its
block, and no refill takes the entry of an access that has missed and is about to be read: no two
entries of `mshr_file_` are for the same block, every request to the L2 cache has an entry of its
block, and it is sent only when every earlier request has been answered. -/
theorem mshr_unique_per_block (p : DCacheParams) (acc : ℕ → DAccess) {ops : List DCacheOp}
    {s : DCacheSystem p}
    (hroom : ∀ t, Run.Takes (DCacheSystem.step p acc) {} ops t .lookup → t.FindsRoom acc)
    (hspare : ∀ t i, Run.Takes (DCacheSystem.step p acc) {} ops t (.refill i) → t.SparesReads i)
    (hs : Run.Visits (DCacheSystem.step p acc) {} ops s) :
    (s.dc.mshrFile.map (entryBlock p acc)).Nodup ∧
      ∀ op a, s.requests op = some a →
        (∃ e ∈ s.dc.mshrFile, entryBlock p acc e = some (blockOf p acc a)) ∧
          s.toL2 = [] ∧ s.atL2 = [] := by
  have T := DCacheSystem.Tracked.of_reachable hs.reachable
  have H : DCacheSystem.PerBlock acc s := by
    have hboth : DCacheSystem.Tracked s ∧ DCacheSystem.PerBlock acc s := by
      apply hs.invariant (I := fun s => DCacheSystem.Tracked s ∧ DCacheSystem.PerBlock acc s)
        ⟨.init, .init⟩
      rintro op s s' ⟨T, H⟩ htakes hstep
      refine ⟨T.step hstep, H.step T ?_ ?_ hstep⟩
      · rintro rfl
        exact hroom s htakes
      · rintro i rfl
        exact hspare s i htakes
    exact hboth.2
  exact ⟨H.unique, fun op a hreq => H.requests T hreq⟩

/-- A data cache that never replaces a line. -/
def smallDCache : DCacheParams := { cacheModel := .unbounded 64 }

/-- The conditions on a lookup and on a refill as a test. -/
def sparesEntries (acc : ℕ → DAccess) {p : DCacheParams} (t : DCacheSystem p) : DCacheOp → Bool
  | .lookup =>
    decide (t.dc.mshrFile.length < p.mshrEntries) &&
      match Pipeline.at? t.dc.pipeline lookupStage with
      | some (.lsu a) => t.dc.mshrFile.all fun e => entryBlock p acc e ≠ some (blockOf p acc a)
      | _ => true
  | .refill i => (t.atL2[i]?).all fun r => t.dc.pipeline.all fun x =>
      match x.val with
      | .lsu a => x.age ≠ dataReadStage || (t.dc.objs a).mshr ≠ r.mshr
      | .refill _ => true
  | _ => true

theorem findsRoom_of_sparesEntries {p : DCacheParams} {acc : ℕ → DAccess} {t : DCacheSystem p}
    (h : sparesEntries acc t .lookup = true) : t.FindsRoom acc := by
  intro a hmiss
  simp only [sparesEntries, hmiss.1, Bool.and_eq_true, decide_eq_true_eq, List.all_eq_true] at h
  exact h

theorem sparesReads_of_sparesEntries {p : DCacheParams} {acc : ℕ → DAccess} {t : DCacheSystem p}
    {i : ℕ} (h : sparesEntries acc t (.refill i) = true) : t.SparesReads i := by
  intro r hr a hmem _ id hid hsame
  simp only [sparesEntries, hr, Option.all_some] at h
  have hone := List.all_eq_true.mp h _ hmem
  simp [hsame, hid] at hone

/-- A load of each block. -/
def eachBlock : ℕ → DAccess := fun a => ⟨64 * a, false⟩

/-- Two loads miss, and the refill for the first one arrives when the second is about to be read. -/
def refilledOps : List DCacheOp :=
  [.tick, .lsuReq 0, .arbitrate, .postTick, .nextCycle,
   .tick, .lookup, .mshrRequest, .lsuReq 1, .arbitrate, .postTick, .copy 0, .nextCycle,
   .tick, .dataRead, .lookup, .mshrRequest, .postTick, .nextCycle,
   .refill 0, .tick]

/-- The next request is that of the second load, whose entry is left. -/
theorem mshr_unique_per_block_sample :
    ∃ s, refilledOps.foldlM (DCacheSystem.step smallDCache eachBlock) {} = .ok s ∧
      (s.dc.mshrFile.map (entryBlock smallDCache eachBlock)).Nodup ∧
      s.requests .mshrRequest = some 1 ∧
      (∃ e ∈ s.dc.mshrFile,
        entryBlock smallDCache eachBlock e = some (blockOf smallDCache eachBlock 1)) ∧
      s.toL2 = [] ∧ s.atL2 = [] := by
  have heval : (refilledOps.foldlM (DCacheSystem.step smallDCache eachBlock) {}).toOption.map
      (fun s => s.requests .mshrRequest) = some (some 1) := by
    decide +kernel
  have hall : Run.along (DCacheSystem.step smallDCache eachBlock) (sparesEntries eachBlock) {}
      refilledOps = true := by
    decide +kernel
  obtain ⟨s, hs, hreq⟩ := Run.ok_of_eval heval
  obtain ⟨hnodup, hserved⟩ := mshr_unique_per_block smallDCache eachBlock
    (fun t htakes => findsRoom_of_sparesEntries (htakes.of_along hall))
    (fun t i htakes => sparesReads_of_sparesEntries (htakes.of_along hall))
    ⟨_, [], (List.append_nil _).symm, hs⟩
  exact ⟨s, hs, hnodup, hreq, hserved _ _ hreq⟩

/-- Loads of one block. -/
def sameBlock : ℕ → DAccess := fun _ => ⟨0, false⟩

/-- Two loads of one block. -/
def twoLoads : List DCacheOp :=
  [.tick, .lsuReq 0, .arbitrate, .postTick, .nextCycle,
   .tick, .lookup, .mshrRequest, .lsuReq 1, .arbitrate, .postTick, .nextCycle,
   .tick, .lookup]

theorem mshr_block_twice :
    ¬∀ (p : DCacheParams) (acc : ℕ → DAccess) (s : DCacheSystem p),
      Run.Reachable (DCacheSystem.step p acc) {} s →
      (s.dc.mshrFile.map (entryBlock p acc)).Nodup := by
  intro hall
  have heval : (twoLoads.foldlM (DCacheSystem.step smallDCache sameBlock) {}).toOption.map
      (fun s => s.dc.mshrFile.map (entryBlock smallDCache sameBlock)) =
        some [some 0, some 0] := by
    decide +kernel
  obtain ⟨s, hs, hval⟩ := Run.ok_of_eval heval
  have hnodup := hall smallDCache sameBlock s ⟨_, hs⟩
  rw [hval] at hnodup
  exact absurd hnodup (by decide)

end Olympia
