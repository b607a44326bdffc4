import Olympia.Lsu.Refills

/-!
# The requests of the MSHR entries

Is the line of every MSHR entry requested?  An access that misses sends its request when it is
read, or leaves it to `mshrRequest_` when the L2 cache is busy.  `mshrRequest_` asks for the first
entry and is not scheduled again by itself; each arbitration schedules it.

An access that is marked as a hit before it is read sends nothing and schedules nothing: a store,
which `handleLookup_` marks when it takes an entry, or a load whose data the LSU forwards.  Its
entry is requested with the next arbitration.  `DCacheSystem.Wakes` says that this is the only
exception: an entry of any other access has been requested, or an event is scheduled that will see
to it.
-/

namespace Olympia

open DCache

namespace DCache

variable {p : DCacheParams} {acc : ℕ → DAccess} {s : DCacheState p}

/-- No entry has been filled: the source never sets `data_arrived_`. -/
def Unfilled (s : DCacheState p) : Prop :=
  ∀ e ∈ s.mshrFile, e.valid = true ∧ e.dataArrived = false

theorem Unfilled.mono {s' : DCacheState p} (H : Unfilled s)
    (hsub : ∀ e ∈ s'.mshrFile, e ∈ s.mshrFile) : Unfilled s' := fun e he => H e (hsub e he)

theorem Unfilled.setEntry {id : ℕ} {f : MSHREntryInfo → MSHREntryInfo} (H : Unfilled s)
    (hf : ∀ e, (f e).valid = e.valid ∧ (f e).dataArrived = e.dataArrived) :
    Unfilled (setEntry s id f) := by
  intro e he
  obtain ⟨x, hx, rfl⟩ := List.mem_map.mp he
  split
  · rw [(hf x).1, (hf x).2]
    exact H x hx
  · exact H x hx

/-- What a lookup leaves alone. -/
structure SameRead (s s' : DCacheState p) : Prop where
  event : s'.evMshrRequest = s.evMshrRequest
  due : s'.readDue = s.readDue
  unfilled : Unfilled s → Unfilled s'

theorem lookupEntry_read {a : ℕ} {out : DCacheOut p} (h : lookupEntry acc s a = .ok out) :
    SameRead s out.st := by
  unfold lookupEntry at h
  split at h
  · cases h
  · dsimp only at h
    split at h
    · obtain rfl := Except.ok.inj h
      exact ⟨rfl, rfl, fun H => H.setEntry fun e => ⟨rfl, rfl⟩⟩
    · split at h
      · obtain rfl := Except.ok.inj h
        exact ⟨rfl, rfl, id⟩
      · obtain rfl := Except.ok.inj h
        exact ⟨rfl, rfl, fun H => H.setEntry fun e => ⟨rfl, rfl⟩⟩

theorem handleLookup_read {out : DCacheOut p} (h : handleLookup p acc s = .ok out) :
    SameRead s out.st := by
  unfold handleLookup at h
  rcases hat : Pipeline.at? s.pipeline lookupStage with _ | a | r
  · simp only [hat] at h
    cases h
  · simp only [hat] at h
    split at h
    · obtain rfl := Except.ok.inj h
      exact ⟨rfl, rfl, id⟩
    unfold lookupMiss at h
    split at h
    · obtain ⟨hev, hdue, hunfilled⟩ := lookupEntry_read h
      exact ⟨hev, hdue, hunfilled⟩
    split at h
    · obtain rfl := Except.ok.inj h
      exact ⟨rfl, rfl, id⟩
    · obtain ⟨s₁, hs₁, h⟩ := Run.bind_eq_ok.mp h
      obtain ⟨u, -, hs₁⟩ := Run.bind_eq_ok.mp hs₁
      obtain ⟨u', -, hs₁⟩ := Run.bind_eq_ok.mp hs₁
      obtain rfl := Except.ok.inj hs₁
      obtain ⟨hev, hdue, hunfilled⟩ := lookupEntry_read h
      refine ⟨hev, hdue, fun H => hunfilled fun e he => ?_⟩
      rcases List.mem_append.mp he with he | he
      · exact H e he
      · obtain rfl := List.mem_singleton.mp he
        exact ⟨rfl, rfl⟩
  · simp only [hat] at h
    obtain rfl := Except.ok.inj h
    exact ⟨rfl, rfl, id⟩

/-- The entries after the lookup of an access: those before it, with the accesses they recorded,
and that of the access. -/
theorem Looked.memRequest {s' : DCacheState p} {a : ℕ} (h : Looked p acc s a s')
    {e : MSHREntryInfo} (he : e ∈ s'.mshrFile) :
    e.memRequest = some a ∨ ∃ e' ∈ s.mshrFile, e.memRequest = e'.memRequest := by
  cases h with
  | hit hobjs hfile hnext =>
    rw [hfile] at he
    exact .inr ⟨e, he, rfl⟩
  | full hfresh hfull hobjs hfile hnext =>
    rw [hfile] at he
    exact .inr ⟨e, he, rfl⟩
  | entry hmem hid hg hobjs hfile hnext =>
    rw [hfile] at he
    obtain ⟨x, hx, rfl⟩ := List.mem_map.mp he
    split
    · exact (hg x).2.imp id fun hsame => ⟨x, hx, hsame⟩
    · exact .inr ⟨x, hx, rfl⟩
  | alloc hfresh hfree hid hreq hobjs hfile hnext =>
    rw [hfile] at he
    rcases List.mem_append.mp he with he | he
    · exact .inr ⟨e, he, rfl⟩
    · obtain rfl := List.mem_singleton.mp he
      exact .inl hreq

theorem Looked.objs_of_ne {s' : DCacheState p} {a b : ℕ} (h : Looked p acc s a s') (hb : b ≠ a) :
    s'.objs b = s.objs b := by
  cases h with
  | hit hobjs => rw [hobjs, Function.update_of_ne hb]
  | full _ _ hobjs => rw [hobjs, Function.update_of_ne hb]
  | entry _ _ _ hobjs => rw [hobjs, Function.update_of_ne hb]
  | alloc _ _ _ _ hobjs => rw [hobjs, Function.update_of_ne hb]

/-- While there is an entry, `mshrRequest_` finds one to request. -/
theorem nextRequest_ne_none (H : Unfilled s) {e : MSHREntryInfo} (he : e ∈ s.mshrFile) {a : ℕ}
    (ha : e.memRequest = some a) : nextRequest s ≠ none := by
  intro hnone
  have hskip := List.findSome?_eq_none_iff.mp hnone e he
  obtain ⟨hvalid, hdata⟩ := H e he
  simp [hvalid, hdata, ha] at hskip

/-- The access has not been read, and will be. -/
def Reads (s : DCacheState p) (a : ℕ) : Prop :=
  ∃ n, ⟨n, .lsu a⟩ ∈ s.pipeline ∧ (n < dataReadStage ∨ n = dataReadStage ∧ s.readDue = true)

theorem Reads.nextCycle {a : ℕ} (h : Reads s a) (hdone : s.readDue = false) :
    Reads (nextCycle s) a := by
  obtain ⟨n, hmem, hn⟩ := h
  have hlt : n < dataReadStage := by
    rcases hn with hn | ⟨-, hdue⟩
    · exact hn
    · rw [hdone] at hdue
      cases hdue
  have hmoved : (⟨n + 1, .lsu a⟩ : Staged DRequest) ∈ (DCache.nextCycle s).pipeline := by
    refine Pipeline.mem_remove.mpr ⟨Pipeline.mem_advance.mpr ⟨_, hmem, rfl⟩, ?_⟩
    simp only [dataReadStage, deallocateStage] at hlt ⊢
    omega
  refine ⟨n + 1, hmoved, ?_⟩
  rcases Nat.lt_or_eq_of_le (Nat.succ_le_of_lt hlt) with hlt | heq
  · exact .inl hlt
  · exact .inr ⟨heq, Pipeline.isValid_iff.mpr ⟨_, hmoved, heq⟩⟩

end DCache

namespace DCacheSystem

variable {p : DCacheParams} {acc : ℕ → DAccess} {s s' : DCacheSystem p} {op : DCacheOp}

/-- Something is under way that will see to the entry of an access. -/
def Served (dc : DCacheState p) (a : ℕ) : Prop :=
  dc.l2Busy = true ∨ dc.evMshrRequest.Pending ∨ slots dc ≠ [] ∨ Reads dc a

/-- What every step keeps. -/
structure Wakes (s : DCacheSystem p) : Prop where
  unfilled : Unfilled s.dc
  served : ∀ e ∈ s.dc.mshrFile, ∀ a, e.memRequest = some a →
    (s.dc.objs a).cacheState ≠ .hit → Served s.dc a
  done : s.phase = .postTick → s.dc.evMshrRequest.now = false ∧ s.dc.readDue = false

namespace Wakes

theorem init : Wakes ({} : DCacheSystem p) :=
  ⟨fun _ he => (by cases he), fun _ he => (by cases he), fun hphase => (by cases hphase)⟩

/-- Before the end of a cycle it is enough that something is under way. -/
theorem of_served (hphase : s'.phase ≠ .postTick) (hunfilled : Unfilled s'.dc)
    (h : ∀ a, Served s'.dc a) : Wakes s' :=
  ⟨hunfilled, fun _ _ a _ _ => h a, fun hpost => absurd hpost hphase⟩

theorem lookup (W : Wakes s) (T : Tracked s) (hphase : s.phase = .tick) {out : DCacheOut p}
    (h : handleLookup p acc s.dc = .ok out) : Wakes (s.emit out) := by
  obtain ⟨hev, hdue, hunfilled⟩ := handleLookup_read h
  have hslots := (handleLookup_slots h).slots
  obtain ⟨-, hpipe, -, -, hbusy, hcases⟩ := handleLookup_cases T.filed h
  have hserved : ∀ a, Served s.dc a → Served out.st a := by
    intro a hold
    simpa only [Served, Reads, hev, hdue, hslots, hpipe, hbusy] using hold
  refine ⟨hunfilled W.unfilled, fun e he b hb hmiss => ?_, fun hpost => ?_⟩
  · rcases hcases with ⟨r, -, hobjs, hfile, -⟩ | ⟨a, hat, hlooked⟩
    · have he : e ∈ out.st.mshrFile := he
      have hmiss : (out.st.objs b).cacheState ≠ .hit := hmiss
      rw [hfile] at he
      rw [hobjs] at hmiss
      exact hserved b (W.served e he b hb hmiss)
    · by_cases hab : b = a
      · -- the access is in the pipeline, and has not been read
        subst hab
        refine .inr (.inr (.inr ⟨lookupStage, ?_, .inl (by decide)⟩))
        show _ ∈ out.st.pipeline
        rw [hpipe]
        exact Pipeline.mem_of_at hat
      · rcases hlooked.memRequest he with hown | ⟨e', he', hsame⟩
        · exact absurd (Option.some.inj (hb.symm.trans hown)) hab
        · have hmiss : (out.st.objs b).cacheState ≠ .hit := hmiss
          rw [hlooked.objs_of_ne hab] at hmiss
          exact hserved b (W.served e' he' b (hsame.symm.trans hb) hmiss)
  · have hpost : s.phase = .postTick := hpost
    rw [hphase] at hpost
    cases hpost

theorem dataRead (W : Wakes s) (T : Tracked s) (hphase : s.phase = .tick) {out : DCacheOut p}
    (h : handleDataRead s.dc = .ok out) : Wakes (s.emit out) := by
  have hpost : (s.emit out).phase ≠ .postTick := by simp [emit, hphase]
  -- an access that is still to be read is not the one in the stage
  have hearlier : ∀ x, Pipeline.at? s.dc.pipeline dataReadStage = some x → ∀ a, x ≠ .lsu a →
      Reads s.dc a → ∃ n, ⟨n, .lsu a⟩ ∈ s.dc.pipeline ∧ n < dataReadStage := by
    rintro x hat a hne ⟨n, hmem, hn | ⟨rfl, -⟩⟩
    · exact ⟨n, hmem, hn⟩
    · exact absurd (Pipeline.eq_of_at T.sparse hat hmem).symm hne
  unfold handleDataRead at h
  rcases hat : Pipeline.at? s.dc.pipeline dataReadStage with _ | ⟨b⟩ | ⟨r⟩
  · simp only [hat] at h
    cases h
  · simp only [hat] at h
    split at h
    · rename_i hhit
      obtain rfl := Except.ok.inj h
      refine ⟨W.unfilled, fun e he a ha hmiss => ?_, fun h => absurd h hpost⟩
      have hne : b ≠ a := by
        rintro rfl
        refine hmiss ?_
        simpa [emit, setObj] using hhit
      have hmiss : (s.dc.objs a).cacheState ≠ .hit := by
        simpa [emit, setObj, Function.update_of_ne hne.symm] using hmiss
      rcases W.served e he a ha hmiss with hold | hold | hold | hold
      · exact .inl hold
      · exact .inr (.inl hold)
      · exact .inr (.inr (.inl hold))
      · obtain ⟨n, hmem, hn⟩ := hearlier _ hat a (by simpa using hne) hold
        exact .inr (.inr (.inr ⟨n, hmem, .inl hn⟩))
    · split at h
      · rename_i hbusy
        obtain rfl := Except.ok.inj h
        exact of_served hpost W.unfilled fun a => .inl hbusy
      · obtain rfl := Except.ok.inj h
        exact of_served hpost W.unfilled fun a => .inl rfl
  · simp only [hat] at h
    obtain rfl := Except.ok.inj h
    refine ⟨W.unfilled, fun e he a ha hmiss => ?_, fun h => absurd h hpost⟩
    rcases W.served e he a ha hmiss with hold | hold | hold | hold
    · exact .inl hold
    · exact .inr (.inl hold)
    · exact .inr (.inr (.inl hold))
    · obtain ⟨n, hmem, hn⟩ := hearlier _ hat a (by simp) hold
      exact .inr (.inr (.inr ⟨n, hmem, .inl hn⟩))

theorem deallocate (W : Wakes s) (hphase : s.phase = .tick) {out : DCacheOut p}
    (h : handleDeallocate s.dc = .ok out) : Wakes (s.emit out) := by
  have hpost : (s.emit out).phase ≠ .postTick := by simp [emit, hphase]
  unfold handleDeallocate at h
  dsimp only at h
  split at h
  · cases h
  · obtain rfl := Except.ok.inj h
    exact ⟨W.unfilled, W.served, fun h => absurd h hpost⟩
  · split at h
    · obtain rfl := Except.ok.inj h
      exact ⟨W.unfilled, W.served, fun h => absurd h hpost⟩
    · obtain rfl := Except.ok.inj h
      exact ⟨W.unfilled.mono fun e he => List.mem_of_mem_filter he,
        fun e he => W.served e (List.mem_of_mem_filter he), fun h => absurd h hpost⟩

theorem mshrRequest (W : Wakes s) (T : Tracked s) (hphase : s.phase = .tick) :
    Wakes (s.emit (DCache.mshrRequest s.dc)) := by
  unfold DCache.mshrRequest
  dsimp only
  split
  · rename_i hbusy
    exact of_served (by simp [emit, hphase]) W.unfilled fun a => .inl hbusy
  · split
    · rename_i hnone
      refine ⟨W.unfilled, fun e he => ?_, fun h => ?_⟩
      · obtain ⟨a, ha, -⟩ := T.filed.owner e he
        exact absurd hnone (nextRequest_ne_none (s := { s.dc with
          evMshrRequest := s.dc.evMshrRequest.fire }) W.unfilled he ha)
      · have h : s.phase = .postTick := h
        rw [hphase] at h
        cases h
    · exact of_served (by simp [emit, hphase]) W.unfilled fun a => .inl rfl

theorem step (W : Wakes s) (T : Tracked s) (A : Armed s) (h : s.step p acc op = .ok s') :
    Wakes s' := by
  obtain ⟨hphase, hdue, h⟩ := step_eq_ok.mp h
  cases op with
  | refill i =>
    obtain ⟨hlt, -⟩ := Bool.and_eq_true_iff.mp hdue
    have hr := List.getElem?_eq_getElem (of_decide_eq_true hlt)
    simp only [handle, hr] at h
    obtain rfl := Except.ok.inj h
    refine of_served (by simp [hphase, DCacheOp.phase])
      (W.unfilled.mono fun e he => List.mem_of_mem_filter he) fun a => .inr (.inr (.inl ?_))
    simp [slots, receiveRespFromL2Cache]
  | lsuReq a =>
    obtain rfl := Except.ok.inj h
    refine of_served (by simp [hphase, DCacheOp.phase]) W.unfilled fun b => .inr (.inr (.inl ?_))
    simp [slots, receiveMemReqFromLSU]
  | forward a =>
    obtain rfl := Except.ok.inj h
    refine ⟨W.unfilled, fun e he b hb hmiss => ?_, fun hpost => ?_⟩
    · by_cases hab : b = a
      · subst hab
        exact absurd (by simp [setObj]) hmiss
      · exact W.served e he b hb (by simpa [setObj, Function.update_of_ne hab] using hmiss)
    · exact absurd (hphase.symm.trans hpost) (by simp [DCacheOp.phase])
  | lookup =>
    obtain ⟨out, hout, h⟩ := Run.bind_eq_ok.mp h
    obtain rfl := Except.ok.inj h
    exact W.lookup T hphase hout
  | dataRead =>
    obtain ⟨out, hout, h⟩ := Run.bind_eq_ok.mp h
    obtain rfl := Except.ok.inj h
    exact W.dataRead T hphase hout
  | deallocate =>
    obtain ⟨out, hout, h⟩ := Run.bind_eq_ok.mp h
    obtain rfl := Except.ok.inj h
    exact W.deallocate hphase hout
  | arbitrate =>
    obtain ⟨dc, hdc, h⟩ := Run.bind_eq_ok.mp h
    obtain rfl := Except.ok.inj h
    obtain ⟨req, -, hdc⟩ := Run.bind_eq_ok.mp hdc
    obtain ⟨u, -, hdc⟩ := Run.bind_eq_ok.mp hdc
    obtain rfl := Except.ok.inj hdc
    exact of_served (by simp [hphase, DCacheOp.phase]) W.unfilled fun a =>
      .inr (.inl UniqueEvent.pending_scheduleNext)
  | mshrRequest =>
    obtain rfl := Except.ok.inj h
    exact W.mshrRequest T hphase
  | copy i =>
    have ha := List.getElem?_eq_getElem (of_decide_eq_true hdue)
    simp only [handle, ha] at h
    obtain rfl := Except.ok.inj h
    exact ⟨W.unfilled, W.served, W.done⟩
  | tick =>
    obtain rfl := Except.ok.inj h
    exact ⟨W.unfilled, W.served, fun hpost => by cases hpost⟩
  | postTick =>
    obtain rfl := Except.ok.inj h
    have hdone : tickDone s.dc = true := hdue
    simp only [tickDone, Bool.and_eq_true, Bool.not_eq_true'] at hdone
    exact ⟨W.unfilled, W.served, fun _ => ⟨hdone.1.1.1.2, hdone.1.2⟩⟩
  | nextCycle =>
    obtain rfl := Except.ok.inj h
    obtain ⟨hnow, hread⟩ := W.done hphase
    refine ⟨W.unfilled, fun e he a ha hmiss => ?_, fun hpost => by cases hpost⟩
    rcases W.served e he a ha hmiss with hold | hold | hold | hold
    · exact .inl hold
    · exact .inr (.inl (hold.nextCycle hnow))
    · -- the arbitration has emptied the slots
      have hidle := A.done hphase
      rw [A.now.mpr hold] at hidle
      cases hidle
    · exact .inr (.inr (.inr (hold.nextCycle hread)))

theorem of_reachable (h : Run.Reachable (DCacheSystem.step p acc) {} s) : Wakes s := by
  have hall : Tracked s ∧ Armed s ∧ Wakes s := by
    refine h.invariant (I := fun s => Tracked s ∧ Armed s ∧ Wakes s) ⟨.init, .init, .init⟩ ?_
    exact fun _ _ _ ⟨T, A, W⟩ hstep => ⟨T.step hstep, A.step hstep, W.step T A hstep⟩
  exact hall.2.2

end Wakes

/-- Nothing is scheduled in the data cache, and its pipeline is empty. -/
structure Idle (s : DCacheSystem p) : Prop where
  event : ¬s.dc.evMshrRequest.Pending
  slots : slots s.dc = []
  pipeline : s.dc.pipeline = []

instance (s : DCacheSystem p) : Decidable s.Idle :=
  decidable_of_iff (¬s.dc.evMshrRequest.Pending ∧ DCacheSystem.slots s.dc = [] ∧ s.dc.pipeline = [])
    ⟨fun h => ⟨h.1, h.2.1, h.2.2⟩, fun h => ⟨h.event, h.slots, h.pipeline⟩⟩

/-- What an idle data cache has left, when the L2 cache does not work for it. -/
theorem Wakes.of_idle (W : Wakes s) (T : Tracked s) (hidle : s.Idle)
    (hbusy : s.dc.l2Busy = false) {e : MSHREntryInfo} (he : e ∈ s.dc.mshrFile) :
    ∃ a, e.memRequest = some a ∧ (s.dc.objs a).cacheState = .hit := by
  obtain ⟨a, ha, -⟩ := T.filed.owner e he
  refine ⟨a, ha, ?_⟩
  by_contra hmiss
  rcases W.served e he a ha hmiss with h | h | h | ⟨n, hmem, -⟩
  · rw [hbusy] at h
    cases h
  · exact hidle.event h
  · exact h hidle.slots
  · rw [hidle.pipeline] at hmem
    cases hmem

end DCacheSystem

open DCacheSystem

/-- In every state that the data cache reaches, with any LSU and any L2 cache that answers each copy
once: an MSHR entry records an access, and unless this access is marked as a hit something is under
way: the L2 cache works for the data cache, `mshrRequest_` or the arbitration is scheduled, or the
access has not been read.  So when the data cache is idle and the L2 cache does not work for it, no
missing access is forgotten: all entries that are left are of accesses marked as a hit. -/
theorem mshr_entry_served (p : DCacheParams) (acc : ℕ → DAccess) {s : DCacheSystem p}
    (h : Run.Reachable (DCacheSystem.step p acc) {} s) :
    (∀ e ∈ s.dc.mshrFile, ∃ a, e.memRequest = some a ∧
      ((s.dc.objs a).cacheState ≠ .hit → Served s.dc a)) ∧
    (s.Idle → s.dc.l2Busy = false → ∀ e ∈ s.dc.mshrFile,
      ∃ a, e.memRequest = some a ∧ (s.dc.objs a).cacheState = .hit) := by
  have T := Tracked.of_reachable h
  have W := Wakes.of_reachable h
  refine ⟨fun e he => ?_, fun hidle hbusy e he => W.of_idle T hidle hbusy he⟩
  obtain ⟨a, ha, -⟩ := T.filed.owner e he
  exact ⟨a, ha, W.served e he a ha⟩

/-- A store misses when `mshrRequest_` has run. -/
def missedStore : List DCacheOp :=
  [.tick, .lsuReq 0, .arbitrate, .postTick, .nextCycle,
   .tick, .mshrRequest, .lookup, .postTick, .nextCycle,
   .tick, .dataRead, .postTick, .nextCycle, .tick, .deallocate, .postTick, .nextCycle]

/-- The entry of a store stays until the next access, and its line is not requested. -/
theorem mshr_entry_served_store :
    ∃ s, missedStore.foldlM (DCacheSystem.step smallDCache fun _ => ⟨0, true⟩) {} = .ok s ∧
      s.dc.mshrFile.length = 1 ∧ s.toL2 = [] ∧
      ∀ e ∈ s.dc.mshrFile, ∃ a, e.memRequest = some a ∧ (s.dc.objs a).cacheState = .hit := by
  have heval : (missedStore.foldlM (DCacheSystem.step smallDCache fun _ => ⟨0, true⟩)
      {}).toOption.map (fun s => (s.dc.mshrFile.length, s.toL2, decide s.Idle, s.dc.l2Busy)) =
        some (1, [], true, false) := by
    decide +kernel
  obtain ⟨s, hs, hval⟩ := Run.ok_of_eval heval
  simp only [Prod.mk.injEq] at hval
  obtain ⟨hlen, hto, hidle, hbusy⟩ := hval
  obtain ⟨-, hleft⟩ := mshr_entry_served smallDCache (fun _ => ⟨0, true⟩) ⟨_, hs⟩
  exact ⟨s, hs, hlen, hto, hleft (of_decide_eq_true hidle) hbusy⟩

end Olympia
