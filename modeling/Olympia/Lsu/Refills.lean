import Mathlib.Data.List.Perm.Basic
import Olympia.Lsu.Mshr

/-!
# What the data cache does with refills

When a refill arrives, its entry of `mshr_file_` holds the access that waits for it, and the last
stage of the pipeline should wake that access and erase the entry.  But `receiveRespFromL2Cache_`
has erased the entry, so the last stage never finds it: no refill wakes anything
(`refill_never_wakes`), and the access is found again only when the LSU asks again.

An access of the LSU and a refill that arrive in one cycle meet in `arbitrateL2LsuReq_`.  It lets
the refill into the pipeline and clears both slots, so the access is lost.
`arbiter_loses_nothing_iff` says that nothing else is lost.
-/

namespace Olympia

open DCache

namespace DCacheSystem

variable {p : DCacheParams} {acc : ℕ → DAccess} {s s' : DCacheSystem p} {op : DCacheOp}

/-! ## Nothing is woken -/

/-- The accesses that the stage DEALLOCATE acknowledges in a step. -/
def wakes (s : DCacheSystem p) : DCacheOp → List ℕ
  | .deallocate => (handleDeallocate s.dc).toOption.elim [] DCacheOut.acks
  | _ => []

/-- The last stage finds no entry for a refill. -/
theorem Tracked.wakes_eq_nil (T : Tracked s) (op : DCacheOp) : s.wakes op = [] := by
  cases op with
  | deallocate =>
    simp only [wakes, handleDeallocate]
    rcases hat : Pipeline.at? s.dc.pipeline deallocateStage with _ | a | r
    · rfl
    · rfl
    · have hnone : entryAt s.dc r.mshr = none := by
        apply List.find?_eq_none.mpr
        intro e he
        rcases hid : r.mshr with _ | id
        · simp
        · have hgone := T.gone r (.inr ⟨_, Pipeline.mem_of_at hat⟩) id hid
          simpa using (hgone.2 e he).symm
      simp only [entryAt] at hnone ⊢
      rw [hnone]
      rfl
  | _ => rfl

/-- No entry has this identity, and none will get it. -/
def Absent (id : ℕ) (s : DCacheSystem p) : Prop :=
  id < s.dc.nextEntry ∧ ∀ e ∈ s.dc.mshrFile, e.id ≠ id

theorem Absent.step {id : ℕ} (T : Tracked s) (H : Absent id s) (h : s.step p acc op = .ok s') :
    Absent id s' := by
  obtain ⟨hlt, hne⟩ := H
  cases step_moved T h with
  | refill hphase hr => exact ⟨hlt, fun e he => hne e (List.mem_of_mem_filter he)⟩
  | quiet hdc => exact ⟨by rw [hdc.next]; exact hlt, by rw [hdc.file]; exact hne⟩
  | lookupRefill hat hdc => exact ⟨by rw [hdc.next]; exact hlt, by rw [hdc.file]; exact hne⟩
  | lookup hat hdc =>
    obtain ⟨hle, hentries⟩ := Looked.entries hdc
    refine ⟨hlt.trans_le hle, ?_⟩
    intro e he
    rcases hentries e he with ⟨x, hx, hid⟩ | hid
    · rw [← hid]
      exact hne x hx
    · omega
  | sent _ hdc => exact ⟨by rw [hdc.next]; exact hlt, by rw [hdc.file]; exact hne⟩
  | arbitrate _ _ hfile hnext =>
    exact ⟨by simp only [hnext]; exact hlt, by simp only [hfile]; exact hne⟩
  | copy _ => exact ⟨hlt, hne⟩
  | tick _ => exact ⟨hlt, hne⟩
  | postTick _ => exact ⟨hlt, hne⟩
  | nextCycle _ => exact ⟨hlt, hne⟩

end DCacheSystem

open DCacheSystem

/-- A refill arrives whose entry is in `mshr_file_`.  Whatever happens then, the stage DEALLOCATE
acknowledges no access once, that of the entry or another: it acknowledges nothing.  The entry was
erased when the refill arrived, and it does not come back. -/
theorem refill_never_wakes (p : DCacheParams) (acc : ℕ → DAccess) {s s₁ s₂ : DCacheSystem p}
    {i a : ℕ} {r : Refill} {e : MSHREntryInfo} {ops : List DCacheOp} {woken : List ℕ}
    (h : Run.Reachable (DCacheSystem.step p acc) {} s) (hr : s.atL2[i]? = some r)
    (he : entryAt s.dc r.mshr = some e)
    (harrives : s.step p acc (.refill i) = .ok s₁)
    (hrun : ops.foldlM (Run.traced (DCacheSystem.step p acc) wakes) ([], s₁) = .ok (woken, s₂)) :
    (¬woken.count a = 1 ∧ woken = []) ∧
      ∀ t, Run.Visits (DCacheSystem.step p acc) s₁ ops t → ∀ e' ∈ t.dc.mshrFile, e'.id ≠ e.id := by
  have T := Tracked.of_reachable h
  have T₁ := T.step harrives
  have hnone : woken = [] := by
    have hboth := Run.foldlM_ok_preserves
      (I := fun hs : List ℕ × DCacheSystem p => Tracked hs.2 ∧ hs.1 = []) ?_ ⟨T₁, rfl⟩ hrun
    · exact hboth.2
    · rintro op ⟨hist, t⟩ hs' ⟨T, hnil⟩ hstep
      obtain ⟨hstep, hhist⟩ := Run.traced_eq_ok.mp hstep
      refine ⟨T.step hstep, ?_⟩
      rw [hhist, T.wakes_eq_nil op]
      simpa using hnil
  refine ⟨⟨by simp [hnone], hnone⟩, ?_⟩
  obtain ⟨hmem, hid⟩ := entryAt_eq_some he
  have habsent : Absent e.id s₁ := by
    refine T₁.gone r ?_ e.id hid
    obtain ⟨-, -, hhandle⟩ := step_eq_ok.mp harrives
    simp only [handle, hr] at hhandle
    obtain rfl := Except.ok.inj hhandle
    exact .inl rfl
  intro t ht
  have hboth := ht.invariant (I := fun t => Tracked t ∧ Absent e.id t) ⟨T₁, habsent⟩
    fun op t t' H _ hstep => ⟨H.1.step hstep, H.2.step H.1 hstep⟩
  exact hboth.2.2

/-- A load goes through the lookup and is read. -/
def oneLoad : List DCacheOp :=
  [.tick, .lsuReq 0, .arbitrate, .postTick, .nextCycle,
   .tick, .lookup, .mshrRequest, .postTick, .nextCycle]

/-- A load misses, and its request goes to the L2 cache. -/
def missedLoad : List DCacheOp := oneLoad ++ [.tick, .dataRead, .postTick, .copy 0, .nextCycle]

/-- The refill goes through the pipeline and leaves it. -/
def refillOps : List DCacheOp :=
  [.tick, .deallocate, .mshrRequest, .arbitrate, .postTick, .nextCycle,
   .tick, .lookup, .mshrRequest, .postTick, .nextCycle, .tick, .dataRead, .postTick, .nextCycle,
   .tick, .deallocate, .postTick, .nextCycle]

/-- The load of `missedLoad` has an entry when its refill arrives, and the refill leaves the
pipeline. -/
theorem refillOps_run : ∃ s s₁ s₂ woken,
    Run.Reachable (DCacheSystem.step smallDCache sameBlock) {} s ∧ s.atL2[0]? = some ⟨0, some 0⟩ ∧
      entryAt s.dc (some 0) = some { id := 0, memRequest := some 0 } ∧
      s.step smallDCache sameBlock (.refill 0) = .ok s₁ ∧
      refillOps.foldlM (Run.traced (DCacheSystem.step smallDCache sameBlock) wakes) ([], s₁) =
        .ok (woken, s₂) ∧ woken = [] ∧ s₂.dc.pipeline = [] ∧ s₂.dc.l2MemAccess = none := by
  have heval : (missedLoad.foldlM (DCacheSystem.step smallDCache sameBlock) {}).toOption.map
      (fun s => (s.atL2[0]?, entryAt s.dc (some 0))) =
      some (some ⟨0, some 0⟩, some { id := 0, memRequest := some 0 }) := by
    decide +kernel
  have hevalRun : (missedLoad.foldlM (DCacheSystem.step smallDCache sameBlock) {} >>= fun s =>
      s.step smallDCache sameBlock (.refill 0) >>= fun s₁ => refillOps.foldlM
        (Run.traced (DCacheSystem.step smallDCache sameBlock) wakes) ([], s₁)).toOption.map
      (fun hs => (hs.1, hs.2.dc.pipeline, hs.2.dc.l2MemAccess)) = some ([], [], none) := by
    decide +kernel
  obtain ⟨s, hs, hval⟩ := Run.ok_of_eval heval
  obtain ⟨⟨woken, s₂⟩, hrun, hend⟩ := Run.ok_of_eval hevalRun
  obtain ⟨s', hs', hrun⟩ := Run.bind_eq_ok.mp hrun
  obtain rfl := Except.ok.inj (hs.symm.trans hs')
  obtain ⟨s₁, hs₁, hrun⟩ := Run.bind_eq_ok.mp hrun
  simp only [Prod.mk.injEq] at hval hend
  exact ⟨s, s₁, s₂, woken, ⟨missedLoad, hs⟩, hval.1, hval.2, hs₁, hrun, hend.1, hend.2.1, hend.2.2⟩

theorem refill_never_wakes_sample : ∃ woken : List ℕ, ∃ s₁ s₂,
    refillOps.foldlM (Run.traced (DCacheSystem.step smallDCache sameBlock) wakes) ([], s₁) =
      .ok (woken, s₂) ∧ ¬woken.count 0 = 1 := by
  obtain ⟨s, s₁, s₂, woken, hreach, hr, he, hs₁, hrun, -⟩ := refillOps_run
  exact ⟨woken, s₁, s₂, hrun,
    (refill_never_wakes smallDCache sameBlock hreach hr he hs₁ hrun).1.1⟩

/-- A refill does not wake the access that waits for it. -/
theorem refill_lost_wakeup :
    ¬∀ (p : DCacheParams) (acc : ℕ → DAccess) (s s₁ s₂ : DCacheSystem p) (i a : ℕ) (r : Refill)
      (e : MSHREntryInfo) (ops : List DCacheOp) (woken : List ℕ),
      Run.Reachable (DCacheSystem.step p acc) {} s → s.atL2[i]? = some r →
      entryAt s.dc r.mshr = some e → e.memRequest = some a →
      s.step p acc (.refill i) = .ok s₁ →
      ops.foldlM (Run.traced (DCacheSystem.step p acc) wakes) ([], s₁) = .ok (woken, s₂) →
      ¬Arrived s₂.dc r → woken.count a = 1 := by
  intro hall
  obtain ⟨s, s₁, s₂, woken, hreach, hr, he, hs₁, hrun, hwoken, hpipe, hslot⟩ := refillOps_run
  have hleft : ¬Arrived s₂.dc ⟨0, some 0⟩ := by
    rintro (h | ⟨n, h⟩)
    · rw [hslot] at h
      cases h
    · rw [hpipe] at h
      cases h
  have hone := hall _ _ s s₁ s₂ 0 0 _ _ refillOps woken hreach hr he rfl hs₁ hrun hleft
  rw [hwoken] at hone
  cases hone

/-! ## The arbiter -/

/-- What happens to the requests before the pipeline. -/
inductive ArbiterEvent where
  /-- passed to `receiveMemReqFromLSU_` or `receiveRespFromL2Cache_` -/
  | passed (r : DRequest)
  | appended (r : DRequest)
  | dropped (r : DRequest)
  deriving DecidableEq, Repr

namespace ArbiterEvent

def passed? : ArbiterEvent → Option DRequest
  | .passed r => some r
  | _ => none

def appended? : ArbiterEvent → Option DRequest
  | .appended r => some r
  | _ => none

def dropped? : ArbiterEvent → Option DRequest
  | .dropped r => some r
  | _ => none

end ArbiterEvent

namespace DCacheSystem

variable {p : DCacheParams} {acc : ℕ → DAccess} {s s' : DCacheSystem p} {op : DCacheOp}

/-- The requests in the two slots. -/
def slots (dc : DCacheState p) : List DRequest :=
  (dc.l2MemAccess.map DRequest.refill).toList ++ (dc.lsuMemAccess.map DRequest.lsu).toList

/-- The access that is cleared with the refill that is let into the pipeline. -/
def loses (dc : DCacheState p) : List DRequest :=
  if dc.l2MemAccess.isSome then (dc.lsuMemAccess.map DRequest.lsu).toList else []

/-- What a step does to the requests before the pipeline. -/
def arbiterEvents (s : DCacheSystem p) : DCacheOp → List ArbiterEvent
  | .refill i => (s.atL2[i]?.map fun r => .passed (.refill r)).toList
  | .lsuReq a => [.passed (.lsu a)]
  | .arbitrate =>
    ((winner s.dc).toOption.map .appended).toList ++ (loses s.dc).map .dropped
  | _ => []

/-- The slots are filled exactly while the arbitration is scheduled.  Once it has run, nothing can
arrive in the cycle: the first stage is taken. -/
structure Armed (s : DCacheSystem p) : Prop where
  now : s.dc.evArbitrate.now = true ↔ slots s.dc ≠ []
  next : s.dc.evArbitrate.next = false
  done : s.phase = .postTick → s.dc.evArbitrate.now = false
  ran : s.dc.evArbitrate.ran = true →
    s.phase ≠ .portUpdate ∧ Pipeline.isValid s.dc.pipeline 0 = true

/-- The slots, the event of the arbitration and the pipeline stay. -/
structure SameSlots (dc dc' : DCacheState p) : Prop where
  slots : slots dc' = slots dc
  event : dc'.evArbitrate = dc.evArbitrate
  pipeline : dc'.pipeline = dc.pipeline

theorem lookupEntry_slots {dc : DCacheState p} {a : ℕ} {out : DCacheOut p}
    (h : lookupEntry acc dc a = .ok out) : SameSlots dc out.st := by
  obtain ⟨-, e, g, c, -, -, -, hst⟩ := lookupEntry_cases h
  rw [hst]
  exact ⟨rfl, rfl, rfl⟩

theorem handleLookup_slots {dc : DCacheState p} {out : DCacheOut p}
    (h : handleLookup p acc dc = .ok out) : SameSlots dc out.st := by
  unfold handleLookup at h
  rcases hat : Pipeline.at? dc.pipeline lookupStage with _ | a | r
  · simp only [hat] at h
    cases h
  · simp only [hat] at h
    split at h
    · obtain rfl := Except.ok.inj h
      exact ⟨rfl, rfl, rfl⟩
    unfold lookupMiss at h
    split at h
    · obtain ⟨hslots, hev, hpipe⟩ := lookupEntry_slots h
      exact ⟨hslots, hev, hpipe⟩
    split at h
    · obtain rfl := Except.ok.inj h
      exact ⟨rfl, rfl, rfl⟩
    · obtain ⟨s₁, hs₁, h⟩ := Run.bind_eq_ok.mp h
      obtain ⟨u, -, hs₁⟩ := Run.bind_eq_ok.mp hs₁
      obtain ⟨u', -, hs₁⟩ := Run.bind_eq_ok.mp hs₁
      obtain rfl := Except.ok.inj hs₁
      obtain ⟨hslots, hev, hpipe⟩ := lookupEntry_slots h
      exact ⟨hslots, hev, hpipe⟩
  · simp only [hat] at h
    obtain rfl := Except.ok.inj h
    exact ⟨rfl, rfl, rfl⟩

theorem handleDataRead_slots {dc : DCacheState p} {out : DCacheOut p}
    (h : handleDataRead dc = .ok out) : SameSlots dc out.st := by
  unfold handleDataRead at h
  rcases hat : Pipeline.at? dc.pipeline dataReadStage with _ | a | r
  · simp only [hat] at h
    cases h
  · simp only [hat] at h
    split at h
    · obtain rfl := Except.ok.inj h
      exact ⟨rfl, rfl, rfl⟩
    · split at h
      · obtain rfl := Except.ok.inj h
        exact ⟨rfl, rfl, rfl⟩
      · obtain rfl := Except.ok.inj h
        exact ⟨rfl, rfl, rfl⟩
  · simp only [hat] at h
    obtain rfl := Except.ok.inj h
    exact ⟨rfl, rfl, rfl⟩

theorem handleDeallocate_slots {dc : DCacheState p} {out : DCacheOut p}
    (h : handleDeallocate dc = .ok out) : SameSlots dc out.st := by
  unfold handleDeallocate at h
  rcases hat : Pipeline.at? dc.pipeline deallocateStage with _ | a | r
  · simp only [hat] at h
    cases h
  · simp only [hat] at h
    obtain rfl := Except.ok.inj h
    exact ⟨rfl, rfl, rfl⟩
  · simp only [hat] at h
    split at h
    · obtain rfl := Except.ok.inj h
      exact ⟨rfl, rfl, rfl⟩
    · obtain rfl := Except.ok.inj h
      exact ⟨rfl, rfl, rfl⟩

theorem mshrRequest_slots (dc : DCacheState p) : SameSlots dc (DCache.mshrRequest dc).st := by
  unfold DCache.mshrRequest
  dsimp only
  split
  · exact ⟨rfl, rfl, rfl⟩
  · split
    · exact ⟨rfl, rfl, rfl⟩
    · exact ⟨rfl, rfl, rfl⟩

/-- A step passes a request to the arbiter, runs the arbiter, ends a cycle, or leaves the slots
alone. -/
theorem step_slots (h : s.step p acc op = .ok s') :
    (∃ i r, op = .refill i ∧ s.atL2[i]? = some r ∧ s.dc.l2MemAccess = none ∧
        s.phase = .portUpdate ∧ s'.phase = .portUpdate ∧
        s'.dc = receiveRespFromL2Cache s.dc r) ∨
      (∃ a, op = .lsuReq a ∧ s.dc.lsuMemAccess = none ∧
        Pipeline.isValid s.dc.pipeline 0 = false ∧ s'.phase = .tick ∧
        s'.dc = receiveMemReqFromLSU s.dc a) ∨
      (op = .arbitrate ∧ s.dc.evArbitrate.now = true ∧ s'.phase = .tick ∧
        arbitrateL2LsuReq s.dc = .ok s'.dc) ∨
      (op = .nextCycle ∧ s.phase = .postTick ∧ s'.phase = .portUpdate ∧
        s'.dc = DCache.nextCycle s.dc) ∨
      s.arbiterEvents op = [] ∧ SameSlots s.dc s'.dc ∧
        (s'.phase = .postTick → s.phase = .postTick ∨ s.dc.evArbitrate.now = false) ∧
        (s'.phase = .portUpdate → s.phase = .portUpdate) := by
  obtain ⟨hphase, hdue, h⟩ := step_eq_ok.mp h
  have hkeep : s'.phase = s.phase →
      (s'.phase = .postTick → s.phase = .postTick ∨ s.dc.evArbitrate.now = false) ∧
        (s'.phase = .portUpdate → s.phase = .portUpdate) := by
    intro hsame
    exact ⟨fun hpost => .inl (hsame ▸ hpost), fun hport => hsame ▸ hport⟩
  cases op with
  | refill i =>
    obtain ⟨hlt, hfree⟩ := Bool.and_eq_true_iff.mp hdue
    have hr := List.getElem?_eq_getElem (of_decide_eq_true hlt)
    simp only [handle, hr] at h
    obtain rfl := Except.ok.inj h
    exact .inl ⟨i, _, rfl, hr, Option.isNone_iff_eq_none.mp hfree, hphase, hphase, rfl⟩
  | lsuReq a =>
    obtain ⟨hfree, hzero⟩ := Bool.and_eq_true_iff.mp hdue
    obtain rfl := Except.ok.inj h
    exact .inr (.inl ⟨a, rfl, Option.isNone_iff_eq_none.mp hfree, by simpa using hzero, hphase,
      rfl⟩)
  | arbitrate =>
    obtain ⟨dc, hdc, h⟩ := Run.bind_eq_ok.mp h
    obtain rfl := Except.ok.inj h
    exact .inr (.inr (.inl ⟨rfl, hdue, hphase, hdc⟩))
  | nextCycle =>
    obtain rfl := Except.ok.inj h
    exact .inr (.inr (.inr (.inl ⟨rfl, hphase, rfl, rfl⟩)))
  | forward a =>
    obtain rfl := Except.ok.inj h
    exact .inr (.inr (.inr (.inr ⟨rfl, ⟨rfl, rfl, rfl⟩, hkeep rfl⟩)))
  | lookup =>
    obtain ⟨out, hout, h⟩ := Run.bind_eq_ok.mp h
    obtain rfl := Except.ok.inj h
    exact .inr (.inr (.inr (.inr ⟨rfl, handleLookup_slots hout, hkeep rfl⟩)))
  | dataRead =>
    obtain ⟨out, hout, h⟩ := Run.bind_eq_ok.mp h
    obtain rfl := Except.ok.inj h
    exact .inr (.inr (.inr (.inr ⟨rfl, handleDataRead_slots hout, hkeep rfl⟩)))
  | deallocate =>
    obtain ⟨out, hout, h⟩ := Run.bind_eq_ok.mp h
    obtain rfl := Except.ok.inj h
    exact .inr (.inr (.inr (.inr ⟨rfl, handleDeallocate_slots hout, hkeep rfl⟩)))
  | mshrRequest =>
    obtain rfl := Except.ok.inj h
    exact .inr (.inr (.inr (.inr ⟨rfl, mshrRequest_slots s.dc, hkeep rfl⟩)))
  | copy i =>
    rcases ha : s.toL2[i]? with _ | a
    · simp only [handle, ha] at h
      obtain rfl := Except.ok.inj h
      exact .inr (.inr (.inr (.inr ⟨rfl, ⟨rfl, rfl, rfl⟩, hkeep rfl⟩)))
    · simp only [handle, ha] at h
      obtain rfl := Except.ok.inj h
      exact .inr (.inr (.inr (.inr ⟨rfl, ⟨rfl, rfl, rfl⟩, hkeep rfl⟩)))
  | tick =>
    obtain rfl := Except.ok.inj h
    refine .inr (.inr (.inr (.inr ⟨rfl, ⟨rfl, rfl, rfl⟩, fun hpost => ?_, fun hport => ?_⟩)))
    · cases hpost
    · cases hport
  | postTick =>
    obtain rfl := Except.ok.inj h
    refine .inr (.inr (.inr (.inr ⟨rfl, ⟨rfl, rfl, rfl⟩, fun _ => .inr ?_, fun hport => ?_⟩)))
    · have hdue : tickDone s.dc = true := hdue
      simp only [tickDone, Bool.and_eq_true, Bool.not_eq_true'] at hdue
      exact hdue.1.1.1.1
    · cases hport

/-- What the arbiter does with the slots. -/
theorem arbitrate_slots {dc dc' : DCacheState p} (h : arbitrateL2LsuReq dc = .ok dc') :
    ∃ req, winner dc = .ok req ∧ slots dc = req :: loses dc ∧ slots dc' = [] ∧
      dc'.evArbitrate = dc.evArbitrate.fire ∧ Pipeline.isValid dc'.pipeline 0 = true := by
  obtain ⟨req, hreq, h⟩ := Run.bind_eq_ok.mp h
  obtain ⟨u, -, h⟩ := Run.bind_eq_ok.mp h
  obtain rfl := Except.ok.inj h
  refine ⟨req, hreq, ?_, rfl, rfl, by simp⟩
  unfold winner at hreq
  rcases hl2 : dc.l2MemAccess with _ | r
  · rcases hlsu : dc.lsuMemAccess with _ | a
    · simp [hl2, hlsu] at hreq
    · simp only [hl2, hlsu] at hreq
      obtain rfl := Except.ok.inj hreq
      simp [slots, loses, hl2, hlsu]
  · simp only [hl2] at hreq
    obtain rfl := Except.ok.inj hreq
    simp [slots, loses, hl2]

theorem Armed.init : Armed ({} : DCacheSystem p) := by
  refine ⟨?_, rfl, fun _ => rfl, ?_⟩
  · simp [slots]
  · intro h
    cases h

/-- When something arrives, the arbitration has not run. -/
theorem Armed.ran_eq_false (A : Armed s)
    (h : s.phase = .portUpdate ∨ Pipeline.isValid s.dc.pipeline 0 = false) :
    s.dc.evArbitrate.ran = false := by
  by_contra hran
  obtain ⟨hport, hzero⟩ := A.ran (by simpa using hran)
  rcases h with h | h
  · exact hport h
  · rw [hzero] at h
    cases h

theorem Armed.step (A : Armed s) (h : s.step p acc op = .ok s') : Armed s' := by
  rcases step_slots h with ⟨i, r, -, -, -, hport, hphase, hdc⟩ | ⟨a, -, -, hzero, hphase, hdc⟩ |
    ⟨-, -, hphase, hdc⟩ | ⟨-, hpost, hphase, hdc⟩ | ⟨-, hsame, hpost, hport⟩
  · have hran := A.ran_eq_false (.inl hport)
    refine ⟨?_, ?_, ?_, ?_⟩
    · rw [hdc]
      simp [slots, receiveRespFromL2Cache, UniqueEvent.scheduleNow_now hran]
    · rw [hdc]
      simpa [receiveRespFromL2Cache] using A.next
    · rw [hphase]
      intro hpost
      cases hpost
    · rw [hdc]
      simp [receiveRespFromL2Cache, hran]
  · have hran := A.ran_eq_false (.inr hzero)
    refine ⟨?_, ?_, ?_, ?_⟩
    · rw [hdc]
      simp [slots, receiveMemReqFromLSU, UniqueEvent.scheduleNow_now hran]
    · rw [hdc]
      simpa [receiveMemReqFromLSU] using A.next
    · rw [hphase]
      intro hpost
      cases hpost
    · rw [hdc]
      simp [receiveMemReqFromLSU, hran]
  · obtain ⟨req, -, -, hempty, hev, hzero⟩ := arbitrate_slots hdc
    refine ⟨?_, ?_, ?_, ?_⟩
    · simp [hempty, hev]
    · rw [hev]
      exact A.next
    · intro _
      rw [hev]
      rfl
    · intro _
      exact ⟨by simp [hphase], hzero⟩
  · have hidle := A.done hpost
    have hempty : slots s.dc = [] := by
      by_contra hne
      rw [A.now.mpr hne] at hidle
      cases hidle
    refine ⟨?_, ?_, ?_, ?_⟩
    · have hsame : slots s'.dc = slots s.dc := by rw [hdc]; rfl
      rw [hsame, hempty, hdc]
      simp [DCache.nextCycle, A.next]
    · rw [hdc]
      rfl
    · rw [hphase]
      intro hpost
      cases hpost
    · rw [hdc]
      intro hran
      cases hran
  · refine ⟨?_, ?_, ?_, ?_⟩
    · rw [hsame.event, hsame.slots]
      exact A.now
    · rw [hsame.event]
      exact A.next
    · intro hpost'
      rw [hsame.event]
      exact (hpost hpost').elim A.done id
    · rw [hsame.event, hsame.pipeline]
      intro hran
      exact ⟨fun h => (A.ran hran).1 (hport h), (A.ran hran).2⟩

theorem Armed.of_reachable (h : Run.Reachable (DCacheSystem.step p acc) {} s) : Armed s :=
  h.invariant .init fun _ _ _ A hstep => A.step hstep

/-- When the arbiter runs a slot is filled. -/
theorem Armed.winner_ok (A : Armed s) (hdue : s.dc.evArbitrate.now = true) :
    ∃ req, winner s.dc = .ok req := by
  have hne := A.now.mp hdue
  unfold winner
  rcases hl2 : s.dc.l2MemAccess with _ | r
  · rcases hlsu : s.dc.lsuMemAccess with _ | a
    · simp [slots, hl2, hlsu] at hne
    · exact ⟨_, rfl⟩
  · exact ⟨_, rfl⟩

/-- What has been passed to the arbiter has been appended or dropped, or is in a slot. -/
def Accounted (x : List ArbiterEvent × DCacheSystem p) : Prop :=
  (x.1.filterMap ArbiterEvent.passed?).Perm
    (x.1.filterMap ArbiterEvent.appended? ++ x.1.filterMap ArbiterEvent.dropped? ++ slots x.2.dc)

theorem Accounted.step {hist hist' : List ArbiterEvent} (H : Accounted (hist, s))
    (h : Run.traced (DCacheSystem.step p acc) arbiterEvents (hist, s) op = .ok (hist', s')) :
    Accounted (hist', s') := by
  obtain ⟨hstep, hhist⟩ := Run.traced_eq_ok.mp h
  dsimp only at hstep hhist
  unfold Accounted at H ⊢
  rw [hhist]
  simp only [List.filterMap_append] at H ⊢
  rw [List.perm_iff_count] at H ⊢
  intro x
  have hold := H x
  rcases step_slots hstep with ⟨i, r, rfl, hr, hfree, -, -, hdc⟩ | ⟨a, rfl, hfree, -, -, hdc⟩ |
    ⟨rfl, -, -, hdc⟩ | ⟨rfl, -, -, hdc⟩ | ⟨hnone, hsame, -⟩
  · simp only [arbiterEvents, hr, hdc, slots, hfree, receiveRespFromL2Cache, eraseEntry] at hold ⊢
    simp only [Option.map_some, Option.map_none, Option.toList_some, Option.toList_none,
      List.filterMap_cons, List.filterMap_nil, ArbiterEvent.passed?, ArbiterEvent.appended?,
      ArbiterEvent.dropped?, List.count_append, List.count_nil] at hold ⊢
    omega
  · simp only [arbiterEvents, hdc, slots, hfree, receiveMemReqFromLSU] at hold ⊢
    simp only [Option.map_some, Option.map_none, Option.toList_some, Option.toList_none,
      List.filterMap_cons, List.filterMap_nil, ArbiterEvent.passed?, ArbiterEvent.appended?,
      ArbiterEvent.dropped?, List.count_append, List.count_nil] at hold ⊢
    omega
  · obtain ⟨req, hwin, hslots, hempty, -⟩ := arbitrate_slots hdc
    have hdropped : ((loses s.dc).map ArbiterEvent.dropped).filterMap ArbiterEvent.dropped? =
        loses s.dc := by
      rw [List.filterMap_map]
      exact List.filterMap_some
    have happended : ((loses s.dc).map ArbiterEvent.dropped).filterMap ArbiterEvent.appended? =
        [] := by
      simp [List.filterMap_map, Function.comp_def, ArbiterEvent.appended?]
    have hpassed : ((loses s.dc).map ArbiterEvent.dropped).filterMap ArbiterEvent.passed? = [] := by
      simp [List.filterMap_map, Function.comp_def, ArbiterEvent.passed?]
    rw [hslots] at hold
    simp only [arbiterEvents, hwin, hempty, Except.toOption, Option.map_some, Option.toList_some,
      List.filterMap_append, hdropped, happended, hpassed, List.filterMap_cons, List.filterMap_nil,
      ArbiterEvent.passed?, ArbiterEvent.appended?, ArbiterEvent.dropped?, List.count_append,
      List.count_cons, List.count_nil] at hold ⊢
    omega
  · have hsame : slots s'.dc = slots s.dc := by rw [hdc]; rfl
    rw [hsame]
    simpa [arbiterEvents] using hold
  · rw [hsame.slots, hnone]
    simpa using hold

end DCacheSystem

/-- In any run, every access passed to `receiveMemReqFromLSU_` and every refill passed to
`receiveRespFromL2Cache_` is appended to the pipeline exactly once, or is still in its slot, if and
only if no arbitration finds both slots filled.  At the end of a cycle the slots are empty, and no
arbitration reads an invalid value. -/
theorem arbiter_loses_nothing_iff (p : DCacheParams) (acc : ℕ → DAccess) {ops : List DCacheOp}
    {hist : List ArbiterEvent} {s : DCacheSystem p}
    (hrun : ops.foldlM (Run.traced (DCacheSystem.step p acc) arbiterEvents) ([], {}) =
      .ok (hist, s)) :
    ((hist.filterMap ArbiterEvent.passed?).Perm
        (hist.filterMap ArbiterEvent.appended? ++ slots s.dc) ↔
      ∀ t, Run.Takes (DCacheSystem.step p acc) {} ops t .arbitrate →
        t.dc.l2MemAccess = none ∨ t.dc.lsuMemAccess = none) ∧
      (s.phase = .postTick → slots s.dc = []) ∧
      ∀ t, Run.Reachable (DCacheSystem.step p acc) {} t →
        t.step p acc .arbitrate ≠ .error (.assertion .invalidValue) := by
  have hinit : Accounted (([] : List ArbiterEvent), ({} : DCacheSystem p)) := List.Perm.refl []
  have hperm : Accounted (hist, s) := by
    refine Run.foldlM_ok_preserves (I := Accounted) ?_ hinit hrun
    rintro op ⟨hist₁, s₁⟩ ⟨hist₂, s₂⟩ H hstep
    exact H.step hstep
  unfold Accounted at hperm
  refine ⟨?_, ?_, ?_⟩
  · have hlost : (hist.filterMap ArbiterEvent.passed?).Perm
        (hist.filterMap ArbiterEvent.appended? ++ slots s.dc) ↔
        hist.filterMap ArbiterEvent.dropped? = [] := by
      constructor
      · intro h
        have hlen := h.length_eq.symm.trans hperm.length_eq
        simp only [List.length_append] at hlen
        apply List.eq_nil_of_length_eq_zero
        omega
      · intro h
        rw [h, List.append_nil] at hperm
        exact hperm
    rw [hlost, List.filterMap_eq_nil_iff]
    constructor
    · intro h t ht
      by_contra hboth
      obtain ⟨hl2, hlsu⟩ := not_or.mp hboth
      obtain ⟨r, hr⟩ := Option.ne_none_iff_exists'.mp hl2
      obtain ⟨a, ha⟩ := Option.ne_none_iff_exists'.mp hlsu
      have hmem : ArbiterEvent.dropped (.lsu a) ∈ hist := by
        refine (Run.mem_traced_iff hrun).mpr ⟨t, .arbitrate, ht, ?_⟩
        simp [arbiterEvents, loses, hr, ha]
      cases h _ hmem
    · intro h ev hev
      obtain ⟨t, op, ht, hobs⟩ := (Run.mem_traced_iff hrun).mp hev
      cases op with
      | arbitrate =>
        have hnone : loses t.dc = [] := by
          rcases h t ht with hslot | hslot <;> simp [loses, hslot]
        rcases List.mem_append.mp hobs with hobs | hobs
        · obtain ⟨req, -, rfl⟩ := Option.map_eq_some_iff.mp (Option.mem_toList.mp hobs)
          rfl
        · rw [hnone] at hobs
          cases hobs
      | refill i =>
        obtain ⟨r, -, rfl⟩ := Option.map_eq_some_iff.mp (Option.mem_toList.mp hobs)
        rfl
      | lsuReq a =>
        obtain rfl := List.mem_singleton.mp hobs
        rfl
      | _ => cases hobs
  · intro hpost
    have A := Armed.of_reachable ⟨ops, Run.foldlM_of_traced hrun⟩
    by_contra hne
    have hidle := A.done hpost
    rw [A.now.mpr hne] at hidle
    cases hidle
  · intro t ht herr
    obtain ⟨hen, herr⟩ := enabled_checked_eq_error herr
    obtain ⟨-, hdue⟩ := of_decide_eq_true hen
    obtain ⟨req, hwin⟩ := (Armed.of_reachable ht).winner_ok hdue
    rcases Run.bind_eq_error.mp herr with herr | ⟨dc, -, herr⟩
    · rcases Run.bind_eq_error.mp herr with herr | ⟨req', -, herr⟩
      · rw [hwin] at herr
        cases herr
      · rcases Run.bind_eq_error.mp herr with herr | ⟨u, -, herr⟩
        · cases (spartaAssert_eq_error.mp herr).2
        · cases herr
    · cases herr

/-- An access arrives in the cycle after that of a refill. -/
def followingOps : List DCacheOp :=
  missedLoad ++ [.refill 0, .tick, .deallocate, .mshrRequest, .arbitrate, .postTick, .nextCycle,
    .tick, .lookup, .mshrRequest, .lsuReq 1, .arbitrate, .postTick]

/-- Both are appended to the pipeline, as the first access was. -/
theorem arbiter_loses_nothing_sample : ∃ hist s,
    followingOps.foldlM (Run.traced (DCacheSystem.step smallDCache sameBlock) arbiterEvents)
        ([], {}) = .ok (hist, s) ∧
      (hist.filterMap ArbiterEvent.passed?).length = 3 ∧
      (hist.filterMap ArbiterEvent.passed?).Perm (hist.filterMap ArbiterEvent.appended?) := by
  have heval : (followingOps.foldlM
      (Run.traced (DCacheSystem.step smallDCache sameBlock) arbiterEvents) ([], {})).toOption.map
      (fun hs => (hs.2.phase, (hs.1.filterMap ArbiterEvent.passed?).length)) =
        some (.postTick, 3) := by
    decide +kernel
  have hall : Run.along (DCacheSystem.step smallDCache sameBlock)
      (fun t op => match op with
        | .arbitrate => decide (t.dc.l2MemAccess = none ∨ t.dc.lsuMemAccess = none)
        | _ => true) {} followingOps = true := by
    decide +kernel
  obtain ⟨⟨hist, s⟩, hs, hval⟩ := Run.ok_of_eval heval
  obtain ⟨hphase, hlen⟩ := Prod.mk.inj hval
  obtain ⟨hiff, hslots, -⟩ := arbiter_loses_nothing_iff smallDCache sameBlock hs
  rw [hslots hphase, List.append_nil] at hiff
  refine ⟨hist, s, hs, hlen, hiff.mpr fun t htakes => ?_⟩
  have htest := htakes.of_along hall
  exact of_decide_eq_true htest

/-- An access arrives in the cycle of a refill. -/
def collidingOps : List DCacheOp :=
  missedLoad ++ [.refill 0, .tick, .deallocate, .mshrRequest, .lsuReq 1, .arbitrate, .postTick]

/-- The access that collides with a refill is not appended. -/
theorem arbiter_loses_access :
    ¬∀ (p : DCacheParams) (acc : ℕ → DAccess) (ops : List DCacheOp) (hist : List ArbiterEvent)
      (s : DCacheSystem p),
      ops.foldlM (Run.traced (DCacheSystem.step p acc) arbiterEvents) ([], {}) = .ok (hist, s) →
      s.phase = .postTick →
      (hist.filterMap ArbiterEvent.passed?).Perm (hist.filterMap ArbiterEvent.appended?) := by
  intro hall
  have heval : (collidingOps.foldlM
      (Run.traced (DCacheSystem.step smallDCache sameBlock) arbiterEvents) ([], {})).toOption.map
      (fun hs => (hs.2.phase, (hs.1.filterMap ArbiterEvent.passed?).length,
        (hs.1.filterMap ArbiterEvent.appended?).length)) = some (.postTick, 3, 2) := by
    decide +kernel
  obtain ⟨⟨hist, s⟩, hs, hval⟩ := Run.ok_of_eval heval
  simp only [Prod.mk.injEq] at hval
  have hlen := (hall _ _ _ hist s hs hval.1).length_eq
  rw [hval.2.1, hval.2.2] at hlen
  cases hlen

end Olympia
