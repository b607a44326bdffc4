import Olympia.Lsu.Invariant

/-!
# The physical addresses in the LSU

Only the answer of the MMU changes the physical address of an instruction, and only a store that
reaches the MMU makes loads ready in bulk.  All other handlers are quiet (`Quiet`), except that a
flush, an arrival and a ready callback have effects of their own.  In a cycle the MMU is asked at
most once, about an instruction without an address (`Addresses`).
-/

namespace Olympia

namespace Lsu

variable {p : LsuParams} {sb : Scoreboards} {q : List RenamedInst} {w w' : LsuWork}
variable {T T' : InstTable} {ri e : RenamedInst}

/-! ## Handlers that leave the addresses alone -/

/-- The addresses and the requests to the MMU stay, and nothing is made ready. -/
structure Settled (w : LsuWork) (T : InstTable) (w' : LsuWork) (T' : InstTable) : Prop where
  address : ∀ k, (w'.info k).phyAddrReady = (w.info k).phyAddrReady ∧
    (w'.info k).mmuState = (w.info k).mmuState
  requests : w'.mmuRequests = w.mmuRequests
  status : ∀ k, T'.status k = T.status k ∨
    T.status k = .scheduled ∧ T'.status k = .completed

theorem address_of_access {i j : LoadStoreInstInfo}
    (h : i.toMemoryAccessInfo = j.toMemoryAccessInfo) :
    i.phyAddrReady = j.phyAddrReady ∧ i.mmuState = j.mmuState :=
  ⟨congrArg MemoryAccessInfo.phyAddrReady h, congrArg MemoryAccessInfo.mmuState h⟩

namespace Settled

theorem refl (w : LsuWork) (T : InstTable) : Settled w T w T :=
  ⟨fun _ => ⟨rfl, rfl⟩, rfl, fun _ => .inl rfl⟩

theorem of_access (haccess : ∀ k, (w'.info k).toMemoryAccessInfo = (w.info k).toMemoryAccessInfo)
    (hrequests : w'.mmuRequests = w.mmuRequests) : Settled w T w' T :=
  ⟨fun k => address_of_access (haccess k), hrequests, fun _ => .inl rfl⟩

theorem modifyInfo (w : LsuWork) (T : InstTable) (k : InstKey)
    {f : LoadStoreInstInfo → LoadStoreInstInfo}
    (hf : ∀ i, (f i).phyAddrReady = i.phyAddrReady ∧ (f i).mmuState = i.mmuState) :
    Settled w T (w.modifyInfo k f) T := by
  refine ⟨fun k' => ?_, rfl, fun _ => .inl rfl⟩
  by_cases hk : k' = k
  · subst hk
    simpa [LsuWork.modifyInfo] using hf (w.info k')
  · simp [LsuWork.modifyInfo, hk]

theorem trans {w₁ : LsuWork} {T₁ : InstTable} (h : Settled w T w₁ T₁) (h' : Settled w₁ T₁ w' T₁) :
    Settled w T w' T₁ :=
  ⟨fun k => ⟨(h'.address k).1.trans (h.address k).1, (h'.address k).2.trans (h.address k).2⟩,
    h'.requests.trans h.requests, h.status⟩

theorem of_same {w₁ : LsuWork} {T₁ : InstTable} (h : Settled w T w₁ T₁) (hinfo : w'.info = w₁.info)
    (hrequests : w'.mmuRequests = w₁.mmuRequests) : Settled w T w' T₁ :=
  ⟨fun k => by rw [hinfo]; exact h.address k, hrequests.trans h.requests, h.status⟩

end Settled

theorem scheduleReplay_settled (w : LsuWork) (T : InstTable) (ri : RenamedInst) :
    Settled w T (scheduleReplay p w ri) T :=
  .of_access scheduleReplay_access scheduleReplay_mmuRequests

theorem bounce_settled {n : ℕ} (h : bounce w n ri = .ok w') : Settled w T w' T := by
  refine .of_access (bounce_access h) ?_
  unfold bounce at h
  dsimp only at h
  split at h
  · obtain ⟨w₁, hw₁, h⟩ := Run.bind_eq_ok.mp h
    obtain rfl := Except.ok.inj h
    show w₁.mmuRequests = _
    rw [(appendToReadyQueue_spec hw₁).rest]
  · obtain rfl := Except.ok.inj h
    rfl

theorem handleCacheLookupReq_settled {storeBuffer : List RenamedInst}
    (h : handleCacheLookupReq p q storeBuffer w T = .ok (w', T')) : Settled w T w' T' := by
  have hleave : ∀ (r : RenamedInst) n, Settled w T (scheduleReplay p ((w.modifyInfo r.key fun i =>
      { i with state := .ready }).invalidateStage n) r) T := by
    intro r n
    have hnote : Settled w T (w.modifyInfo r.key fun i => { i with state := .ready }) T :=
      .modifyInfo w T r.key fun _ => ⟨rfl, rfl⟩
    refine Settled.trans ?_ (scheduleReplay_settled _ T r)
    exact hnote.of_same rfl rfl
  cases handleCacheLookupReq_cases h with
  | idle _ => exact .refl _ _
  | miss _ _ hbounce => exact (scheduleReplay_settled w T _).trans (bounce_settled hbounce)
  | @store ri _ _ _ hst =>
    refine ⟨(hleave ri _).address, (hleave ri _).requests, fun k => ?_⟩
    rw [InstTable.setStatus_status]
    split
    · rename_i hk
      exact .inr ⟨hk ▸ hst, rfl⟩
    · exact .inl rfl
  | wait _ _ _ _ => exact hleave _ _
  | forward _ _ _ _ _ _ => exact .modifyInfo w T _ fun _ => ⟨rfl, rfl⟩
  | bypass _ _ => exact .refl _ _
  | request _ _ _ _ => exact .of_access (fun _ => rfl) rfl

theorem getAckFromCache_settled {n : ℕ} {cacheState : CacheState}
    (h : getAckFromCache q w n cacheState = some w') : Settled w T w' T := by
  obtain ⟨ri, hri, h⟩ := Option.map_eq_some_iff.mp h
  have hfirst : Settled w T (w.modifyInfo ri.key fun i => { i with cacheState := cacheState }) T :=
    .modifyInfo w T ri.key fun _ => ⟨rfl, rfl⟩
  refine hfirst.trans ?_
  dsimp only at h
  rcases Run.of_ite h with rfl | h
  · exact .refl _ _
  · rcases Run.of_ite h with rfl | h
    · exact .refl _ _
    · refine Settled.trans (.modifyInfo _ T ri.key (f := fun i => { i with
        state := if i.state ≠ .issued then .ready else i.state
        priority := .cacheReload }) fun _ => ⟨rfl, rfl⟩) ?_
      rcases Run.of_ite h with rfl | rfl
      · exact .of_access (fun _ => rfl) rfl
      · exact .refl _ _

theorem handleCacheReadyReq_settled {n : ℕ} (h : handleCacheReadyReq q w T n = some (.ok w')) :
    Settled w T w' T := by
  obtain ⟨ri, hri, h⟩ := Option.map_eq_some_iff.mp h
  rcases Run.of_ite h with h | h
  · obtain rfl := Except.ok.inj h
    exact .refl _ _
  · obtain ⟨-, -, h⟩ := Run.bind_eq_ok.mp h
    obtain rfl := Except.ok.inj h
    exact (Settled.modifyInfo w T ri.key (f := fun i => { i with
      state := if i.state ≠ .issued then .ready else i.state
      priority := .cacheReload }) fun _ => ⟨rfl, rfl⟩).of_same rfl rfl

theorem handleCacheRead_settled (h : handleCacheRead p w = .ok w') : Settled w T w' T := by
  unfold handleCacheRead at h
  split at h
  · obtain rfl := Except.ok.inj h
    exact .refl _ _
  · split at h
    · exact (scheduleReplay_settled w T _).trans (bounce_settled h)
    · split at h
      · obtain rfl := Except.ok.inj h
        exact .refl _ _
      · obtain rfl := Except.ok.inj h
        exact .modifyInfo w T _ fun _ => ⟨rfl, rfl⟩

theorem appendReady_settled {n : ℕ} (h : appendReady w n = some (.ok w')) :
    Settled w T w' T := by
  obtain ⟨ri, hri, h⟩ := Option.map_eq_some_iff.mp h
  dsimp only at h
  split at h
  · have E := appendToReadyQueue_spec h
    exact .of_access E.access (by rw [E.rest])
  · obtain rfl := Except.ok.inj h
    exact .of_access (fun _ => rfl) rfl

theorem reloadEntry_settled (w : LsuWork) (T : InstTable) (ri e : RenamedInst) :
    Settled w T (reloadEntry p ri w e) T := by
  have hfirst : Settled w T (if (w.info e.key).mmuState = .miss then
      w.modifyInfo e.key fun i => { i with
        state := if p.allowSpeculativeLoadExec then i.state else .ready
        priority := .mmuPending }
    else w) T := by
    split
    · exact .modifyInfo w T e.key fun _ => ⟨rfl, rfl⟩
    · exact .refl _ _
  unfold reloadEntry
  dsimp only
  split
  · refine (hfirst.trans (.modifyInfo _ T e.key (f := fun i => { i with
      state := if i.state ≠ .issued then .ready else i.state
      priority := .mmuReload }) fun _ => ⟨rfl, rfl⟩)).of_same rfl rfl
  · exact hfirst

theorem handleMMUReadyReq_settled (h : handleMMUReadyReq p q w T = some (.ok w')) :
    Settled w T w' T := by
  obtain ⟨ri, hri, h⟩ := Option.map_eq_some_iff.mp h
  have hloop : Settled w T (q.foldl (reloadEntry p ri) { w with mmuPending := none }) T := by
    refine List.foldlRecOn (motive := fun w₁ => Settled w T w₁ T) q _
      (.of_access (fun _ => rfl) rfl) ?_
    exact fun w₁ h₁ e _ => h₁.trans (reloadEntry_settled w₁ T ri e)
  obtain ⟨-, -, h⟩ := Run.bind_eq_ok.mp h
  rcases Run.of_ite h with h | h
  · obtain rfl := Except.ok.inj h
    exact hloop
  · obtain rfl := Except.ok.inj h
    split
    · exact hloop.trans (.of_access (fun _ => rfl) rfl)
    · exact hloop

/-- Of the handlers of the LSU, only a callback and the two of the MMU do more. -/
theorem workStep_settled {s : LsuState} {op : LsuOp} (hcallback : ∀ n, op ≠ .callback n)
    (hlookup : op ≠ .mmuLookup) (hack : ∀ n hit, op ≠ .mmuAck n hit)
    (h : workStep p s T sb op = .ok (w', T')) : Settled s.work T w' T' := by
  rcases op with i | _ | _ | ⟨i, hit⟩ | _ | _ | ⟨i, cs⟩ | i | _ | i | i
  case callback => exact absurd rfl (hcallback i)
  case advance =>
    obtain ⟨rfl, rfl⟩ := Prod.mk.inj (Except.ok.inj h)
    exact .of_access (fun _ => rfl) rfl
  case mmuLookup => exact absurd rfl hlookup
  case mmuAck => exact absurd rfl (hack i hit)
  case cacheLookup => exact handleCacheLookupReq_settled (checked_eq_ok.mp h)
  all_goals
    obtain ⟨w₁, hw₁, h⟩ := Run.bind_eq_ok.mp h
    obtain ⟨rfl, rfl⟩ := Prod.mk.inj (Except.ok.inj h)
  case mmuReady => exact handleMMUReadyReq_settled (outstanding_eq_ok.mp hw₁)
  case cacheAck =>
    obtain ⟨w₂, hw₂, heq⟩ := Option.map_eq_some_iff.mp (outstanding_eq_ok.mp hw₁)
    obtain rfl := Except.ok.inj heq
    exact getAckFromCache_settled hw₂
  case cacheReady => exact handleCacheReadyReq_settled (outstanding_eq_ok.mp hw₁)
  case cacheRead => exact handleCacheRead_settled (checked_eq_ok.mp hw₁)
  case replayReady =>
    obtain ⟨w₂, hw₂, heq⟩ := Option.map_eq_some_iff.mp (outstanding_eq_ok.mp hw₁)
    obtain rfl := Except.ok.inj heq
    obtain ⟨ri, -, rfl⟩ := Option.map_eq_some_iff.mp hw₂
    exact (Settled.modifyInfo s.work _ ri.key (f := fun i => { i with
      state := if i.state = .notReady then .ready else i.state
      priority := if i.phyAddrReady then .cachePending else .mmuPending }) fun _ =>
        ⟨rfl, rfl⟩).of_same rfl rfl
  case appendReady => exact appendReady_settled (outstanding_eq_ok.mp hw₁)

/-! ## The handlers of the MMU -/

/-- What `readyDependentLoads_` has done: the loads of the queue whose operands are ready wait no
longer. -/
structure Woken (sb : Scoreboards) (q : List RenamedInst) (w : LsuWork) (T : InstTable)
    (w' : LsuWork) (T' : InstTable) : Prop where
  access : ∀ k, (w'.info k).toMemoryAccessInfo = (w.info k).toMemoryAccessInfo
  rest : w' = { w with info := w'.info, readyQueue := w'.readyQueue }
  status : ∀ k, T'.status k = T.status k ∨ T.status k = .dispatched ∧ T'.status k = .scheduled ∧
    ∃ e ∈ q, e.key = k ∧ e.inst.isStore = false ∧ instOperandReady sb e = true
  woken : ∀ e ∈ q, e.inst.isStore = false → instOperandReady sb e = true →
    T'.status e.key ≠ .dispatched

theorem readyDependentLoads_woken (h : readyDependentLoads sb q w T = .ok (w', T')) :
    Woken sb q w T w' T' := by
  -- the loads that are still to come may wait
  have hall := Run.foldlM_ok_induct (f := readyDependentLoad sb q)
    (I := fun l x => (∀ e ∈ l, e ∈ q) ∧
      (∀ k, (x.1.info k).toMemoryAccessInfo = (w.info k).toMemoryAccessInfo) ∧
      x.1 = { w with info := x.1.info, readyQueue := x.1.readyQueue } ∧
      (∀ k, x.2.status k = T.status k ∨ T.status k = .dispatched ∧ x.2.status k = .scheduled ∧
        ∃ e ∈ q, e.key = k ∧ e.inst.isStore = false ∧ instOperandReady sb e = true) ∧
      ∀ e ∈ q, e.inst.isStore = false → instOperandReady sb e = true →
        x.2.status e.key ≠ .dispatched ∨ e ∈ l) ?_
    (l := q) (s := (w, T))
    ⟨fun _ he => he, fun _ => rfl, rfl, fun _ => .inl rfl, fun _ he _ _ => .inr he⟩ h
  · obtain ⟨-, haccess, hrest, hstatus, hwoken⟩ := hall
    refine ⟨haccess, hrest, hstatus, fun e he hload hready => ?_⟩
    rcases hwoken e he hload hready with h | h
    · exact h
    · cases h
  · rintro r l ⟨w₁, T₁⟩ ⟨w₂, T₂⟩ ⟨hl, haccess, hrest, hstatus, hwoken⟩ hone
    have hr := hl r List.mem_cons_self
    refine ⟨fun e he => hl e (List.mem_cons_of_mem _ he), ?_⟩
    unfold readyDependentLoad at hone
    split at hone
    · rename_i hcond
      simp only [Bool.and_eq_true, Bool.not_eq_true', beq_iff_eq] at hcond
      obtain ⟨⟨hload, hst⟩, hready⟩ := hcond
      obtain ⟨-, hen, rfl⟩ := makeReady_spec hone
      refine ⟨fun k => (hen.access k).trans (haccess k), ?_, fun k => ?_, fun e he hl' hr' => ?_⟩
      · show w₂ = _
        rw [hen.rest]
        conv_lhs => rw [hrest]
      · rw [InstTable.setStatus_status]
        split
        · rename_i hk
          subst hk
          refine .inr ⟨?_, rfl, r, hr, rfl, hload, hready⟩
          rcases hstatus r.key with h | ⟨h, -⟩
          · exact h.symm.trans hst
          · exact h
        · exact hstatus k
      · rw [InstTable.setStatus_status]
        split
        · exact .inl (by simp)
        · rename_i hk
          refine (hwoken e he hl' hr').imp id fun hmem => ?_
          rcases List.mem_cons.mp hmem with rfl | hmem
          · exact absurd rfl hk
          · exact hmem
    · rename_i hcond
      obtain ⟨rfl, rfl⟩ := Prod.mk.inj (Except.ok.inj hone)
      refine ⟨haccess, hrest, hstatus, fun e he hload hready => ?_⟩
      rcases hwoken e he hload hready with h | hmem
      · exact .inl h
      · rcases List.mem_cons.mp hmem with rfl | hmem
        · refine .inl fun hst => hcond ?_
          dsimp only at hst
          simp [hload, hready, hst]
        · exact .inr hmem

/-- What `handleMMULookupReq_` can do. -/
inductive MmuLookup (p : LsuParams) (sb : Scoreboards) (q : List RenamedInst) (w : LsuWork)
    (T : InstTable) : LsuWork × InstTable → Prop where
  | idle (h : ∀ ri, w.stages p.mmuLookupStage = some ri → (w.info ri.key).mmuState = .hit) :
    MmuLookup p sb q w T (w, T)
  | store {st : RenamedInst} {w' : LsuWork} {T' : InstTable}
      (hst : w.stages p.mmuLookupStage = some st) (hmiss : (w.info st.key).mmuState ≠ .hit)
      (hstore : st.inst.isStore = true) (hwoken : Woken sb q w T w' T') :
    MmuLookup p sb q w T ({ w' with mmuRequests := w.mmuRequests ++ [st] }, T')
  | load {ri : RenamedInst} (hri : w.stages p.mmuLookupStage = some ri)
      (hmiss : (w.info ri.key).mmuState ≠ .hit) (hload : ri.inst.isStore = false) :
    MmuLookup p sb q w T ({ w with mmuRequests := w.mmuRequests ++ [ri] }, T)

theorem handleMMULookupReq_cases (hspec : p.allowSpeculativeLoadExec = false)
    (h : handleMMULookupReq p sb q w T = .ok (w', T')) : MmuLookup p sb q w T (w', T') := by
  unfold handleMMULookupReq at h
  split at h
  · rename_i hnone
    obtain ⟨rfl, rfl⟩ := Prod.mk.inj (Except.ok.inj h)
    exact .idle fun ri hri => by rw [hnone] at hri; cases hri
  · rename_i ri hri
    split at h
    · rename_i hhit
      obtain ⟨rfl, rfl⟩ := Prod.mk.inj (Except.ok.inj h)
      refine .idle fun ri' hri' => ?_
      obtain rfl := Option.some.inj (hri.symm.trans hri')
      exact hhit
    · rename_i hmiss
      dsimp only at h
      split at h
      · rename_i hcond
        obtain ⟨⟨w₁, T₁⟩, hloads, h⟩ := Run.bind_eq_ok.mp h
        obtain ⟨rfl, rfl⟩ := Prod.mk.inj (Except.ok.inj h)
        have hwoken := readyDependentLoads_woken hloads
        have hrequests : w₁.mmuRequests = w.mmuRequests := by rw [hwoken.rest]
        rw [hrequests]
        exact .store hri hmiss (Bool.and_eq_true_iff.mp hcond).2 hwoken
      · rename_i hcond
        obtain ⟨rfl, rfl⟩ := Prod.mk.inj (Except.ok.inj h)
        exact .load hri hmiss (by simpa [hspec] using hcond)

/-- The answer of the MMU, when loads are not speculative. -/
theorem getAckFromMMU_eq {n : ℕ} {hit : Bool} (hspec : p.allowSpeculativeLoadExec = false)
    (h : getAckFromMMU p w n hit = some (.ok w')) : ∃ ri, w.mmuRequests[n]? = some ri ∧
      w' = LsuWork.modifyInfo { w with
        mmuRequests := w.mmuRequests.eraseIdx n
        mmuPending := if hit then w.mmuPending else w.mmuPending.or (some ri) } ri.key fun i =>
          { i with mmuState := if hit then .hit else .miss, phyAddrReady := hit } := by
  obtain ⟨ri, hri, h⟩ := Option.map_eq_some_iff.mp h
  refine ⟨ri, hri, ?_⟩
  rcases ite_eq_iff.mp h with ⟨hcond, -⟩ | ⟨-, h⟩
  · rw [hspec] at hcond
    simp at hcond
  · exact (Except.ok.inj h).symm

/-- The operands of an instruction are ready, or it has got further. -/
def Started (T : InstTable) (k : InstKey) : Prop :=
  T.status k ≠ .dispatched ∧ T.status k ≠ .flushed

end Lsu

/-! ## Quiet steps -/

open Lsu

namespace LsuSystem

variable {p : LsuParams} {s s' : LsuSystem} {op : LsuSystemOp}

/-- Not an arrival, a flush, a callback, a handler of the MMU, or the end of a cycle. -/
def isQuiet : LsuSystemOp → Bool
  | .dispatch _ _ => false
  | .flush _ => false
  | .work (.callback _) => false
  | .work .mmuLookup => false
  | .work (.mmuAck _ _) => false
  | .nextCycle => false
  | _ => true

/-- What a quiet step keeps.  An instruction leaves the queue only from the last stage, a store only
with its address. -/
structure Quiet (s s' : LsuSystem) : Prop where
  dispatched : s'.dispatched = s.dispatched
  queue : s'.queue.Sublist s.queue
  left : ∀ e ∈ s.queue, e ∈ s'.queue ∨ (∃ n, s.work.stages n = some e) ∧
    (e.inst.isStore = true → (s.work.info e.key).mmuState = .hit)
  address : ∀ k, (s'.work.info k).phyAddrReady = (s.work.info k).phyAddrReady ∧
    (s'.work.info k).mmuState = (s.work.info k).mmuState
  requests : s'.work.mmuRequests = s.work.mmuRequests
  callbacks : s'.work.callbacks = s.work.callbacks
  stages : ∀ n e, s'.work.stages n = some e → s.work.stages n = some e
  status : ∀ k, s'.table.status k = s.table.status k ∨ Started s.table k ∧ Started s'.table k
  done : ∀ ev ∈ s.done, ev ∈ s'.done

/-- No bit that an instruction of the queue reads is cleared. -/
theorem keeps_step (h : s.step p op = .ok s') {e : RenamedInst} (he : e ∈ s.queue) :
    s.sb.Keeps s'.sb e := by
  cases step_stepped h with
  | @setBits f mask =>
    intro f' b _ hb
    by_cases hf : f' = f
    · subst hf
      simp [Scoreboard.setReady, hb]
    · simpa [hf] using hb
  | @clearBits f mask hclear =>
    intro f' b hreads hb
    by_cases hf : f' = f
    · subst hf
      have hnot : b ∉ mask := fun hmask =>
        Finset.disjoint_left.mp (hclear e he) hmask (by simpa using hreads)
      simp [Scoreboard.clearBits, hnot, hb]
    · simpa [hf] using hb
  | complete _ hout _ =>
    cases completeInst_cases hout with
    | idle _ => exact fun _ _ _ => id
    | wait _ _ hsb _ _ => exact Inv.keeps_of_writeback hsb e
    | again _ _ hsb _ => exact Inv.keeps_of_writeback hsb e
    | load _ _ hsb _ _ _ _ => exact Inv.keeps_of_writeback hsb e
    | store _ _ hsb _ _ _ _ => exact Inv.keeps_of_writeback hsb e
  | _ => exact fun _ _ _ => id

/-- Ready operands stay ready. -/
theorem instOperandReady_step (h : s.step p op = .ok s') {e : RenamedInst} (he : e ∈ s.queue)
    (hready : instOperandReady s.sb e = true) : instOperandReady s'.sb e = true :=
  Scoreboard.isSet_iff.mpr fun b hb =>
    keeps_step h he .integer b (.inl hb) (Scoreboard.isSet_iff.mp hready b hb)

theorem quiet_of_complete (H : Inv s) {out : CompleteOut}
    (h : completeInst p s.lsu s.table s.sb = .ok out) {i : Bool} {done : List LsuEvent}
    (hdone : ∀ ev ∈ s.done, ev ∈ done) : Quiet s { s with
      lsu := out.state, table := out.table, sb := out.scoreboards, done := done
      issueNow := i } := by
  obtain ⟨-, hqueue, -⟩ := H.complete h
  have hwork := (completeInst_work h).1
  refine ⟨rfl, hqueue, fun e he => ?_, fun k => ?_, ?_, ?_, fun n e hstage => ?_, fun k => ?_,
    hdone⟩
  · have hpop : ∀ ri : RenamedInst, s.work.stages p.completeStage = some ri →
        (ri.inst.isStore = true → (s.work.info ri.key).mmuState = .hit) →
        e ∈ s.queue.eraseP (fun e => e.key = ri.key) ∨ (∃ n, s.work.stages n = some e) ∧
          (e.inst.isStore = true → (s.work.info e.key).mmuState = .hit) := by
      intro ri hri hmmu
      by_cases hkey : e.key = ri.key
      · have hmem := (H.holding.present ri (.inr (.inr (.inr (.inl ⟨_, hri⟩))))).1
        obtain rfl := eq_of_key H.keys (H.mem_dispatched he) hmem hkey
        exact .inr ⟨⟨_, hri⟩, hmmu⟩
      · exact .inl (Inv.mem_eraseP he hkey)
    show e ∈ out.state.ldstInstQueue ∨ _
    cases completeInst_cases h with
    | idle _ => exact .inl he
    | wait _ _ _ _ _ => exact .inl he
    | again _ _ _ _ =>
      rw [dropReplay_ldstInstQueue]
      exact .inl he
    | load hri _ _ hload _ _ _ =>
      rw [dropReplay_ldstInstQueue]
      refine hpop _ hri fun hstore => ?_
      rw [hload] at hstore
      cases hstore
    | store hri _ _ _ _ hmmu _ =>
      rw [dropReplay_ldstInstQueue]
      exact hpop _ hri fun _ => hmmu
  · show (out.state.work.info k).phyAddrReady = _ ∧ (out.state.work.info k).mmuState = _
    rw [hwork]
    exact ⟨rfl, rfl⟩
  · show out.state.work.mmuRequests = _
    rw [hwork]
    rfl
  · show out.state.work.callbacks = _
    rw [hwork]
    rfl
  · have hstage : out.state.work.stages n = some e := hstage
    rw [hwork] at hstage
    exact hstage
  · cases completeInst_cases h with
    | @load ri sb' hri _ _ _ hret hcompl _ =>
      show InstTable.status _ k = _ ∨ _ ∧ Started (s.table.setStatus ri.key .completed) k
      obtain ⟨-, hne⟩ := H.holding.present ri (.inr (.inr (.inr (.inl ⟨_, hri⟩))))
      by_cases hk : k = ri.key
      · subst hk
        exact .inr ⟨hne, by simp [Started, InstTable.setStatus_status]⟩
      · exact .inl (by simp [InstTable.setStatus_status, hk])
    | _ => exact .inl rfl

theorem quiet_step (H : Inv s) (hquiet : isQuiet op = true) (h : s.step p op = .ok s') :
    Quiet s s' := by
  cases step_stepped h with
  | dispatch _ _ _ _ => cases hquiet
  | flush _ _ _ _ => cases hquiet
  | callback _ _ _ _ => cases hquiet
  | nextCycle _ => cases hquiet
  | complete hcan hout hi =>
    exact quiet_of_complete H hout fun ev hev => List.mem_append_left _ hev
  | @retire n ri hri hphase hstatus =>
    refine ⟨rfl, List.Sublist.refl _, fun e he => .inl he, fun _ => ⟨rfl, rfl⟩, rfl, rfl,
      fun _ _ => id, fun k => ?_, fun _ => id⟩
    show (s.table.setStatus ri.key .retired).status k = _ ∨
      _ ∧ Started (s.table.setStatus ri.key .retired) k
    by_cases hk : k = ri.key
    · subst hk
      exact .inr ⟨by simp [Started, hstatus], by simp [Started, InstTable.setStatus_status]⟩
    · exact .inl (by simp [InstTable.setStatus_status, hk])
  | @robAck ri rest buffer i f hphase hacks hin hf hi =>
    refine ⟨rfl, List.Sublist.refl _, fun e he => .inl he, ?_, rfl, rfl, fun _ _ => id,
      fun _ => .inl rfl, fun _ => id⟩
    exact (Settled.modifyInfo s.work s.table ri.key fun i => (hf i).2).address
  | @mmuReady ri rest w i hphase hreloads hready hi =>
    have hrest := handleMMUReadyReq_rest hready
    refine ⟨rfl, List.Sublist.refl _, fun e he => .inl he,
      (handleMMUReadyReq_settled (T := s.table) hready).address, ?_, ?_, fun n e hstage => ?_,
      fun _ => .inl rfl, fun _ => id⟩
    · exact (handleMMUReadyReq_settled (T := s.table) hready).requests
    · show w.callbacks = _
      rw [hrest]
    · have hstage : w.stages n = some e := hstage
      rw [hrest] at hstage
      exact hstage
  | @issueInst w ri j hcan hnow hissue hj =>
    have I := issueInst_issued hissue
    refine ⟨rfl, List.Sublist.refl _, fun e he => .inl he,
      fun k => address_of_access (I.access k), ?_, ?_, fun n e hstage => ?_, fun _ => .inl rfl,
      fun ev hev => List.mem_append_left _ hev⟩
    · show w.mmuRequests = _
      rw [I.rest]
    · show w.callbacks = _
      rw [I.rest]
    · have hstage : w.stages n = some e := hstage
      rw [I.rest] at hstage
      exact hstage
  | @work op w T i hen hcallback hwork hi =>
    have hsettled : Settled s.work s.table w T := by
      refine workStep_settled hcallback ?_ ?_ hwork
      · rintro rfl
        cases hquiet
      · rintro n hit rfl
        cases hquiet
    have hmoves := H.any_moves hen hcallback hwork
    refine ⟨rfl, List.Sublist.refl _, fun e he => .inl he, hsettled.address, hsettled.requests, ?_,
      fun n e => ?_, fun k => ?_, fun ev hev => List.mem_append_left _ hev⟩
    · exact LsuMove.invariant (I := fun x => x.1.callbacks = s.work.callbacks)
        (fun hx hmove => hmove.callbacks.trans hx) rfl hmoves
    · exact LsuMove.invariant (I := fun x => x.1.stages n = some e → s.work.stages n = some e)
        (fun hx hmove hstage => hx (hmove.stages hstage)) id hmoves
    · refine (hsettled.status k).imp id fun ⟨hst, hst'⟩ => ?_
      exact ⟨by simp [Started, hst], by simp [Started, show T.status k = _ from hst']⟩
  | addressCalculation _ _ =>
    exact ⟨rfl, List.Sublist.refl _, fun e he => .inl he, fun _ => ⟨rfl, rfl⟩, rfl, rfl,
      fun _ _ => id, fun _ => .inl rfl, fun ev hev => List.mem_append_left _ hev⟩
  | _ =>
    exact ⟨rfl, List.Sublist.refl _, fun e he => .inl he, fun _ => ⟨rfl, rfl⟩, rfl, rfl,
      fun _ _ => id, fun _ => .inl rfl, fun _ => id⟩

/-! ## The addresses -/

/-- The check of the operands changes no access. -/
theorem access_of_check {sb : Scoreboards} {q : List RenamedInst} {w : LsuWork} {T : InstTable}
    {ri : RenamedInst} {y : LsuWork × InstTable} (h : OperandCheck p sb q w T ri y)
    (k : InstKey) : (y.1.info k).toMemoryAccessInfo = (w.info k).toMemoryAccessInfo := by
  cases h with
  | ready _ _ _ _ hen => exact hen.access k
  | _ => rfl

/-- An instruction has its address exactly when the TLB has hit, and the MMU works at most on the
request of this cycle. -/
structure Addresses (s : LsuSystem) : Prop where
  hit : ∀ k, (s.work.info k).phyAddrReady = true ↔ (s.work.info k).mmuState = .hit
  requests : s.work.mmuRequests = [] ∨ .mmuLookup ∈ s.done ∧
    ∃ ri, s.work.mmuRequests = [ri] ∧ (s.work.info ri.key).mmuState ≠ .hit

namespace Addresses

theorem init : Addresses {} :=
  ⟨fun _ => ⟨fun h => (by cases h), fun h => (by cases h)⟩, .inl rfl⟩

/-- What the MMU answers is the only request. -/
theorem answered (A : Addresses s) {n : ℕ} {ri : RenamedInst}
    (hri : s.work.mmuRequests[n]? = some ri) : s.work.mmuRequests = [ri] ∧
      s.work.mmuRequests.eraseIdx n = [] ∧ (s.work.info ri.key).phyAddrReady = false := by
  rcases A.requests with h | ⟨-, r, h, hmiss⟩
  · rw [h] at hri
    cases hri
  · rw [h] at hri ⊢
    rcases n with _ | n
    · obtain rfl := Option.some.inj hri
      refine ⟨rfl, rfl, ?_⟩
      rw [Bool.eq_false_iff]
      exact fun hready => hmiss ((A.hit _).mp hready)
    · cases hri

theorem idle (A : Addresses s) (h : s.canRun .mmuLookup = true) : s.work.mmuRequests = [] := by
  rcases A.requests with hnil | ⟨hdone, -⟩
  · exact hnil
  · exact absurd hdone (of_decide_eq_true h).2

theorem of_quiet (A : Addresses s) (h : Quiet s s') : Addresses s' := by
  refine ⟨fun k => by rw [(h.address k).1, (h.address k).2]; exact A.hit k, ?_⟩
  rw [h.requests]
  refine A.requests.imp id fun ⟨hdone, ri, hri, hmiss⟩ => ⟨h.done _ hdone, ri, hri, ?_⟩
  rw [(h.address _).2]
  exact hmiss

theorem of_access (A : Addresses s)
    (haccess : ∀ k, (s'.work.info k).toMemoryAccessInfo = (s.work.info k).toMemoryAccessInfo)
    (hrequests : s'.work.mmuRequests = [] ∨ s'.work.mmuRequests = s.work.mmuRequests ∧
      s'.done = s.done) : Addresses s' := by
  refine ⟨fun k => ?_, ?_⟩
  · obtain ⟨hphy, hmmu⟩ := address_of_access (haccess k)
    rw [hphy, hmmu]
    exact A.hit k
  · refine hrequests.elim .inl fun ⟨hreq, hdone⟩ => ?_
    rw [hreq, hdone]
    refine A.requests.imp id fun ⟨hin, ri, hri, hmiss⟩ => ⟨hin, ri, hri, ?_⟩
    rw [(address_of_access (haccess _)).2]
    exact hmiss

/-- The handler of the MMU stage, when it runs. -/
theorem lookup_cases (hspec : p.allowSpeculativeLoadExec = false)
    (h : s.step p (.work .mmuLookup) = .ok s') : s.canRun .mmuLookup = true ∧
      MmuLookup p s.sb s.queue s.work s.table (s'.work, s'.table) ∧
      s'.queue = s.queue ∧ s'.dispatched = s.dispatched ∧ s'.sb = s.sb ∧
      s'.done = s.done ++ [.mmuLookup] := by
  obtain ⟨u, hen, h⟩ := Run.bind_eq_ok.mp h
  obtain ⟨⟨w, T⟩, hw, h⟩ := Run.bind_eq_ok.mp h
  obtain rfl := Except.ok.inj h
  refine ⟨?_, handleMMULookupReq_cases hspec (checked_eq_ok.mp hw), rfl, rfl, rfl, rfl⟩
  simpa [workEnabled, event, canRun] using hen

/-- The answer of the MMU, when it arrives. -/
theorem ack_cases (hspec : p.allowSpeculativeLoadExec = false) {n : ℕ} {hit : Bool}
    (h : s.step p (.work (.mmuAck n hit)) = .ok s') : ∃ ri, s.work.mmuRequests[n]? = some ri ∧
      s'.work = LsuWork.modifyInfo { s.work with
        mmuRequests := s.work.mmuRequests.eraseIdx n
        mmuPending := if hit then s.work.mmuPending else s.work.mmuPending.or (some ri) } ri.key
          (fun i => { i with mmuState := if hit then .hit else .miss, phyAddrReady := hit }) ∧
      s'.table = s.table ∧ s'.queue = s.queue ∧ s'.dispatched = s.dispatched ∧ s'.sb = s.sb := by
  obtain ⟨-, -, h⟩ := Run.bind_eq_ok.mp h
  obtain ⟨⟨w, T⟩, hw, h⟩ := Run.bind_eq_ok.mp h
  obtain rfl := Except.ok.inj h
  obtain ⟨w₁, hw₁, hw⟩ := Run.bind_eq_ok.mp hw
  obtain ⟨rfl, rfl⟩ := Prod.mk.inj (Except.ok.inj hw)
  obtain ⟨ri, hri, rfl⟩ := getAckFromMMU_eq hspec (outstanding_eq_ok.mp hw₁)
  exact ⟨ri, hri, rfl, rfl, rfl, rfl, rfl⟩

theorem step (hspec : p.allowSpeculativeLoadExec = false) (H : Inv s) (A : Addresses s)
    (h : s.step p op = .ok s') : Addresses s' := by
  by_cases hquiet : isQuiet op = true
  · exact A.of_quiet (quiet_step H hquiet h)
  · by_cases hlookup : op = .work .mmuLookup
    · subst hlookup
      obtain ⟨hcan, hcases, -, -, -, hdone⟩ := lookup_cases hspec h
      have hidle := A.idle hcan
      generalize hy : (s'.work, s'.table) = y at hcases
      cases hcases with
      | idle _ =>
        obtain ⟨hw, -⟩ := Prod.mk.inj hy
        exact A.of_access (fun k => by rw [hw]) (.inl (by rw [hw]; exact hidle))
      | @store st w' T' hst hmiss hstore hwoken =>
        obtain ⟨hw, -⟩ := Prod.mk.inj hy
        refine ⟨fun k => ?_, .inr ⟨by simp [hdone], st, ?_, ?_⟩⟩
        · rw [hw]
          obtain ⟨hphy, hmmu⟩ := address_of_access (hwoken.access k)
          show (w'.info k).phyAddrReady = true ↔ (w'.info k).mmuState = .hit
          rw [hphy, hmmu]
          exact A.hit k
        · rw [hw, hidle]
          rfl
        · rw [hw]
          exact (address_of_access (hwoken.access st.key)).2 ▸ hmiss
      | @load ri hri hmiss hload =>
        obtain ⟨hw, -⟩ := Prod.mk.inj hy
        refine ⟨fun k => by rw [hw]; exact A.hit k, .inr ⟨by simp [hdone], ri, ?_, ?_⟩⟩
        · rw [hw, hidle]
          rfl
        · rw [hw]
          exact hmiss
    · by_cases hack : ∃ n hit, op = .work (.mmuAck n hit)
      · obtain ⟨n, hit, rfl⟩ := hack
        obtain ⟨ri, hri, hw, -⟩ := ack_cases hspec h
        obtain ⟨-, hnil, -⟩ := A.answered hri
        refine ⟨fun k => ?_, .inl (by rw [hw]; exact hnil)⟩
        rw [hw]
        by_cases hk : k = ri.key
        · subst hk
          cases hit <;> simp [LsuWork.modifyInfo]
        · simpa [LsuWork.modifyInfo, hk] using A.hit k
      · cases step_stepped h with
        | @dispatch ri stale i w T hphase hnext hcheck hi =>
          have haccess := access_of_check hcheck
          have hrest := hcheck.rest
          dsimp only at haccess hrest
          refine ⟨fun k => ?_, .inl ?_⟩
          · obtain ⟨hphy, hmmu⟩ := address_of_access (haccess k)
            show (w.info k).phyAddrReady = true ↔ (w.info k).mmuState = .hit
            rw [hphy, hmmu]
            by_cases hk : k = ri.key
            · subst hk
              simp [LsuWork.modifyInfo]
            · simpa [LsuWork.modifyInfo, hk] using A.hit k
          · show w.mmuRequests = _
            rw [hrest]
            exact (H.between hphase).2.1
        | flush hphase _ _ _ =>
          exact A.of_access (fun _ => rfl) (.inl (H.between hphase).2.1)
        | @callback n cb w T i hcb hdue hcheck hi =>
          have hrest := hcheck.rest
          dsimp only at hrest
          refine A.of_access (fun k => access_of_check hcheck k) (.inr ⟨?_, rfl⟩)
          show w.mmuRequests = _
          rw [hrest]
        | nextCycle hover =>
          refine A.of_access (fun _ => rfl) (.inl ?_)
          simp only [cycleOver, Bool.and_eq_true, List.isEmpty_iff] at hover
          exact hover.1.1.1.2
        | @work op w T i hen hcallback hwork hi =>
          cases op with
          | callback n => exact absurd rfl (hcallback n)
          | mmuLookup => exact absurd rfl hlookup
          | mmuAck n hit => exact absurd ⟨n, hit, rfl⟩ hack
          | _ => exact absurd rfl hquiet
        | _ => exact absurd rfl hquiet

end Addresses

end LsuSystem

end Olympia
