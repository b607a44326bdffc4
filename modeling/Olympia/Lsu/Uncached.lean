import Olympia.Lsu.Invariant

/-!
# Stores that have not been to the cache

The LSU asks the cache about a store only once it has retired.  Before that, `handleCacheRead_`
takes the store out of the pipeline whenever it comes there, so no stage beyond
`cache_read_stage_` holds it (`Uncached`).  Most handlers are steady: they put nothing into the
pipeline and leave the states of the cache accesses alone (`Steady`).
-/

namespace Olympia

namespace Lsu

variable {p : LsuParams} {sb : Scoreboards} {q : List RenamedInst} {w w' : LsuWork}
variable {T T' : InstTable} {ri e : RenamedInst} {k : InstKey}

/-! ## Steady handlers -/

/-- Stages are only emptied, and neither the requests to the cache nor its answers change. -/
structure Steady (w w' : LsuWork) : Prop where
  stages : ∀ n e, w'.stages n = some e → w.stages n = some e
  requests : w'.cacheRequests = w.cacheRequests
  cacheState : ∀ k, (w'.info k).cacheState = (w.info k).cacheState

namespace Steady

theorem refl (w : LsuWork) : Steady w w := ⟨fun _ _ h => h, rfl, fun _ => rfl⟩

theorem trans {w₁ : LsuWork} (h : Steady w w₁) (h' : Steady w₁ w') : Steady w w' where
  stages n e he := h.stages n e (h'.stages n e he)
  requests := h'.requests.trans h.requests
  cacheState k := (h'.cacheState k).trans (h.cacheState k)

/-- A change elsewhere. -/
theorem of_same (hstages : w'.stages = w.stages) (hrequests : w'.cacheRequests = w.cacheRequests)
    (hinfo : ∀ k, (w'.info k).toMemoryAccessInfo = (w.info k).toMemoryAccessInfo) :
    Steady w w' where
  stages n e he := by rwa [hstages] at he
  requests := hrequests
  cacheState k := congrArg MemoryAccessInfo.cacheState (hinfo k)

theorem modifyInfo (w : LsuWork) (k : InstKey) {f : LoadStoreInstInfo → LoadStoreInstInfo}
    (hf : (f (w.info k)).cacheState = (w.info k).cacheState) : Steady w (w.modifyInfo k f) := by
  refine ⟨fun _ _ h => h, rfl, fun k' => ?_⟩
  by_cases hk : k' = k
  · subst hk
    simpa [LsuWork.modifyInfo] using hf
  · simp [LsuWork.modifyInfo, hk]

theorem invalidateStage (w : LsuWork) (n : ℕ) : Steady w (w.invalidateStage n) where
  stages _ _ he := (LsuWork.stages_of_invalidateStage he).1
  requests := rfl
  cacheState _ := rfl

theorem removeFromReplay (w : LsuWork) (ri : RenamedInst) : Steady w (w.removeFromReplay ri) :=
  .of_same rfl rfl fun _ => rfl

theorem of_enqueued (E : Enqueued w ri w') : Steady w w' :=
  .of_same (by rw [E.rest]) (by rw [E.rest]) E.access

end Steady

theorem scheduleReplay_steady (w : LsuWork) (ri : RenamedInst) :
    Steady w (scheduleReplay p w ri) := by
  refine .of_same scheduleReplay_stages ?_ scheduleReplay_access
  unfold scheduleReplay
  split
  · rfl
  · rfl

/-- What bounces from a stage leaves it empty. -/
theorem bounce_steady {n : ℕ} (h : bounce w n ri = .ok w') : Steady w w' ∧ w'.stages n = none := by
  unfold bounce at h
  dsimp only at h
  split at h
  · obtain ⟨w₁, hw₁, h⟩ := Run.bind_eq_ok.mp h
    obtain rfl := Except.ok.inj h
    refine ⟨(Steady.of_enqueued (appendToReadyQueue_spec hw₁)).trans (.invalidateStage _ n), ?_⟩
    simp [LsuWork.invalidateStage]
  · obtain rfl := Except.ok.inj h
    exact ⟨.invalidateStage _ n, by simp [LsuWork.invalidateStage]⟩

theorem OperandCheck.steady {y : LsuWork × InstTable} (h : OperandCheck p sb q w T ri y) :
    Steady w y.1 := by
  cases h with
  | scheduled _ => exact .refl w
  | address _ _ => exact .of_same rfl rfl fun _ => rfl
  | data _ _ _ => exact .of_same rfl rfl fun _ => rfl
  | ready _ _ _ _ hen => exact .of_enqueued hen
  | blocked _ _ _ _ _ => exact .refl w

theorem readyCallback_steady {n : ℕ} (h : readyCallback p sb q w T n = some (.ok (w', T'))) :
    Steady w w' := by
  unfold readyCallback at h
  split at h
  · cases h
  · split at h
    · have hfired : Steady w { w with callbacks := w.callbacks.eraseIdx n } :=
        .of_same rfl rfl fun _ => rfl
      exact hfired.trans (handleOperandIssueCheck_cases (Option.some.inj h)).steady
    · cases h

theorem issueInst_steady (h : Lsu.issueInst p w = .ok (w', ri)) : Steady w w' := by
  have I := issueInst_issued h
  exact .of_same (by rw [I.rest]) (by rw [I.rest]) I.access

theorem getAckFromROB_steady {s s' : LsuState} (h : getAckFromROB s T ri = .ok s') :
    Steady s.work s'.work := by
  obtain ⟨-, -, h⟩ := Run.bind_eq_ok.mp h
  obtain ⟨-, -, h⟩ := Run.bind_eq_ok.mp h
  obtain ⟨-, -, h⟩ := Run.bind_eq_ok.mp h
  obtain rfl := Except.ok.inj h
  refine Steady.trans (.modifyInfo s.work ri.key (f := fun i => { i with
    state := if i.state ≠ .issued then .ready else i.state
    priority := .cachePending }) rfl) (.of_same rfl rfl fun _ => rfl)

theorem completeInst_steady {s : LsuState} {out : CompleteOut}
    (h : completeInst p s T sb = .ok out) : Steady s.work out.state.work := by
  obtain ⟨hwork, -⟩ := completeInst_work h
  refine .of_same ?_ ?_ fun _ => ?_
  · rw [hwork]
  · rw [hwork]
  · rw [hwork]

/-! ### The two queues -/

theorem getInstsFromDispatch_spec {s s' : LsuState}
    (h : getInstsFromDispatch p sb s T ri = .ok (s', T')) :
    s'.ldstInstQueue = s.ldstInstQueue ++ [ri] ∧
      s'.storeBuffer = (if ri.inst.isStore then s.storeBuffer ++ [ri] else s.storeBuffer) ∧
      Steady (s.work.modifyInfo ri.key fun _ => {}) s'.work := by
  obtain ⟨-, -, h⟩ := Run.bind_eq_ok.mp h
  obtain ⟨-, -, h⟩ := Run.bind_eq_ok.mp h
  obtain ⟨⟨w, T₁⟩, hcheck, h⟩ := Run.bind_eq_ok.mp h
  obtain ⟨rfl, rfl⟩ := Prod.mk.inj (Except.ok.inj h)
  exact ⟨rfl, rfl, (handleOperandIssueCheck_cases hcheck).steady⟩

theorem getAckFromROB_spec {s s' : LsuState} (h : getAckFromROB s T ri = .ok s') :
    s'.ldstInstQueue = s.ldstInstQueue ∧
      s'.storeBuffer = (if ri.inst.isStore then s.storeBuffer.tail else s.storeBuffer) := by
  obtain ⟨-, -, h⟩ := Run.bind_eq_ok.mp h
  obtain ⟨-, -, h⟩ := Run.bind_eq_ok.mp h
  obtain ⟨-, -, h⟩ := Run.bind_eq_ok.mp h
  obtain rfl := Except.ok.inj h
  exact ⟨rfl, rfl⟩

/-- Only the instruction of the last stage can leave the queue. -/
theorem completeInst_queue {s : LsuState} {out : CompleteOut}
    (h : completeInst p s T sb = .ok out) :
    out.state.storeBuffer = s.storeBuffer ∧
      (out.state.ldstInstQueue = s.ldstInstQueue ∨
        ∃ ri, s.work.stages p.completeStage = some ri ∧
          out.state.ldstInstQueue = s.ldstInstQueue.eraseP fun e => e.key = ri.key) := by
  have hdrop : ∀ (s : LsuState) ri, (dropReplay p s ri).storeBuffer = s.storeBuffer := by
    intro s ri
    unfold dropReplay
    split
    · rfl
    · rfl
  cases completeInst_cases h with
  | idle _ => exact ⟨rfl, .inl rfl⟩
  | wait _ _ _ _ _ => exact ⟨rfl, .inl rfl⟩
  | again _ _ _ _ => exact ⟨hdrop _ _, .inl (dropReplay_ldstInstQueue _)⟩
  | load hri _ _ _ _ _ _ => exact ⟨hdrop _ _, .inr ⟨_, hri, dropReplay_ldstInstQueue _⟩⟩
  | store hri _ _ _ _ _ _ => exact ⟨hdrop _ _, .inr ⟨_, hri, dropReplay_ldstInstQueue _⟩⟩

/-! ### The MMU -/

theorem readyDependentLoads_steady (h : readyDependentLoads sb q w T = .ok (w', T')) :
    Steady w w' := by
  refine Run.foldlM_ok_induct (f := readyDependentLoad sb q) (I := fun _ st => Steady w st.1) ?_
    (.refl w) h
  rintro e l ⟨w₁, T₁⟩ ⟨w₂, T₂⟩ h₁ hone
  unfold readyDependentLoad at hone
  split at hone
  · exact h₁.trans (.of_enqueued (makeReady_spec hone).2.1)
  · obtain ⟨rfl, rfl⟩ := Prod.mk.inj (Except.ok.inj hone)
    exact h₁

theorem handleMMULookupReq_steady (h : handleMMULookupReq p sb q w T = .ok (w', T')) :
    Steady w w' := by
  unfold handleMMULookupReq at h
  split at h
  · obtain ⟨rfl, rfl⟩ := Prod.mk.inj (Except.ok.inj h)
    exact .refl w
  · split at h
    · obtain ⟨rfl, rfl⟩ := Prod.mk.inj (Except.ok.inj h)
      exact .refl w
    · dsimp only at h
      split at h
      · obtain ⟨⟨w₁, T₁⟩, hloads, h⟩ := Run.bind_eq_ok.mp h
        obtain ⟨rfl, rfl⟩ := Prod.mk.inj (Except.ok.inj h)
        exact (readyDependentLoads_steady hloads).trans (.of_same rfl rfl fun _ => rfl)
      · obtain ⟨rfl, rfl⟩ := Prod.mk.inj (Except.ok.inj h)
        exact .of_same rfl rfl fun _ => rfl

theorem dropInstFromPipeline_steady (w : LsuWork) (ri : RenamedInst) :
    Steady w (dropInstFromPipeline p w ri) := by
  unfold dropInstFromPipeline
  split
  · exact .invalidateStage w _
  · exact .refl w

theorem abortYoungerLoads_steady (h : abortYoungerLoads p w ri = .ok w') : Steady w w' := by
  unfold abortYoungerLoads at h
  split at h
  · obtain rfl := Except.ok.inj h
    exact .refl w
  · refine Run.foldlM_ok_induct (f := abortLoad p) (I := fun _ w₁ => Steady w w₁) ?_ (.refl w) h
    intro e l w₁ w₂ h₁ hone
    obtain ⟨w₃, hw₃, hone⟩ := Run.bind_eq_ok.mp hone
    obtain rfl := Except.ok.inj hone
    have henq : Steady w₁ w₃ := Steady.trans
      (.modifyInfo w₁ e.key (f := fun i => { i with state := .ready }) rfl)
      (.of_enqueued (appendToReadyQueue_spec hw₃))
    exact (h₁.trans henq).trans
      ((dropInstFromPipeline_steady w₃ e).trans (.removeFromReplay _ e))

theorem getAckFromMMU_steady {n : ℕ} {hit : Bool} (h : getAckFromMMU p w n hit = some (.ok w')) :
    Steady w w' := by
  obtain ⟨ri, hri, h⟩ := Option.map_eq_some_iff.mp h
  have hnote : ∀ w₁ : LsuWork, Steady w₁ (w₁.modifyInfo ri.key fun i => { i with
      mmuState := if hit then .hit else .miss
      phyAddrReady := hit }) := fun w₁ => .modifyInfo w₁ ri.key rfl
  have hfirst : Steady w { w with
      mmuRequests := w.mmuRequests.eraseIdx n
      mmuPending := if hit then w.mmuPending else w.mmuPending.or (some ri) } :=
    .of_same rfl rfl fun _ => rfl
  rcases Run.of_ite h with h | h
  · exact (hfirst.trans (hnote _)).trans (abortYoungerLoads_steady h)
  · obtain rfl := Except.ok.inj h
    exact hfirst.trans (hnote _)

theorem reloadEntry_steady (w : LsuWork) (ri e : RenamedInst) :
    Steady w (reloadEntry p ri w e) := by
  have hfirst : Steady w (if (w.info e.key).mmuState = .miss then
      w.modifyInfo e.key fun i => { i with
        state := if p.allowSpeculativeLoadExec then i.state else .ready
        priority := .mmuPending }
    else w) := by
    split
    · exact .modifyInfo w e.key rfl
    · exact .refl w
  unfold reloadEntry
  dsimp only
  split
  · refine (hfirst.trans (.modifyInfo _ e.key (f := fun i => { i with
      state := if i.state ≠ .issued then .ready else i.state
      priority := .mmuReload }) rfl)).trans (.of_same rfl rfl fun _ => rfl)
  · exact hfirst

theorem handleMMUReadyReq_steady (h : handleMMUReadyReq p q w T = some (.ok w')) :
    Steady w w' := by
  obtain ⟨ri, hri, h⟩ := Option.map_eq_some_iff.mp h
  have hloop : Steady w (q.foldl (reloadEntry p ri) { w with mmuPending := none }) := by
    refine List.foldlRecOn (motive := fun w₁ => Steady w w₁) q _ (.of_same rfl rfl fun _ => rfl) ?_
    exact fun w₁ h₁ e _ => h₁.trans (reloadEntry_steady w₁ ri e)
  obtain ⟨-, -, h⟩ := Run.bind_eq_ok.mp h
  rcases Run.of_ite h with h | h
  · obtain rfl := Except.ok.inj h
    exact hloop
  · obtain rfl := Except.ok.inj h
    split
    · exact hloop.trans (.removeFromReplay _ ri)
    · exact hloop

/-! ### The cache -/

theorem handleCacheReadyReq_steady {n : ℕ} (h : handleCacheReadyReq q w T n = some (.ok w')) :
    Steady w w' := by
  obtain ⟨ri, hri, h⟩ := Option.map_eq_some_iff.mp h
  rcases Run.of_ite h with h | h
  · obtain rfl := Except.ok.inj h
    exact .refl w
  · obtain ⟨-, -, h⟩ := Run.bind_eq_ok.mp h
    obtain rfl := Except.ok.inj h
    exact (Steady.modifyInfo w ri.key (f := fun i => { i with
      state := if i.state ≠ .issued then .ready else i.state
      priority := .cacheReload }) rfl).trans (.of_same rfl rfl fun _ => rfl)

theorem handleCacheRead_steady (h : handleCacheRead p w = .ok w') : Steady w w' := by
  unfold handleCacheRead at h
  split at h
  · obtain rfl := Except.ok.inj h
    exact .refl w
  · split at h
    · exact (scheduleReplay_steady w _).trans (bounce_steady h).1
    · split at h
      · obtain rfl := Except.ok.inj h
        exact .refl w
      · obtain rfl := Except.ok.inj h
        exact .modifyInfo w _ rfl

theorem replayReady_steady {n : ℕ} (h : replayReady w n = some w') : Steady w w' := by
  obtain ⟨ri, hri, rfl⟩ := Option.map_eq_some_iff.mp h
  have hfirst : Steady w { w with replayReady := w.replayReady.eraseIdx n } :=
    .of_same rfl rfl fun _ => rfl
  refine (hfirst.trans (.modifyInfo _ ri.key (f := fun i => { i with
    state := if i.state = .notReady then .ready else i.state
    priority := if i.phyAddrReady then .cachePending else .mmuPending }) rfl)).trans
      (.of_same rfl rfl fun _ => rfl)

theorem appendReady_steady {n : ℕ} (h : appendReady w n = some (.ok w')) : Steady w w' := by
  obtain ⟨ri, hri, h⟩ := Option.map_eq_some_iff.mp h
  have hfirst : Steady w { w with appendReady := w.appendReady.eraseIdx n } :=
    .of_same rfl rfl fun _ => rfl
  dsimp only at h
  split at h
  · exact hfirst.trans (.of_enqueued (appendToReadyQueue_spec h))
  · obtain rfl := Except.ok.inj h
    exact hfirst

/-- The answer of the cache changes the state of an access the cache was asked for. -/
theorem getAckFromCache_spec {n : ℕ} {cacheState : CacheState}
    (h : getAckFromCache q w n cacheState = some w') :
    w'.stages = w.stages ∧ w'.cacheRequests = w.cacheRequests ∧
      ∀ k, (∀ e ∈ w.cacheRequests, e.key ≠ k) → (w'.info k).cacheState = (w.info k).cacheState := by
  obtain ⟨ri, hri, h⟩ := Option.map_eq_some_iff.mp h
  have hset : ∀ k, (∀ e ∈ w.cacheRequests, e.key ≠ k) → ((w.modifyInfo ri.key fun i =>
      { i with cacheState := cacheState }).info k).cacheState = (w.info k).cacheState := by
    intro k hk
    have hne : k ≠ ri.key := fun heq => hk ri (List.mem_of_getElem? hri) heq.symm
    simp [LsuWork.modifyInfo, hne]
  have hprio : Steady (w.modifyInfo ri.key fun i => { i with cacheState := cacheState })
      ((w.modifyInfo ri.key fun i => { i with cacheState := cacheState }).modifyInfo ri.key
        fun i => { i with
          state := if i.state ≠ .issued then .ready else i.state
          priority := .cacheReload }) := .modifyInfo _ ri.key rfl
  dsimp only at h
  rcases Run.of_ite h with rfl | h
  · exact ⟨rfl, rfl, hset⟩
  · rcases Run.of_ite h with rfl | h
    · exact ⟨rfl, rfl, hset⟩
    · rcases Run.of_ite h with rfl | rfl
      · exact ⟨rfl, rfl, fun k hk => (hprio.cacheState k).trans (hset k hk)⟩
      · exact ⟨rfl, rfl, fun k hk => (hprio.cacheState k).trans (hset k hk)⟩

/-- Of the handlers of the LSU, only the move of the pipeline, the lookup and the answer of the
cache are not steady. -/
theorem workStep_steady {s : LsuState} {op : LsuOp} (hadvance : op ≠ .advance)
    (hlookup : op ≠ .cacheLookup) (hack : ∀ n cs, op ≠ .cacheAck n cs)
    (h : workStep p s T sb op = .ok (w', T')) : Steady s.work w' := by
  rcases op with i | _ | _ | ⟨i, hit⟩ | _ | _ | ⟨i, cs⟩ | i | _ | i | i
  case callback => exact readyCallback_steady (outstanding_eq_ok.mp h)
  case advance => exact absurd rfl hadvance
  case mmuLookup => exact handleMMULookupReq_steady (checked_eq_ok.mp h)
  case cacheLookup => exact absurd rfl hlookup
  case cacheAck => exact absurd rfl (hack i cs)
  all_goals
    obtain ⟨w₁, hw₁, h⟩ := Run.bind_eq_ok.mp h
    obtain ⟨rfl, rfl⟩ := Prod.mk.inj (Except.ok.inj h)
  case mmuAck => exact getAckFromMMU_steady (outstanding_eq_ok.mp hw₁)
  case mmuReady => exact handleMMUReadyReq_steady (outstanding_eq_ok.mp hw₁)
  case cacheReady => exact handleCacheReadyReq_steady (outstanding_eq_ok.mp hw₁)
  case cacheRead => exact handleCacheRead_steady (checked_eq_ok.mp hw₁)
  case replayReady =>
    obtain ⟨w₂, hw₂, heq⟩ := Option.map_eq_some_iff.mp (outstanding_eq_ok.mp hw₁)
    obtain rfl := Except.ok.inj heq
    exact replayReady_steady hw₂
  case appendReady => exact appendReady_steady (outstanding_eq_ok.mp hw₁)

/-! ## The lookup and the answer -/

/-- Handlers other than the move of the pipeline only empty stages. -/
theorem workStep_stages {s : LsuState} {op : LsuOp} (hadvance : op ≠ .advance)
    (h : workStep p s T sb op = .ok (w', T')) {n : ℕ} (he : w'.stages n = some e) :
    s.work.stages n = some e := by
  by_cases hlookup : op = .cacheLookup
  · subst hlookup
    have hleave : ∀ (r : RenamedInst) {w₁ : LsuWork},
        w₁ = scheduleReplay p ((s.work.modifyInfo r.key
          fun i => { i with state := .ready }).invalidateStage p.cacheLookupStage) r →
        w₁.stages n = some e → s.work.stages n = some e := by
      rintro r w₁ rfl he
      exact (LsuWork.stages_of_invalidateStage ((scheduleReplay_steady _ r).stages n e he)).1
    cases handleCacheLookupReq_cases (checked_eq_ok.mp h) with
    | idle _ => exact he
    | miss _ _ hbounce =>
      exact ((scheduleReplay_steady _ _).trans (bounce_steady hbounce).1).stages n e he
    | store _ _ _ _ => exact hleave _ rfl he
    | wait _ _ _ _ => exact hleave _ rfl he
    | forward _ _ _ _ _ _ => exact he
    | bypass _ _ => exact he
    | request _ _ _ _ => exact he
  · by_cases hack : ∃ i cs, op = .cacheAck i cs
    · obtain ⟨i, cs, rfl⟩ := hack
      obtain ⟨w₁, hw₁, h⟩ := Run.bind_eq_ok.mp h
      obtain ⟨rfl, rfl⟩ := Prod.mk.inj (Except.ok.inj h)
      obtain ⟨w₂, hw₂, heq⟩ := Option.map_eq_some_iff.mp (outstanding_eq_ok.mp hw₁)
      obtain rfl := Except.ok.inj heq
      rwa [(getAckFromCache_spec hw₂).1] at he
    · exact (workStep_steady hadvance hlookup (fun i cs hop => hack ⟨i, cs, hop⟩) h).stages n e he

/-! ## Before the cache -/

/-- No stage from `n` on holds the instruction. -/
def Before (w : LsuWork) (n : ℕ) (k : InstKey) : Prop :=
  ∀ m, n ≤ m → ∀ e, w.stages m = some e → e.key ≠ k

theorem Before.mono {n : ℕ} (h : Before w n k)
    (hstages : ∀ m e, w'.stages m = some e → w.stages m = some e) : Before w' n k :=
  fun m hm e he => h m hm e (hstages m e he)

/-- The cache has not been asked about the instruction, and no stage beyond `cache_read_stage_`
holds it. -/
structure Uncached (p : LsuParams) (w : LsuWork) (k : InstKey) : Prop where
  state : (w.info k).cacheState ≠ .hit
  requests : ∀ e ∈ w.cacheRequests, e.key ≠ k
  before : Before w (p.cacheReadStage + 1) k

namespace Uncached

theorem steady (H : Uncached p w k) (S : Steady w w') : Uncached p w' k where
  state := by
    rw [S.cacheState]
    exact H.state
  requests := by
    rw [S.requests]
    exact H.requests
  before := H.before.mono S.stages

/-- The cache is not asked about a store before it has retired. -/
theorem workStep {s : LsuState} {op : LsuOp} (H : Uncached p s.work k) (hadvance : op ≠ .advance)
    (hstore : ∀ e, s.work.stages p.cacheLookupStage = some e → e.key = k →
      e.inst.isStore = true ∧ T.status k ≠ .retired)
    (h : workStep p s T sb op = .ok (w', T')) : Uncached p w' k := by
  have hbefore := H.before.mono fun _ _ => workStep_stages hadvance h
  by_cases hlookup : op = .cacheLookup
  · subst hlookup
    have hleave : ∀ r : RenamedInst, Uncached p (scheduleReplay p ((s.work.modifyInfo r.key
        fun i => { i with state := .ready }).invalidateStage p.cacheLookupStage) r) k := by
      intro r
      have hnote : Steady s.work (s.work.modifyInfo r.key fun i => { i with state := .ready }) :=
        .modifyInfo s.work r.key rfl
      exact H.steady ((hnote.trans (.invalidateStage _ _)).trans (scheduleReplay_steady _ r))
    cases handleCacheLookupReq_cases (checked_eq_ok.mp h) with
    | idle _ => exact H
    | miss _ _ hbounce =>
      exact H.steady ((scheduleReplay_steady _ _).trans (bounce_steady hbounce).1)
    | store _ _ _ _ => exact hleave _
    | wait _ _ _ _ => exact hleave _
    | @forward ri hri _ hload _ _ _ =>
      refine ⟨?_, H.requests, hbefore⟩
      have hne : k ≠ ri.key := by
        intro heq
        obtain ⟨hst, -⟩ := hstore ri hri heq.symm
        rw [hload] at hst
        cases hst
      simpa [LsuWork.modifyInfo, hne] using H.state
    | bypass _ _ => exact H
    | @request ri hri _ _ hretired =>
      refine ⟨H.state, fun e he heq => ?_, hbefore⟩
      rcases List.mem_append.mp he with he | he
      · exact H.requests e he heq
      · obtain rfl := List.mem_singleton.mp he
        obtain ⟨hst, hnot⟩ := hstore e hri heq
        exact hnot (heq ▸ hretired hst)
  · by_cases hack : ∃ i cs, op = .cacheAck i cs
    · obtain ⟨i, cs, rfl⟩ := hack
      obtain ⟨w₁, hw₁, h⟩ := Run.bind_eq_ok.mp h
      obtain ⟨rfl, rfl⟩ := Prod.mk.inj (Except.ok.inj h)
      obtain ⟨w₂, hw₂, heq⟩ := Option.map_eq_some_iff.mp (outstanding_eq_ok.mp hw₁)
      obtain rfl := Except.ok.inj heq
      obtain ⟨-, hrequests, hstate⟩ := getAckFromCache_spec hw₂
      refine ⟨?_, ?_, hbefore⟩
      · rw [hstate k H.requests]
        exact H.state
      · rw [hrequests]
        exact H.requests
    · exact H.steady (workStep_steady hadvance hlookup (fun i cs hop => hack ⟨i, cs, hop⟩) h)

/-- The object of an instruction is new. -/
theorem reset (H : Uncached p w k) (k' : InstKey) : Uncached p (w.modifyInfo k' fun _ => {}) k := by
  refine ⟨?_, H.requests, H.before⟩
  by_cases hk : k = k'
  · simp [LsuWork.modifyInfo, hk]
  · simpa [LsuWork.modifyInfo, hk] using H.state

/-- So is that of an instruction that is nowhere. -/
theorem of_new (hrequests : ∀ e ∈ w.cacheRequests, e.key ≠ k)
    (hbefore : Before w (p.cacheReadStage + 1) k) : Uncached p (w.modifyInfo k fun _ => {}) k where
  state := by simp [LsuWork.modifyInfo]
  requests := hrequests
  before := hbefore

/-- `handleCacheRead_` takes it out of the pipeline. -/
theorem cacheRead {s : LsuState} (H : Uncached p s.work k)
    (h : Lsu.workStep p s T sb .cacheRead = .ok (w', T')) : Before w' p.cacheReadStage k := by
  have hbefore := H.before.mono fun _ _ => workStep_stages (by simp) h
  obtain ⟨w₁, hw₁, h⟩ := Run.bind_eq_ok.mp h
  obtain ⟨rfl, rfl⟩ := Prod.mk.inj (Except.ok.inj h)
  intro m hm e he heq
  rcases hm.eq_or_lt with rfl | hm
  · have hread := checked_eq_ok.mp hw₁
    have hstage := (handleCacheRead_steady hread).stages _ e he
    unfold handleCacheRead at hread
    rw [hstage] at hread
    dsimp only at hread
    rw [if_pos (by rw [heq]; exact H.state)] at hread
    rw [(bounce_steady hread).2] at he
    cases he
  · exact hbefore m hm e he heq

/-- The pipeline moves after `handleCacheRead_`. -/
theorem advance (H : Uncached p w k) (hread : Before w p.cacheReadStage k) :
    Uncached p w.advance k := by
  refine ⟨H.state, H.requests, fun m hm e he => ?_⟩
  obtain ⟨n, rfl⟩ : ∃ n, m = n + 1 := ⟨m - 1, by omega⟩
  exact hread n (by omega) e he

end Uncached

end Lsu

end Olympia
