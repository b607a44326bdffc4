import Olympia.Lsu.Model

/-!
# What the LSU holds

An instruction passes through many places of the LSU: the ready queue, the pipeline, the replay
buffer, payloads of events, requests to the MMU and the cache.  `LsuWork.Holds K R Q` bounds them:
what waits for a callback satisfies `K`, what is in the ready queue `R`, and everything that comes
after it has been issued `Q`.  The handlers keep it, for any `Q` that is at least as strong as
`R`, as long as `R` holds of what passes the test of `handleOperandIssueCheck_`.

They complete only what they hold: `InstTable.Progress`.
-/

namespace Olympia

/-! ## Places -/

structure LsuWork.Holds (K R Q : RenamedInst → Prop) (w : LsuWork) : Prop where
  callbacks : ∀ cb ∈ w.callbacks, K cb.inst
  ready : ∀ ri ∈ w.readyQueue, R ri
  replayBuffer : ∀ ri ∈ w.replayBuffer, Q ri
  appended : ∀ ri ∈ w.appended, Q ri
  stages : ∀ n, ∀ ri ∈ w.stages n, Q ri
  appendReady : ∀ ri ∈ w.appendReady, Q ri
  replayReady : ∀ ri ∈ w.replayReady, Q ri
  mmuRequests : ∀ ri ∈ w.mmuRequests, Q ri
  mmuPending : ∀ ri ∈ w.mmuPending, Q ri
  cacheRequests : ∀ ri ∈ w.cacheRequests, Q ri

namespace LsuWork.Holds

variable {K R Q : RenamedInst → Prop} {w : LsuWork} {ri : RenamedInst}

theorem init (K R Q : RenamedInst → Prop) : Holds K R Q {} := by
  constructor <;> simp

theorem mono {K' R' Q' : RenamedInst → Prop} (H : w.Holds K R Q) (hK : ∀ ri, K ri → K' ri)
    (hR : ∀ ri, R ri → R' ri) (hQ : ∀ ri, Q ri → Q' ri) : w.Holds K' R' Q' where
  callbacks cb hcb := hK _ (H.callbacks cb hcb)
  ready ri h := hR ri (H.ready ri h)
  replayBuffer ri h := hQ ri (H.replayBuffer ri h)
  appended ri h := hQ ri (H.appended ri h)
  stages n ri h := hQ ri (H.stages n ri h)
  appendReady ri h := hQ ri (H.appendReady ri h)
  replayReady ri h := hQ ri (H.replayReady ri h)
  mmuRequests ri h := hQ ri (H.mmuRequests ri h)
  mmuPending ri h := hQ ri (H.mmuPending ri h)
  cacheRequests ri h := hQ ri (H.cacheRequests ri h)

theorem modifyInfo (H : w.Holds K R Q) (k : InstKey)
    (f : LoadStoreInstInfo → LoadStoreInstInfo) : (w.modifyInfo k f).Holds K R Q :=
  { H with }

theorem invalidateStage (H : w.Holds K R Q) (stage : ℕ) :
    (w.invalidateStage stage).Holds K R Q :=
  { H with
    stages := by
      intro n ri hri
      by_cases hn : n = stage
      · simp [LsuWork.invalidateStage, hn] at hri
      · exact H.stages n ri (by simpa [LsuWork.invalidateStage, hn] using hri) }

theorem advance (H : w.Holds K R Q) : w.advance.Holds K R Q :=
  { H with
    appended := by simp [LsuWork.advance]
    stages := by
      intro n
      rcases n with _ | n
      · exact H.appended
      · exact H.stages n }

theorem setReady (H : w.Holds K R Q) {l : List RenamedInst} (hl : ∀ ri ∈ l, R ri) :
    Holds K R Q { w with readyQueue := l } :=
  { H with ready := hl }

theorem setCallbacks (H : w.Holds K R Q) {l : List LsuCallback} (hl : ∀ cb ∈ l, K cb.inst) :
    Holds K R Q { w with callbacks := l } :=
  { H with callbacks := hl }

theorem setReplayBuffer (H : w.Holds K R Q) {l : List RenamedInst} (hl : ∀ ri ∈ l, Q ri) :
    Holds K R Q { w with replayBuffer := l } :=
  { H with replayBuffer := hl }

theorem setAppendReady (H : w.Holds K R Q) {l : List RenamedInst} (hl : ∀ ri ∈ l, Q ri) :
    Holds K R Q { w with appendReady := l } :=
  { H with appendReady := hl }

theorem setReplayReady (H : w.Holds K R Q) {l : List RenamedInst} (hl : ∀ ri ∈ l, Q ri) :
    Holds K R Q { w with replayReady := l } :=
  { H with replayReady := hl }

theorem setRequests (H : w.Holds K R Q) {l l' : List RenamedInst} {m : Option RenamedInst}
    (hl : ∀ ri ∈ l, Q ri) (hm : ∀ ri ∈ m, Q ri) (hl' : ∀ ri ∈ l', Q ri) :
    Holds K R Q { w with mmuRequests := l, mmuPending := m, cacheRequests := l' } :=
  { H with mmuRequests := hl, mmuPending := hm, cacheRequests := hl' }

theorem removeFromReplay (H : w.Holds K R Q) (ri : RenamedInst) :
    (w.removeFromReplay ri).Holds K R Q :=
  H.setReplayBuffer fun e he => H.replayBuffer e (List.mem_of_mem_filter he)

theorem pushAppendReady (H : w.Holds K R Q) (hri : Q ri) :
    Holds K R Q { w with appendReady := w.appendReady ++ [ri] } := by
  refine H.setAppendReady fun e he => ?_
  rcases List.mem_append.mp he with he | he
  · exact H.appendReady e he
  · rw [List.mem_singleton.mp he]
    exact hri

end LsuWork.Holds

/-! ## Handlers -/

namespace Lsu

/-- The instruction passes the test of `handleOperandIssueCheck_`. -/
def Checked (sb : Scoreboards) (ri : RenamedInst) : Prop :=
  instOperandReady sb ri = true ∧ (ri.inst.isStore = true → dataNotReady sb ri = [])

section Handlers

variable {K R Q : RenamedInst → Prop} {p : LsuParams} {sb : Scoreboards} {q : List RenamedInst}
variable {w w' : LsuWork} {T T' : InstTable} {ri : RenamedInst}

theorem appendToReadyQueue_holds (H : w.Holds K R Q) (hri : R ri)
    (h : appendToReadyQueue w ri = .ok w') : w'.Holds K R Q := by
  obtain ⟨-, -, h⟩ := Run.bind_eq_ok.mp h
  obtain rfl := Except.ok.inj h
  refine (H.setReady fun e he => ?_).modifyInfo _ _
  rcases List.mem_append.mp he with he | he
  · exact H.ready e ((List.takeWhile_sublist _).subset he)
  · rcases List.mem_cons.mp he with rfl | he
    · exact hri
    · exact H.ready e ((List.dropWhile_sublist _).subset he)

theorem makeReady_holds (H : w.Holds K R Q) (hri : inQueue q ri = true → R ri)
    (h : makeReady q w T ri = .ok (w', T')) : w'.Holds K R Q ∧ T.Progress Q T' := by
  obtain ⟨⟨w₁, T₁⟩, hprio, h⟩ := Run.bind_eq_ok.mp h
  obtain ⟨u, hin, hprio⟩ := Run.bind_eq_ok.mp hprio
  obtain ⟨rfl, rfl⟩ := Prod.mk.inj (Except.ok.inj hprio)
  obtain ⟨-, -, h⟩ := Run.bind_eq_ok.mp h
  obtain ⟨w₂, hw₂, h⟩ := Run.bind_eq_ok.mp h
  obtain ⟨rfl, rfl⟩ := Prod.mk.inj (Except.ok.inj h)
  refine ⟨appendToReadyQueue_holds (H.modifyInfo _ _) (hri ?_) hw₂, .scheduled Q T ri.key⟩
  simpa using hin

theorem handleOperandIssueCheck_holds (H : w.Holds K R Q) (hK : K ri)
    (hmake : inQueue q ri = true → Checked sb ri → R ri)
    (h : handleOperandIssueCheck p sb q w T ri = .ok (w', T')) :
    w'.Holds K R Q ∧ T.Progress Q T' := by
  -- registering callbacks for the instruction changes nothing else
  have hcallbacks : ∀ cbs : List LsuCallback, (∀ cb ∈ cbs, cb.inst = ri) →
      LsuWork.Holds K R Q { w with callbacks := w.callbacks ++ cbs } := by
    intro cbs hcbs
    refine H.setCallbacks fun cb hcb => ?_
    rcases List.mem_append.mp hcb with hcb | hcb
    · exact H.callbacks cb hcb
    · rw [hcbs cb hcb]
      exact hK
  unfold handleOperandIssueCheck at h
  split at h
  · obtain ⟨rfl, rfl⟩ := Prod.mk.inj (Except.ok.inj h)
    exact ⟨H, .refl Q T⟩
  · split at h
    · obtain ⟨rfl, rfl⟩ := Prod.mk.inj (Except.ok.inj h)
      exact ⟨hcallbacks _ (by simp [LsuCallback.inst]), .refl Q T⟩
    · rename_i haddr
      have haddr : instOperandReady sb ri = true := by simpa using haddr
      split at h
      · rename_i hstore
        split at h
        · rename_i hdata
          exact makeReady_holds H (fun hin => hmake hin ⟨haddr, fun _ => hdata⟩) h
        · obtain ⟨rfl, rfl⟩ := Prod.mk.inj (Except.ok.inj h)
          refine ⟨hcallbacks _ fun cb hcb => ?_, .refl Q T⟩
          obtain ⟨f, -, rfl⟩ := List.mem_map.mp hcb
          rfl
      · rename_i hstore
        split at h
        · exact makeReady_holds H
            (fun hin => hmake hin ⟨haddr, fun hst => absurd hst hstore⟩) h
        · obtain ⟨rfl, rfl⟩ := Prod.mk.inj (Except.ok.inj h)
          exact ⟨H, .refl Q T⟩

theorem readyCallback_holds {n : ℕ} (H : w.Holds K R Q)
    (hmake : ∀ ri, K ri → inQueue q ri = true → Checked sb ri → R ri)
    (h : readyCallback p sb q w T n = some (.ok (w', T'))) :
    w'.Holds K R Q ∧ T.Progress Q T' := by
  unfold readyCallback at h
  split at h
  · cases h
  · rename_i cb hcb
    have hK : K cb.inst := H.callbacks cb (List.mem_of_getElem? hcb)
    split at h
    · refine handleOperandIssueCheck_holds (H.setCallbacks fun cb' hcb' => ?_) hK
        (hmake _ hK) (Option.some.inj h)
      exact H.callbacks cb' (List.mem_of_mem_eraseIdx hcb')
    · cases h

theorem readyDependentLoads_holds (H : w.Holds K R Q) (hqueue : ∀ e ∈ q, K e)
    (hmake : ∀ ri, K ri → inQueue q ri = true → Checked sb ri → R ri)
    (h : readyDependentLoads sb q w T = .ok (w', T')) : w'.Holds K R Q ∧ T.Progress Q T' := by
  refine (Run.foldlM_ok_induct (f := readyDependentLoad sb q)
    (I := fun l st => (∀ e ∈ l, K e) ∧ st.1.Holds K R Q ∧ T.Progress Q st.2) ?_
    ⟨hqueue, H, .refl Q T⟩ h).2
  rintro e l ⟨w₁, T₁⟩ ⟨w₂, T₂⟩ ⟨hl, H₁, hT₁⟩ hone
  refine ⟨fun e' he' => hl e' (List.mem_cons_of_mem _ he'), ?_⟩
  unfold readyDependentLoad at hone
  split at hone
  · rename_i hcond
    simp only [Bool.and_eq_true] at hcond
    obtain ⟨⟨hload, -⟩, haddr⟩ := hcond
    have hload : ¬e.inst.isStore = true := by simpa using hload
    obtain ⟨H₂, hT₂⟩ := makeReady_holds H₁
      (fun hin => hmake e (hl e List.mem_cons_self) hin
        ⟨haddr, fun hst => absurd hst hload⟩) hone
    exact ⟨H₂, hT₁.trans hT₂⟩
  · obtain ⟨rfl, rfl⟩ := Prod.mk.inj (Except.ok.inj hone)
    exact ⟨H₁, hT₁⟩

/-! ### Issue and the pipeline -/

/-- `issueInst_` takes the head of the ready queue into the pipeline. -/
theorem issueInst_spec (h : issueInst p w = .ok (w', ri)) :
    ∃ rest replay info, w.readyQueue = ri :: rest ∧
      (∀ e ∈ replay, e ∈ w.replayBuffer ∨ e = ri) ∧
      w' = { w with
        info := info, readyQueue := rest, appended := some ri, replayBuffer := replay } := by
  unfold issueInst at h
  split at h
  · cases h
  · rename_i e rest hready
    obtain ⟨-, -, h⟩ := Run.bind_eq_ok.mp h
    dsimp only at h
    split at h
    · obtain ⟨w₁, hw₁, h⟩ := Run.bind_eq_ok.mp h
      obtain ⟨-, -, hw₁⟩ := Run.bind_eq_ok.mp hw₁
      obtain ⟨-, -, hw₁⟩ := Run.bind_eq_ok.mp hw₁
      obtain rfl := Except.ok.inj hw₁
      obtain ⟨rfl, rfl⟩ := Prod.mk.inj (Except.ok.inj h)
      exact ⟨rest, w.replayBuffer ++ [e], _, hready, by simp, rfl⟩
    · obtain ⟨rfl, rfl⟩ := Prod.mk.inj (Except.ok.inj h)
      exact ⟨rest, w.replayBuffer, _, hready, fun _ he => .inl he, rfl⟩

theorem issueInst_holds (H : w.Holds K R Q) (h : issueInst p w = .ok (w', ri)) (hQ : Q ri) :
    w'.Holds K R Q := by
  obtain ⟨rest, replay, info, hready, hreplay, rfl⟩ := issueInst_spec h
  refine { H with ready := fun e he => ?_, replayBuffer := fun e he => ?_, appended := ?_ }
  · exact H.ready e (by rw [hready]; exact List.mem_cons_of_mem _ he)
  · rcases hreplay e he with he | rfl
    · exact H.replayBuffer e he
    · exact hQ
  · simpa using hQ

theorem bounce_holds {stage : ℕ} (H : w.Holds K R Q) (hri : R ri)
    (h : bounce w stage ri = .ok w') : w'.Holds K R Q := by
  unfold bounce at h
  dsimp only at h
  split at h
  · obtain ⟨w₁, hw₁, h⟩ := Run.bind_eq_ok.mp h
    obtain rfl := Except.ok.inj h
    exact (appendToReadyQueue_holds H hri hw₁).invalidateStage _
  · obtain rfl := Except.ok.inj h
    exact H.invalidateStage _

theorem scheduleReplay_holds (H : w.Holds K R Q) (hri : Q ri) :
    (scheduleReplay p w ri).Holds K R Q := by
  unfold scheduleReplay
  split
  · refine ((H.modifyInfo _ _).setReplayReady fun e he => ?_).removeFromReplay ri
    rcases List.mem_append.mp he with he | he
    · exact H.replayReady e he
    · rw [List.mem_singleton.mp he]
      exact hri
  · exact H

theorem replayReady_holds {n : ℕ} (H : w.Holds K R Q) (h : replayReady w n = some w') :
    w'.Holds K R Q := by
  obtain ⟨ri, hri, rfl⟩ := Option.map_eq_some_iff.mp h
  have hQ := H.replayReady ri (List.mem_of_getElem? hri)
  have H₁ := H.setReplayReady (l := w.replayReady.eraseIdx n)
    fun e he => H.replayReady e (List.mem_of_mem_eraseIdx he)
  exact (H₁.modifyInfo _ _).pushAppendReady hQ

theorem appendReady_holds {n : ℕ} (hQR : ∀ ri, Q ri → R ri) (H : w.Holds K R Q)
    (h : appendReady w n = some (.ok w')) : w'.Holds K R Q := by
  obtain ⟨ri, hri, h⟩ := Option.map_eq_some_iff.mp h
  have hQ := H.appendReady ri (List.mem_of_getElem? hri)
  have H₁ := H.setAppendReady (l := w.appendReady.eraseIdx n)
    fun e he => H.appendReady e (List.mem_of_mem_eraseIdx he)
  dsimp only at h
  split at h
  · exact appendToReadyQueue_holds H₁ (hQR ri hQ) h
  · obtain rfl := Except.ok.inj h
    exact H₁

/-! ### The MMU -/

theorem handleMMULookupReq_holds (H : w.Holds K R Q) (hqueue : ∀ e ∈ q, K e)
    (hmake : ∀ ri, K ri → inQueue q ri = true → Checked sb ri → R ri)
    (h : handleMMULookupReq p sb q w T = .ok (w', T')) : w'.Holds K R Q ∧ T.Progress Q T' := by
  unfold handleMMULookupReq at h
  split at h
  · obtain ⟨rfl, rfl⟩ := Prod.mk.inj (Except.ok.inj h)
    exact ⟨H, .refl Q T⟩
  · rename_i ri hri
    have hQ : Q ri := H.stages _ ri hri
    have hrequest : ∀ {w₁ : LsuWork}, w₁.Holds K R Q →
        LsuWork.Holds K R Q { w₁ with mmuRequests := w₁.mmuRequests ++ [ri] } := by
      intro w₁ H₁
      refine { H₁ with mmuRequests := fun e he => ?_ }
      rcases List.mem_append.mp he with he | he
      · exact H₁.mmuRequests e he
      · rw [List.mem_singleton.mp he]
        exact hQ
    split at h
    · obtain ⟨rfl, rfl⟩ := Prod.mk.inj (Except.ok.inj h)
      exact ⟨H, .refl Q T⟩
    · dsimp only at h
      split at h
      · obtain ⟨⟨w₁, T₁⟩, hloads, h⟩ := Run.bind_eq_ok.mp h
        obtain ⟨rfl, rfl⟩ := Prod.mk.inj (Except.ok.inj h)
        obtain ⟨H₁, hT⟩ := readyDependentLoads_holds H hqueue hmake hloads
        exact ⟨hrequest H₁, hT⟩
      · obtain ⟨rfl, rfl⟩ := Prod.mk.inj (Except.ok.inj h)
        exact ⟨hrequest H, .refl Q T⟩

theorem dropInstFromPipeline_holds (H : w.Holds K R Q) (ri : RenamedInst) :
    (dropInstFromPipeline p w ri).Holds K R Q := by
  unfold dropInstFromPipeline
  split
  · exact H.invalidateStage _
  · exact H

theorem abortYoungerLoads_holds (hQR : ∀ ri, Q ri → R ri) (H : w.Holds K R Q)
    (h : abortYoungerLoads p w ri = .ok w') : w'.Holds K R Q := by
  unfold abortYoungerLoads at h
  split at h
  · obtain rfl := Except.ok.inj h
    exact H
  · refine (Run.foldlM_ok_induct (f := abortLoad p)
      (I := fun l w => (∀ e ∈ l, Q e) ∧ w.Holds K R Q) ?_ ⟨?_, H⟩ h).2
    · rintro e l w₁ w₂ ⟨hl, H₁⟩ hone
      refine ⟨fun e' he' => hl e' (List.mem_cons_of_mem _ he'), ?_⟩
      obtain ⟨w₃, hw₃, hone⟩ := Run.bind_eq_ok.mp hone
      obtain rfl := Except.ok.inj hone
      have H₃ := appendToReadyQueue_holds (H₁.modifyInfo _ _)
        (hQR e (hl e List.mem_cons_self)) hw₃
      exact (dropInstFromPipeline_holds H₃ e).removeFromReplay e
    · exact fun e he => H.replayBuffer e (List.mem_of_mem_filter he)

theorem getAckFromMMU_holds {n : ℕ} {hit : Bool} (hQR : ∀ ri, Q ri → R ri) (H : w.Holds K R Q)
    (h : getAckFromMMU p w n hit = some (.ok w')) : w'.Holds K R Q := by
  obtain ⟨ri, hri, h⟩ := Option.map_eq_some_iff.mp h
  have hQ := H.mmuRequests ri (List.mem_of_getElem? hri)
  have H₁ := H.setRequests (l := w.mmuRequests.eraseIdx n)
    (m := if hit then w.mmuPending else w.mmuPending.or (some ri))
    (fun e he => H.mmuRequests e (List.mem_of_mem_eraseIdx he))
    (fun e he => by
      rcases hpend : w.mmuPending with _ | r
      · split at he
        · exact H.mmuPending e he
        · obtain rfl : ri = e := by simpa [hpend] using he
          exact hQ
      · refine H.mmuPending e ?_
        rw [hpend] at he ⊢
        split at he <;> simpa using he)
    H.cacheRequests
  rcases Run.of_ite h with h | h
  · exact abortYoungerLoads_holds hQR (H₁.modifyInfo _ _) h
  · obtain rfl := Except.ok.inj h
    exact H₁.modifyInfo _ _

theorem reloadEntry_holds {e : RenamedInst} (H : w.Holds K R Q)
    (hkey : e.key = ri.key → Q e) : (reloadEntry p ri w e).Holds K R Q := by
  unfold reloadEntry
  have H₁ : LsuWork.Holds K R Q (if (w.info e.key).mmuState = .miss then
      w.modifyInfo e.key fun i => { i with
        state := if p.allowSpeculativeLoadExec then i.state else .ready
        priority := .mmuPending }
      else w) := by
    split
    · exact H.modifyInfo _ _
    · exact H
  dsimp only
  split
  · rename_i heq
    exact (H₁.modifyInfo _ _).pushAppendReady (hkey heq)
  · exact H₁

theorem handleMMUReadyReq_holds (H : w.Holds K R Q)
    (hkey : ∀ e ∈ q, ∀ ri, Q ri → e.key = ri.key → Q e)
    (h : handleMMUReadyReq p q w T = some (.ok w')) : w'.Holds K R Q := by
  obtain ⟨ri, hri, h⟩ := Option.map_eq_some_iff.mp h
  have hQ := H.mmuPending ri hri
  have H₁ : LsuWork.Holds K R Q (q.foldl (reloadEntry p ri) { w with mmuPending := none }) := by
    refine List.foldlRecOn q _ (H.setRequests H.mmuRequests (by simp) H.cacheRequests) ?_
    exact fun w₁ Hw₁ e he => reloadEntry_holds Hw₁ (hkey e he ri hQ)
  obtain ⟨-, -, h⟩ := Run.bind_eq_ok.mp h
  rcases Run.of_ite h with h | h
  · obtain rfl := Except.ok.inj h
    exact H₁
  · obtain rfl := Except.ok.inj h
    split
    · exact H₁.removeFromReplay _
    · exact H₁

/-! ### The cache -/

theorem handleCacheLookupReq_holds {storeBuffer : List RenamedInst} (hQR : ∀ ri, Q ri → R ri)
    (H : w.Holds K R Q) (h : handleCacheLookupReq p q storeBuffer w T = .ok (w', T')) :
    w'.Holds K R Q ∧ T.Progress Q T' := by
  unfold handleCacheLookupReq at h
  split at h
  · obtain ⟨rfl, rfl⟩ := Prod.mk.inj (Except.ok.inj h)
    exact ⟨H, .refl Q T⟩
  · rename_i ri hri
    have hQ : Q ri := H.stages _ ri hri
    dsimp only at h
    split at h
    · obtain ⟨w₁, hw₁, h⟩ := Run.bind_eq_ok.mp h
      obtain ⟨rfl, rfl⟩ := Prod.mk.inj (Except.ok.inj h)
      exact ⟨bounce_holds (scheduleReplay_holds H hQ) (hQR ri hQ) hw₁, .refl Q T⟩
    · split at h
      · obtain ⟨rfl, rfl⟩ := Prod.mk.inj (Except.ok.inj h)
        exact ⟨scheduleReplay_holds ((H.modifyInfo _ _).invalidateStage _) hQ, .completed hQ T⟩
      · split at h
        · obtain ⟨rfl, rfl⟩ := Prod.mk.inj (Except.ok.inj h)
          exact ⟨scheduleReplay_holds ((H.modifyInfo _ _).invalidateStage _) hQ, .refl Q T⟩
        · split at h
          · obtain ⟨rfl, rfl⟩ := Prod.mk.inj (Except.ok.inj h)
            exact ⟨H.modifyInfo _ _, .refl Q T⟩
          · split at h
            · obtain ⟨rfl, rfl⟩ := Prod.mk.inj (Except.ok.inj h)
              exact ⟨H, .refl Q T⟩
            · obtain ⟨rfl, rfl⟩ := Prod.mk.inj (Except.ok.inj h)
              refine ⟨H.setRequests H.mmuRequests H.mmuPending fun e he => ?_, .refl Q T⟩
              rcases List.mem_append.mp he with he | he
              · exact H.cacheRequests e he
              · rw [List.mem_singleton.mp he]
                exact hQ

theorem getAckFromCache_holds {n : ℕ} {cacheState : CacheState} (H : w.Holds K R Q)
    (h : getAckFromCache q w n cacheState = some w') : w'.Holds K R Q := by
  obtain ⟨ri, hri, h⟩ := Option.map_eq_some_iff.mp h
  have hQ := H.cacheRequests ri (List.mem_of_getElem? hri)
  rcases Run.of_ite h with rfl | h
  · exact H.modifyInfo _ _
  · rcases Run.of_ite h with rfl | h
    · exact H.modifyInfo _ _
    · rcases Run.of_ite h with rfl | rfl
      · exact ((H.modifyInfo _ _).modifyInfo _ _).pushAppendReady hQ
      · exact (H.modifyInfo _ _).modifyInfo _ _

theorem handleCacheReadyReq_holds {n : ℕ} (H : w.Holds K R Q)
    (h : handleCacheReadyReq q w T n = some (.ok w')) : w'.Holds K R Q := by
  obtain ⟨ri, hri, h⟩ := Option.map_eq_some_iff.mp h
  have hQ := H.cacheRequests ri (List.mem_of_getElem? hri)
  rcases Run.of_ite h with h | h
  · obtain rfl := Except.ok.inj h
    exact H
  · obtain ⟨-, -, h⟩ := Run.bind_eq_ok.mp h
    obtain rfl := Except.ok.inj h
    exact ((H.modifyInfo _ _).pushAppendReady hQ).removeFromReplay _

theorem handleCacheRead_holds (hQR : ∀ ri, Q ri → R ri) (H : w.Holds K R Q)
    (h : handleCacheRead p w = .ok w') : w'.Holds K R Q := by
  unfold handleCacheRead at h
  split at h
  · obtain rfl := Except.ok.inj h
    exact H
  · rename_i ri hri
    have hQ : Q ri := H.stages _ ri hri
    split at h
    · exact bounce_holds (scheduleReplay_holds H hQ) (hQR ri hQ) h
    · split at h
      · obtain rfl := Except.ok.inj h
        exact H
      · obtain rfl := Except.ok.inj h
        exact H.modifyInfo _ _

end Handlers

/-! ## The unit -/

section Unit

variable {K R Q : RenamedInst → Prop} {p : LsuParams} {sb : Scoreboards} {s s' : LsuState}
variable {T T' : InstTable}

/-- Every handler that leaves the instruction queue alone keeps what is held within bounds. -/
theorem workStep_holds {op : LsuOp} {w' : LsuWork} (hQR : ∀ ri, Q ri → R ri)
    (hqueue : ∀ e ∈ s.ldstInstQueue, K e)
    (hmake : ∀ ri, K ri → inQueue s.ldstInstQueue ri = true → Checked sb ri → R ri)
    (hkey : ∀ e ∈ s.ldstInstQueue, ∀ ri, Q ri → e.key = ri.key → Q e)
    (H : s.work.Holds K R Q) (h : workStep p s T sb op = .ok (w', T')) :
    w'.Holds K R Q ∧ T.Progress Q T' := by
  rcases op with i | _ | _ | ⟨i, hit⟩ | _ | _ | ⟨i, cs⟩ | i | _ | i | i
  case callback => exact readyCallback_holds H hmake (outstanding_eq_ok.mp h)
  case advance =>
    obtain ⟨rfl, rfl⟩ := Prod.mk.inj (Except.ok.inj h)
    exact ⟨H.advance, .refl Q T⟩
  case mmuLookup => exact handleMMULookupReq_holds H hqueue hmake (checked_eq_ok.mp h)
  case mmuAck =>
    obtain ⟨w₁, hw₁, h⟩ := Run.bind_eq_ok.mp h
    obtain ⟨rfl, rfl⟩ := Prod.mk.inj (Except.ok.inj h)
    exact ⟨getAckFromMMU_holds hQR H (outstanding_eq_ok.mp hw₁), .refl Q T⟩
  case mmuReady =>
    obtain ⟨w₁, hw₁, h⟩ := Run.bind_eq_ok.mp h
    obtain ⟨rfl, rfl⟩ := Prod.mk.inj (Except.ok.inj h)
    exact ⟨handleMMUReadyReq_holds H hkey (outstanding_eq_ok.mp hw₁), .refl Q T⟩
  case cacheLookup => exact handleCacheLookupReq_holds hQR H (checked_eq_ok.mp h)
  case cacheAck =>
    obtain ⟨w₁, hw₁, h⟩ := Run.bind_eq_ok.mp h
    obtain ⟨rfl, rfl⟩ := Prod.mk.inj (Except.ok.inj h)
    obtain ⟨w₂, hw₂, heq⟩ := Option.map_eq_some_iff.mp (outstanding_eq_ok.mp hw₁)
    obtain rfl := Except.ok.inj heq
    exact ⟨getAckFromCache_holds H hw₂, .refl Q T⟩
  case cacheReady =>
    obtain ⟨w₁, hw₁, h⟩ := Run.bind_eq_ok.mp h
    obtain ⟨rfl, rfl⟩ := Prod.mk.inj (Except.ok.inj h)
    exact ⟨handleCacheReadyReq_holds H (outstanding_eq_ok.mp hw₁), .refl Q T⟩
  case cacheRead =>
    obtain ⟨w₁, hw₁, h⟩ := Run.bind_eq_ok.mp h
    obtain ⟨rfl, rfl⟩ := Prod.mk.inj (Except.ok.inj h)
    exact ⟨handleCacheRead_holds hQR H (checked_eq_ok.mp hw₁), .refl Q T⟩
  case replayReady =>
    obtain ⟨w₁, hw₁, h⟩ := Run.bind_eq_ok.mp h
    obtain ⟨rfl, rfl⟩ := Prod.mk.inj (Except.ok.inj h)
    obtain ⟨w₂, hw₂, heq⟩ := Option.map_eq_some_iff.mp (outstanding_eq_ok.mp hw₁)
    obtain rfl := Except.ok.inj heq
    exact ⟨replayReady_holds H hw₂, .refl Q T⟩
  case appendReady =>
    obtain ⟨w₁, hw₁, h⟩ := Run.bind_eq_ok.mp h
    obtain ⟨rfl, rfl⟩ := Prod.mk.inj (Except.ok.inj h)
    exact ⟨appendReady_holds hQR H (outstanding_eq_ok.mp hw₁), .refl Q T⟩

/-- An instruction arrives. -/
theorem getInstsFromDispatch_holds {ri : RenamedInst} (H : s.work.Holds K R Q) (hK : K ri)
    (hmake : Checked sb ri → R ri)
    (h : getInstsFromDispatch p sb s T ri = .ok (s', T')) :
    s'.ldstInstQueue = s.ldstInstQueue ++ [ri] ∧ s'.work.Holds K R Q ∧ T.Progress Q T' := by
  obtain ⟨-, -, h⟩ := Run.bind_eq_ok.mp h
  obtain ⟨-, -, h⟩ := Run.bind_eq_ok.mp h
  obtain ⟨⟨w, T₁⟩, hw, h⟩ := Run.bind_eq_ok.mp h
  obtain ⟨rfl, rfl⟩ := Prod.mk.inj (Except.ok.inj h)
  exact ⟨rfl, handleOperandIssueCheck_holds (H.modifyInfo _ _) hK (fun _ => hmake) hw⟩

/-- The ROB acknowledges a store that is in the queue. -/
theorem getAckFromROB_holds {ri : RenamedInst} (H : s.work.Holds K R Q)
    (h : getAckFromROB s T ri = .ok s')
    (hQ : T.status ri.key = .retired → inQueue s.ldstInstQueue ri = true → Q ri) :
    s'.ldstInstQueue = s.ldstInstQueue ∧ s'.work.Holds K R Q := by
  obtain ⟨u, hret, h⟩ := Run.bind_eq_ok.mp h
  obtain ⟨-, -, h⟩ := Run.bind_eq_ok.mp h
  obtain ⟨u, hin, h⟩ := Run.bind_eq_ok.mp h
  obtain rfl := Except.ok.inj h
  refine ⟨rfl, (H.modifyInfo _ _).pushAppendReady (hQ ?_ ?_)⟩
  · simpa using hret
  · simpa using hin

theorem dropReplay_spec (p : LsuParams) (s : LsuState) (ri : RenamedInst)
    (H : s.work.Holds K R Q) :
    (dropReplay p s ri).ldstInstQueue = s.ldstInstQueue ∧
      (dropReplay p s ri).work.Holds K R Q := by
  unfold dropReplay
  split
  · exact ⟨rfl, H.removeFromReplay ri⟩
  · exact ⟨rfl, H⟩

/-- What `completeInst_` does: it may set the destination of the instruction in the last stage,
complete it and take it from the queue. -/
structure CompleteSpec (K R Q : RenamedInst → Prop) (s : LsuState) (T : InstTable)
    (sb : Scoreboards) (out : CompleteOut) : Prop where
  queue : out.state.ldstInstQueue.Sublist s.ldstInstQueue
  work : out.state.work.Holds K R Q
  table : T.Progress Q out.table
  scoreboards : out.scoreboards = sb ∨ ∃ ri, Q ri ∧ writeback sb ri = .ok out.scoreboards

theorem completeInst_spec {out : CompleteOut} (H : s.work.Holds K R Q)
    (h : completeInst p s T sb = .ok out) : CompleteSpec K R Q s T sb out := by
  have hfinish : ∀ {T₁ sb₁ ri}, T.Progress Q T₁ →
      (sb₁ = sb ∨ ∃ ri, Q ri ∧ writeback sb ri = .ok sb₁) →
      finish p s T₁ sb₁ ri = .ok out → CompleteSpec K R Q s T sb out := by
    intro T₁ sb₁ ri hT hsb h
    obtain ⟨q, hq, h⟩ := Run.bind_eq_ok.mp h
    obtain rfl := Except.ok.inj h
    unfold popIssueQueue at hq
    split at hq
    · obtain rfl := Except.ok.inj hq
      obtain ⟨hqueue, Hw⟩ := dropReplay_spec p
        { s with ldstInstQueue := s.ldstInstQueue.eraseP fun e => e.key = ri.key } ri H
      refine ⟨?_, Hw, hT, hsb⟩
      rw [hqueue]
      exact List.eraseP_sublist
    · cases hq
  have hstay : ∀ {sb₁ ri}, (sb₁ = sb ∨ ∃ ri, Q ri ∧ writeback sb ri = .ok sb₁) →
      CompleteSpec K R Q s T sb ⟨dropReplay p s ri, T, sb₁, 0⟩ := by
    intro sb₁ ri hsb
    obtain ⟨hqueue, Hw⟩ := dropReplay_spec p s ri H
    exact ⟨by rw [hqueue], Hw, .refl Q T, hsb⟩
  unfold completeInst at h
  split at h
  · obtain rfl := Except.ok.inj h
    exact ⟨List.Sublist.refl _, H, .refl Q T, .inl rfl⟩
  · rename_i ri hri
    have hQ : Q ri := H.stages _ ri hri
    dsimp only at h
    split at h
    · obtain rfl := Except.ok.inj h
      exact ⟨List.Sublist.refl _, H, .refl Q T, .inl rfl⟩
    · obtain ⟨sb₁, hsb₁, h⟩ := Run.bind_eq_ok.mp h
      have hsb : sb₁ = sb ∨ ∃ ri, Q ri ∧ writeback sb ri = .ok sb₁ := .inr ⟨ri, hQ, hsb₁⟩
      split at h
      · obtain ⟨-, -, h⟩ := Run.bind_eq_ok.mp h
        split at h
        · obtain rfl := Except.ok.inj h
          exact hstay hsb
        · exact hfinish (.completed hQ T) hsb h
      · split at h
        · obtain ⟨-, -, h⟩ := Run.bind_eq_ok.mp h
          obtain rfl := Except.ok.inj h
          exact ⟨List.Sublist.refl _, H, .refl Q T, hsb⟩
        · obtain ⟨-, -, h⟩ := Run.bind_eq_ok.mp h
          split at h
          · obtain rfl := Except.ok.inj h
            exact hstay hsb
          · exact hfinish (.refl Q T) hsb h

/-- After a flush the LSU holds no more than before, and in the two queues only what the flush
does not include. -/
theorem handleFlush_holds (H : s.work.Holds K R Q) (c : FlushingCriteria) :
    (∀ e ∈ (handleFlush s c).1.ldstInstQueue,
      e ∈ s.ldstInstQueue ∧ c.includedInFlush e.inst = false) ∧
    (handleFlush s c).1.work.Holds K (fun ri => R ri ∧ c.includedInFlush ri.inst = false) Q := by
  refine ⟨fun e he => ?_, ?_⟩
  · simpa using List.mem_filter.mp he
  · refine ⟨fun cb hcb => H.callbacks cb (List.mem_of_mem_filter hcb), fun e he => ?_,
      fun e he => H.replayBuffer e (List.mem_of_mem_filter he), H.appended, fun n e he => ?_,
      fun e he => H.appendReady e (List.mem_of_mem_filter he),
      fun e he => H.replayReady e (List.mem_of_mem_filter he), H.mmuRequests, H.mmuPending,
      H.cacheRequests⟩
    · obtain ⟨hmem, hkeep⟩ := List.mem_filter.mp he
      exact ⟨H.ready e hmem, by simpa using hkeep⟩
    · exact H.stages n e (Option.mem_filter_iff.mp he).1

end Unit

end Lsu

end Olympia
