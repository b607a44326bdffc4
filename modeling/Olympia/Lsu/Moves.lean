import Mathlib.Data.List.Perm.Basic
import Mathlib.Logic.Relation
import Olympia.Lsu.System

/-!
# What the handlers of the LSU do

`LsuMove` says once what a handler can do to an instruction in the LSU: a load is made ready when a
store reaches the MMU, a request goes to the MMU and is answered, an instruction bounces out of the
pipeline, a load is aborted, a replay comes due.  Every handler except a ready callback is a
sequence of moves (`workStep_moves`), so an invariant that every move keeps is kept by all of them.
A callback, like the arrival of an instruction, is one operand check (`OperandCheck`).

`Ap` and `Ab` are what is known of an instruction that `appendReady_` or `abortYoungerLoads_` puts
into the ready queue.
-/

namespace Olympia

namespace Lsu

/-! ## The ready queue -/

/-- The instruction has been put into the ready queue. -/
structure Enqueued (w : LsuWork) (ri : RenamedInst) (w' : LsuWork) : Prop where
  fresh : ∀ e ∈ w.readyQueue, e.key ≠ ri.key
  ready : w'.readyQueue.Perm (ri :: w.readyQueue)
  flag : ∀ k, (w'.info k).inReadyQueue = (decide (k = ri.key) || (w.info k).inReadyQueue)
  access : ∀ k, (w'.info k).toMemoryAccessInfo = (w.info k).toMemoryAccessInfo
  rest : w' = { w with readyQueue := w'.readyQueue, info := w'.info }

/-- The objects have changed, but neither their place in the ready queue nor their address. -/
def Noted (w : LsuWork) (info : InstKey → LoadStoreInstInfo) : Prop :=
  ∀ k, (info k).inReadyQueue = (w.info k).inReadyQueue ∧
    (info k).phyAddrReady = (w.info k).phyAddrReady ∧ (info k).mmuState = (w.info k).mmuState

theorem Noted.refl (w : LsuWork) : Noted w w.info := fun _ => ⟨rfl, rfl, rfl⟩

theorem Noted.modifyInfo (w : LsuWork) (k : InstKey) {f : LoadStoreInstInfo → LoadStoreInstInfo}
    (hf : ∀ i, (f i).inReadyQueue = i.inReadyQueue ∧ (f i).phyAddrReady = i.phyAddrReady ∧
      (f i).mmuState = i.mmuState) : Noted w (w.modifyInfo k f).info := by
  intro k'
  by_cases hk : k' = k
  · subst hk
    simpa [LsuWork.modifyInfo] using hf (w.info k')
  · simp [LsuWork.modifyInfo, hk]

theorem inQueue_iff {q : List RenamedInst} {ri : RenamedInst} :
    inQueue q ri = true ↔ ∃ e ∈ q, e.key = ri.key := by
  simp [inQueue]

theorem appendToReadyQueue_spec {w w' : LsuWork} {ri : RenamedInst}
    (h : appendToReadyQueue w ri = .ok w') : Enqueued w ri w' := by
  obtain ⟨u, hnot, h⟩ := Run.bind_eq_ok.mp h
  obtain rfl := Except.ok.inj h
  have hnot : ¬inQueue w.readyQueue ri = true := by simpa using hnot
  refine ⟨fun e he hkey => hnot (inQueue_iff.mpr ⟨e, he, hkey⟩), ?_, fun k => ?_, fun k => ?_, rfl⟩
  · refine List.perm_middle.trans (List.Perm.cons ri ?_)
    rw [List.takeWhile_append_dropWhile]
  · by_cases hk : k = ri.key
    · subst hk
      simp [LsuWork.modifyInfo]
    · simp [LsuWork.modifyInfo, hk]
  · by_cases hk : k = ri.key
    · subst hk
      simp [LsuWork.modifyInfo]
    · simp [LsuWork.modifyInfo, hk]

/-- A change that concerns neither the ready queue nor the access may have come before. -/
theorem Enqueued.of_modifyInfo {w w' : LsuWork} {ri : RenamedInst} {k : InstKey}
    {f : LoadStoreInstInfo → LoadStoreInstInfo} (E : Enqueued (w.modifyInfo k f) ri w')
    (hf : ∀ i, (f i).inReadyQueue = i.inReadyQueue ∧
      (f i).toMemoryAccessInfo = i.toMemoryAccessInfo) : Enqueued w ri w' := by
  have hsame : ∀ k', ((w.modifyInfo k f).info k').inReadyQueue = (w.info k').inReadyQueue ∧
      ((w.modifyInfo k f).info k').toMemoryAccessInfo = (w.info k').toMemoryAccessInfo := by
    intro k'
    by_cases hk : k' = k
    · subst hk
      simpa [LsuWork.modifyInfo] using hf (w.info k')
    · simp [LsuWork.modifyInfo, hk]
  refine ⟨E.fresh, E.ready, fun k' => ?_, fun k' => ?_, E.rest⟩
  · rw [E.flag, (hsame k').1]
  · rw [E.access, (hsame k').2]

theorem Enqueued.invalidateStage {w w' : LsuWork} {ri : RenamedInst} (E : Enqueued w ri w')
    (n : ℕ) : Enqueued (w.invalidateStage n) ri (w'.invalidateStage n) := by
  refine ⟨E.fresh, E.ready, E.flag, E.access, ?_⟩
  conv_lhs => rw [E.rest]
  rfl

theorem Enqueued.dropInstFromPipeline {w w' : LsuWork} {ri e : RenamedInst}
    (E : Enqueued w ri w') (p : LsuParams) :
    Enqueued (dropInstFromPipeline p w e) ri (dropInstFromPipeline p w' e) := by
  have hstages : w'.stages = w.stages := by rw [E.rest]
  unfold Lsu.dropInstFromPipeline
  rw [hstages]
  split
  · exact E.invalidateStage _
  · exact E

theorem Enqueued.removeFromReplay {w w' : LsuWork} {ri : RenamedInst} (E : Enqueued w ri w')
    (e : RenamedInst) : Enqueued (w.removeFromReplay e) ri (w'.removeFromReplay e) := by
  refine ⟨E.fresh, E.ready, E.flag, E.access, ?_⟩
  conv_lhs => rw [E.rest]
  rfl

theorem makeReady_spec {q : List RenamedInst} {w w' : LsuWork} {T T' : InstTable}
    {ri : RenamedInst} (h : makeReady q w T ri = .ok (w', T')) :
    inQueue q ri = true ∧ Enqueued w ri w' ∧ T' = T.setStatus ri.key .scheduled := by
  obtain ⟨⟨w₁, T₁⟩, hprio, h⟩ := Run.bind_eq_ok.mp h
  obtain ⟨u, hin, hprio⟩ := Run.bind_eq_ok.mp hprio
  obtain ⟨rfl, rfl⟩ := Prod.mk.inj (Except.ok.inj hprio)
  obtain ⟨-, -, h⟩ := Run.bind_eq_ok.mp h
  obtain ⟨w₂, hw₂, h⟩ := Run.bind_eq_ok.mp h
  obtain ⟨rfl, rfl⟩ := Prod.mk.inj (Except.ok.inj h)
  exact ⟨by simpa using hin,
    (appendToReadyQueue_spec hw₂).of_modifyInfo (by simp), rfl⟩

/-! ## The operand check -/

/-- What `handleOperandIssueCheck_` can do. -/
inductive OperandCheck (p : LsuParams) (sb : Scoreboards) (q : List RenamedInst) (w : LsuWork)
    (T : InstTable) (ri : RenamedInst) : LsuWork × InstTable → Prop where
  | scheduled (h : T.status ri.key = .scheduled) : OperandCheck p sb q w T ri (w, T)
  | address (hst : T.status ri.key ≠ .scheduled) (h : instOperandReady sb ri = false) :
    OperandCheck p sb q w T ri ({ w with callbacks := w.callbacks ++ [.address ri] }, T)
  | data (hst : T.status ri.key ≠ .scheduled) (h : instOperandReady sb ri = true)
      (hstore : ri.inst.isStore = true) :
    OperandCheck p sb q w T ri
      ({ w with callbacks := w.callbacks ++ (dataNotReady sb ri).map fun f => .data f ri }, T)
  | ready {w' : LsuWork} (hst : T.status ri.key ≠ .scheduled) (hchecked : Checked sb ri)
      (hload : ri.inst.isStore = true ∨ p.allowSpeculativeLoadExec = true ∨
        allOlderStoresIssued q w ri = true)
      (hin : inQueue q ri = true) (hen : Enqueued w ri w') :
    OperandCheck p sb q w T ri (w', T.setStatus ri.key .scheduled)
  /-- an older store has no address -/
  | blocked (hst : T.status ri.key ≠ .scheduled) (h : instOperandReady sb ri = true)
      (hload : ri.inst.isStore = false) (hspec : p.allowSpeculativeLoadExec = false)
      (holder : allOlderStoresIssued q w ri = false) :
    OperandCheck p sb q w T ri (w, T)

theorem handleOperandIssueCheck_cases {p : LsuParams} {sb : Scoreboards} {q : List RenamedInst}
    {w w' : LsuWork} {T T' : InstTable} {ri : RenamedInst}
    (h : handleOperandIssueCheck p sb q w T ri = .ok (w', T')) :
    OperandCheck p sb q w T ri (w', T') := by
  unfold handleOperandIssueCheck at h
  split at h
  · rename_i hst
    obtain ⟨rfl, rfl⟩ := Prod.mk.inj (Except.ok.inj h)
    exact .scheduled hst
  · rename_i hst
    split at h
    · rename_i haddr
      obtain ⟨rfl, rfl⟩ := Prod.mk.inj (Except.ok.inj h)
      exact .address hst (by simpa using haddr)
    · rename_i haddr
      have haddr : instOperandReady sb ri = true := by simpa using haddr
      split at h
      · rename_i hstore
        split at h
        · rename_i hdata
          obtain ⟨hin, hen, rfl⟩ := makeReady_spec h
          exact .ready hst ⟨haddr, fun _ => hdata⟩ (.inl hstore) hin hen
        · obtain ⟨rfl, rfl⟩ := Prod.mk.inj (Except.ok.inj h)
          exact .data hst haddr hstore
      · rename_i hstore
        have hload : ri.inst.isStore = false := by simpa using hstore
        split at h
        · rename_i hgo
          obtain ⟨hin, hen, rfl⟩ := makeReady_spec h
          refine .ready hst ⟨haddr, fun hst => absurd hst hstore⟩ (.inr ?_) hin hen
          simpa using hgo
        · rename_i hgo
          obtain ⟨rfl, rfl⟩ := Prod.mk.inj (Except.ok.inj h)
          simp only [Bool.or_eq_true, not_or, Bool.not_eq_true] at hgo
          exact .blocked hst haddr hload hgo.1 hgo.2

/-- The check changes the ready queue, the objects and the callbacks only. -/
theorem OperandCheck.rest {p : LsuParams} {sb : Scoreboards} {q : List RenamedInst}
    {w : LsuWork} {T : InstTable} {ri : RenamedInst} {y : LsuWork × InstTable}
    (h : OperandCheck p sb q w T ri y) : y.1 = { w with
      readyQueue := y.1.readyQueue, info := y.1.info, callbacks := y.1.callbacks } := by
  cases h with
  | @ready w' _ _ _ _ hen =>
    have hcb : w'.callbacks = w.callbacks := by rw [hen.rest]
    show w' = { w with
      readyQueue := w'.readyQueue, info := w'.info, callbacks := w'.callbacks }
    rw [hcb]
    exact hen.rest
  | _ => rfl

/-! ## The moves -/

/-- What a handler can do to the instructions in the LSU. -/
inductive LsuMove (p : LsuParams) (sb : Scoreboards) (q : List RenamedInst)
    (Ap Ab : LsuWork → RenamedInst → Prop) (Re : Prop) :
    LsuWork × InstTable → LsuWork × InstTable → Prop where
  /-- Objects change; the MMU drops its miss, the cache gets a request. -/
  | note {w : LsuWork} {T : InstTable} {info : InstKey → LoadStoreInstInfo}
      {pending : Option RenamedInst} {requests : List RenamedInst} (hinfo : Noted w info)
      (hpending : ∀ ri ∈ pending, ri ∈ w.mmuPending)
      (hrequests : ∀ ri ∈ requests,
        ri ∈ w.cacheRequests ∨ w.stages p.cacheLookupStage = some ri) :
    LsuMove p sb q Ap Ab Re (w, T)
      ({ w with info := info, mmuPending := pending, cacheRequests := requests }, T)
  /-- A store at the MMU makes a load ready. -/
  | wake {w w' : LsuWork} {T : InstTable} {ri st : RenamedInst} (hri : ri ∈ q)
      (hstatus : T.status ri.key = .dispatched) (hload : ri.inst.isStore = false)
      (hready : instOperandReady sb ri = true) (hspec : p.allowSpeculativeLoadExec = false)
      (hstage : w.stages p.mmuLookupStage = some st) (hstore : st.inst.isStore = true)
      (hen : Enqueued w ri w') :
    LsuMove p sb q Ap Ab Re (w, T) (w', T.setStatus ri.key .scheduled)
  | request {w : LsuWork} {T : InstTable} {ri : RenamedInst}
      (h : w.stages p.mmuLookupStage = some ri) (hmiss : (w.info ri.key).mmuState ≠ .hit) :
    LsuMove p sb q Ap Ab Re (w, T) ({ w with mmuRequests := w.mmuRequests ++ [ri] }, T)
  | translate {w : LsuWork} {T : InstTable} {n : ℕ} {ri : RenamedInst} {hit : Bool}
      (h : w.mmuRequests[n]? = some ri) :
    LsuMove p sb q Ap Ab Re (w, T)
      (LsuWork.modifyInfo { w with
        mmuRequests := w.mmuRequests.eraseIdx n
        mmuPending := if hit then w.mmuPending else w.mmuPending.or (some ri) } ri.key fun i =>
          { i with mmuState := if hit then .hit else .miss, phyAddrReady := hit }, T)
  /-- A speculative load that may have missed a store starts again. -/
  | abort {w w' : LsuWork} {T : InstTable} {e : RenamedInst} (he : e ∈ w.replayBuffer)
      (hload : e.inst.isStore = false) (hok : Ab w e) (hen : Enqueued w e w') :
    LsuMove p sb q Ap Ab Re (w, T) ((dropInstFromPipeline p w' e).removeFromReplay e, T)
  | bounce {w w' : LsuWork} {T : InstTable} {n : ℕ} {ri : RenamedInst}
      (hn : n = p.cacheLookupStage ∨ n = p.cacheReadStage ∧ Re) (h : w.stages n = some ri)
      (hen : w' = scheduleReplay p w ri ∧ (w.info ri.key).inReadyQueue = true ∨
        Enqueued (scheduleReplay p w ri) ri w') :
    LsuMove p sb q Ap Ab Re (w, T) (w'.invalidateStage n, T)
  /-- A store has its translation, or a speculative load has to wait. -/
  | leave {w : LsuWork} {T T' : InstTable} {ri : RenamedInst}
      (h : w.stages p.cacheLookupStage = some ri)
      (hT : T' = T ∨ ri.inst.isStore = true ∧ T.status ri.key = .scheduled ∧
        T' = T.setStatus ri.key .completed) :
    LsuMove p sb q Ap Ab Re (w, T) (scheduleReplay p (w.invalidateStage p.cacheLookupStage) ri, T')
  /-- `uev_append_ready_` is scheduled. -/
  | push {w : LsuWork} {T : InstTable} {ri : RenamedInst} (hri : ri ∈ q)
      (hstatus : T.status ri.key ≠ .dispatched) :
    LsuMove p sb q Ap Ab Re (w, T) ({ w with appendReady := w.appendReady ++ [ri] }, T)
  | unreplay {w : LsuWork} {T : InstTable} {ri : RenamedInst} :
    LsuMove p sb q Ap Ab Re (w, T) (w.removeFromReplay ri, T)
  | replay {w : LsuWork} {T : InstTable} {n : ℕ} {ri : RenamedInst}
      (h : w.replayReady[n]? = some ri) :
    LsuMove p sb q Ap Ab Re (w, T) ({ w with
      replayReady := w.replayReady.eraseIdx n, appendReady := w.appendReady ++ [ri] }, T)
  | append {w w' : LsuWork} {T : InstTable} {n : ℕ} {ri : RenamedInst}
      (h : w.appendReady[n]? = some ri) (hreplay : inQueue w.replayBuffer ri = false)
      (hok : Ap w ri) (hen : Enqueued { w with appendReady := w.appendReady.eraseIdx n } ri w') :
    LsuMove p sb q Ap Ab Re (w, T) (w', T)
  | skip {w : LsuWork} {T : InstTable} {n : ℕ} :
    LsuMove p sb q Ap Ab Re (w, T) ({ w with appendReady := w.appendReady.eraseIdx n }, T)

/-! ## Handlers as moves -/

/-- The loads that `abortYoungerLoads_` aborts. -/
def abortedLoads (w : LsuWork) (ri : RenamedInst) : List RenamedInst :=
  match ((sameAddressLoads w ri).map RenamedInst.uniqueId).min? with
  | none => []
  | some minInstAge => w.replayBuffer.filter fun e => !e.inst.isStore && minInstAge ≤ e.uniqueId

theorem abortYoungerLoads_eq (p : LsuParams) (w : LsuWork) (ri : RenamedInst) :
    abortYoungerLoads p w ri = (abortedLoads w ri).foldlM (abortLoad p) w := by
  unfold abortYoungerLoads abortedLoads
  rcases ((sameAddressLoads w ri).map RenamedInst.uniqueId).min? with _ | m <;> rfl

theorem abortedLoads_sublist (w : LsuWork) (ri : RenamedInst) :
    (abortedLoads w ri).Sublist w.replayBuffer := by
  unfold abortedLoads
  split
  · exact List.nil_sublist _
  · exact List.filter_sublist

theorem load_of_abortedLoads {w : LsuWork} {ri e : RenamedInst} (he : e ∈ abortedLoads w ri) :
    e.inst.isStore = false := by
  unfold abortedLoads at he
  split at he
  · cases he
  · have hcond := (List.mem_filter.mp he).2
    simp only [Bool.and_eq_true] at hcond
    simpa using hcond.1

theorem dropInstFromPipeline_appended (p : LsuParams) (w : LsuWork) (ri : RenamedInst) :
    (dropInstFromPipeline p w ri).appended = w.appended := by
  unfold dropInstFromPipeline
  split <;> rfl

theorem dropInstFromPipeline_readyQueue (p : LsuParams) (w : LsuWork) (ri : RenamedInst) :
    (dropInstFromPipeline p w ri).readyQueue = w.readyQueue := by
  unfold dropInstFromPipeline
  split <;> rfl

theorem dropInstFromPipeline_replayBuffer (p : LsuParams) (w : LsuWork) (ri : RenamedInst) :
    (dropInstFromPipeline p w ri).replayBuffer = w.replayBuffer := by
  unfold dropInstFromPipeline
  split <;> rfl

section Handlers

open Relation

variable {p : LsuParams} {sb : Scoreboards} {q : List RenamedInst}
variable {Ap Ab : LsuWork → RenamedInst → Prop} {Re : Prop} {w w' : LsuWork} {T T' : InstTable}

/-- Only one object changes. -/
theorem LsuMove.modify {k : InstKey} {f : LoadStoreInstInfo → LoadStoreInstInfo}
    (hf : ∀ i, (f i).inReadyQueue = i.inReadyQueue ∧ (f i).phyAddrReady = i.phyAddrReady ∧
      (f i).mmuState = i.mmuState) : LsuMove p sb q Ap Ab Re (w, T) (w.modifyInfo k f, T) :=
  .note (.modifyInfo w k hf) (fun _ h => h) fun _ h => .inl h

theorem readyDependentLoads_moves {st : RenamedInst} (hspec : p.allowSpeculativeLoadExec = false)
    (hstage : w.stages p.mmuLookupStage = some st) (hstore : st.inst.isStore = true)
    (h : readyDependentLoads sb q w T = .ok (w', T')) :
    ReflTransGen (LsuMove p sb q Ap Ab Re) (w, T) (w', T') ∧ w'.stages = w.stages ∧
      ∀ k, (w'.info k).toMemoryAccessInfo = (w.info k).toMemoryAccessInfo := by
  refine (Run.foldlM_ok_induct (f := readyDependentLoad sb q)
    (I := fun l x => (∀ e ∈ l, e ∈ q) ∧ ReflTransGen (LsuMove p sb q Ap Ab Re) (w, T) x ∧
      x.1.stages = w.stages ∧
      ∀ k, (x.1.info k).toMemoryAccessInfo = (w.info k).toMemoryAccessInfo) ?_
    ⟨fun _ he => he, .refl, rfl, fun _ => rfl⟩ h).2
  rintro e l ⟨w₁, T₁⟩ ⟨w₂, T₂⟩ ⟨hl, hmoves, hstages, hinfo⟩ hone
  refine ⟨fun e' he' => hl e' (List.mem_cons_of_mem _ he'), ?_⟩
  unfold readyDependentLoad at hone
  split at hone
  · rename_i hcond
    simp only [Bool.and_eq_true, Bool.not_eq_true', beq_iff_eq] at hcond
    obtain ⟨⟨hload, hstatus⟩, hready⟩ := hcond
    obtain ⟨-, hen, rfl⟩ := makeReady_spec hone
    refine ⟨hmoves.tail (.wake (hl e List.mem_cons_self) hstatus hload hready hspec ?_ hstore hen),
      ?_, fun k => (hen.access k).trans (hinfo k)⟩
    · dsimp only at hstages
      rw [hstages]
      exact hstage
    · rw [← hstages, hen.rest]
  · obtain ⟨rfl, rfl⟩ := Prod.mk.inj (Except.ok.inj hone)
    exact ⟨hmoves, hstages, hinfo⟩

theorem handleMMULookupReq_moves (h : handleMMULookupReq p sb q w T = .ok (w', T')) :
    ReflTransGen (LsuMove p sb q Ap Ab Re) (w, T) (w', T') := by
  unfold handleMMULookupReq at h
  split at h
  · obtain ⟨rfl, rfl⟩ := Prod.mk.inj (Except.ok.inj h)
    exact .refl
  · rename_i ri hstage
    split at h
    · obtain ⟨rfl, rfl⟩ := Prod.mk.inj (Except.ok.inj h)
      exact .refl
    · rename_i hmiss
      dsimp only at h
      split at h
      · rename_i hcond
        obtain ⟨⟨w₁, T₁⟩, hloads, h⟩ := Run.bind_eq_ok.mp h
        obtain ⟨rfl, rfl⟩ := Prod.mk.inj (Except.ok.inj h)
        simp only [Bool.and_eq_true, Bool.not_eq_true'] at hcond
        obtain ⟨hmoves, hstages, hinfo⟩ : ReflTransGen (LsuMove p sb q Ap Ab Re) (w, T) (w₁, T₁) ∧
            w₁.stages = w.stages ∧
              ∀ k, (w₁.info k).toMemoryAccessInfo = (w.info k).toMemoryAccessInfo :=
          readyDependentLoads_moves hcond.1 hstage hcond.2 hloads
        refine hmoves.tail (.request ?_ ?_)
        · rw [hstages]
          exact hstage
        · rw [hinfo]
          exact hmiss
      · obtain ⟨rfl, rfl⟩ := Prod.mk.inj (Except.ok.inj h)
        exact .single (.request hstage hmiss)

theorem abortYoungerLoads_moves {ri : RenamedInst}
    (hnodup : (w.replayBuffer.map RenamedInst.key).Nodup)
    (hok : ∀ w₁ e, w₁.appended = w.appended → e ∈ abortedLoads w ri → Ab w₁ e)
    (h : abortYoungerLoads p w ri = .ok w') :
    ReflTransGen (LsuMove p sb q Ap Ab Re) (w, T) (w', T) := by
  rw [abortYoungerLoads_eq] at h
  have hsub := abortedLoads_sublist w ri
  refine (Run.foldlM_ok_induct (f := abortLoad p)
    (I := fun l w₁ => (l.map RenamedInst.key).Nodup ∧
      (∀ e ∈ l, e ∈ abortedLoads w ri ∧ e ∈ w₁.replayBuffer) ∧ w₁.appended = w.appended ∧
      ReflTransGen (LsuMove p sb q Ap Ab Re) (w, T) (w₁, T)) ?_
    ⟨hnodup.sublist (hsub.map _), fun e he => ⟨he, hsub.subset he⟩, rfl, .refl⟩ h).2.2.2
  rintro e l w₁ w₂ ⟨hl, hmem, happ, hmoves⟩ hone
  rw [List.map_cons] at hl
  obtain ⟨hne, hl⟩ := List.nodup_cons.mp hl
  obtain ⟨hab, hrep⟩ := hmem e List.mem_cons_self
  obtain ⟨w₃, hw₃, hone⟩ := Run.bind_eq_ok.mp hone
  obtain rfl := Except.ok.inj hone
  have hen : Enqueued w₁ e w₃ :=
    (appendToReadyQueue_spec hw₃).of_modifyInfo (by simp)
  refine ⟨hl, fun e' he' => ⟨(hmem e' (List.mem_cons_of_mem _ he')).1, ?_⟩, ?_,
    hmoves.tail (.abort hrep (load_of_abortedLoads hab) (hok w₁ e happ hab) hen)⟩
  · -- another load stays in the replay buffer
    refine List.mem_filter.mpr ⟨?_, ?_⟩
    · rw [dropInstFromPipeline_replayBuffer, hen.rest]
      exact (hmem e' (List.mem_cons_of_mem _ he')).2
    · simp only [ne_eq, decide_not, Bool.not_eq_true', decide_eq_false_iff_not]
      intro hkey
      exact hne (List.mem_map.mpr ⟨e', he', hkey⟩)
  · show (dropInstFromPipeline p w₃ e).appended = _
    rw [dropInstFromPipeline_appended, hen.rest]
    exact happ

theorem getAckFromMMU_moves {n : ℕ} {hit : Bool}
    (hnodup : (w.replayBuffer.map RenamedInst.key).Nodup)
    (hok : ∀ w₁ ri e, hit = true → w.mmuRequests[n]? = some ri → ri.inst.isStore = true →
      p.allowSpeculativeLoadExec = true → w₁.appended = w.appended → e ∈ abortedLoads w ri →
        Ab w₁ e)
    (h : getAckFromMMU p w n hit = some (.ok w')) :
    ReflTransGen (LsuMove p sb q Ap Ab Re) (w, T) (w', T) := by
  obtain ⟨ri, hri, h⟩ := Option.map_eq_some_iff.mp h
  refine .head (@LsuMove.translate p sb q Ap Ab Re w T n ri hit hri) ?_
  rcases ite_eq_iff.mp h with ⟨hcond, h⟩ | ⟨-, h⟩
  · simp only [Bool.and_eq_true] at hcond
    exact abortYoungerLoads_moves hnodup
      (fun w₁ e happ he => hok w₁ ri e hcond.1.2 hri hcond.1.1.2 hcond.2 happ he) h
  · obtain rfl := Except.ok.inj h
    exact .refl

theorem reloadEntry_moves {ri e : RenamedInst} (he : e ∈ q)
    (hstatus : T.status ri.key ≠ .dispatched) :
    ReflTransGen (LsuMove p sb q Ap Ab Re) (w, T) (reloadEntry p ri w e, T) := by
  unfold reloadEntry
  have hfirst : ReflTransGen (LsuMove p sb q Ap Ab Re) (w, T)
      (if (w.info e.key).mmuState = .miss then
        w.modifyInfo e.key fun i => { i with
          state := if p.allowSpeculativeLoadExec then i.state else .ready
          priority := .mmuPending }
      else w, T) := by
    split
    · exact .single (.modify (by simp))
    · exact .refl
  dsimp only
  split
  · rename_i hkey
    refine (hfirst.tail (.modify (by simp))).tail
      (.push he ?_)
    rw [hkey]
    exact hstatus
  · exact hfirst

theorem handleMMUReadyReq_moves (hstarted : ∀ ri ∈ w.mmuPending, T.status ri.key ≠ .dispatched)
    (h : handleMMUReadyReq p q w T = some (.ok w')) :
    ReflTransGen (LsuMove p sb q Ap Ab Re) (w, T) (w', T) := by
  obtain ⟨ri, hri, h⟩ := Option.map_eq_some_iff.mp h
  have hloop : ReflTransGen (LsuMove p sb q Ap Ab Re) (w, T)
      (q.foldl (reloadEntry p ri) { w with mmuPending := none }, T) := by
    refine List.foldlRecOn (motive := fun w₁ => ReflTransGen _ (w, T) (w₁, T)) q _
      (.single (.note (.refl w) (by simp) fun _ => .inl)) ?_
    exact fun w₁ hmoves e he => hmoves.trans (reloadEntry_moves he (hstarted ri hri))
  obtain ⟨-, -, h⟩ := Run.bind_eq_ok.mp h
  rcases Run.of_ite h with h | h
  · obtain rfl := Except.ok.inj h
    exact hloop
  · obtain rfl := Except.ok.inj h
    split
    · exact hloop.tail .unreplay
    · exact hloop

theorem reloadEntry_rest (ri e : RenamedInst) (w : LsuWork) :
    reloadEntry p ri w e = { w with
      info := (reloadEntry p ri w e).info, appendReady := (reloadEntry p ri w e).appendReady } := by
  unfold reloadEntry
  dsimp only
  split
  · split <;> rfl
  · split <;> rfl

theorem handleMMUReadyReq_rest (h : handleMMUReadyReq p q w T = some (.ok w')) :
    w' = { w with
      info := w'.info, replayBuffer := w'.replayBuffer, appendReady := w'.appendReady
      mmuPending := none } := by
  obtain ⟨ri, hri, h⟩ := Option.map_eq_some_iff.mp h
  have hloop : ∀ l : List RenamedInst, ∃ info a,
      l.foldl (reloadEntry p ri) { w with mmuPending := none } =
        { w with info := info, appendReady := a, mmuPending := none } := by
    intro l
    induction l using List.reverseRecOn with
    | nil => exact ⟨_, _, rfl⟩
    | append_singleton l e ih =>
      obtain ⟨info, a, ih⟩ := ih
      rw [List.foldl_append, ih]
      exact ⟨_, _, reloadEntry_rest ri e _⟩
  obtain ⟨info, a, hl⟩ := hloop q
  dsimp only at h
  rw [hl] at h
  obtain ⟨-, -, h⟩ := Run.bind_eq_ok.mp h
  split at h
  · obtain rfl := Except.ok.inj h
    rfl
  · split at h
    · obtain rfl := Except.ok.inj h
      rfl
    · obtain rfl := Except.ok.inj h
      rfl

theorem handleCacheReadyReq_rest {n : ℕ} (h : handleCacheReadyReq q w T n = some (.ok w')) :
    w' = { w with
      info := w'.info, replayBuffer := w'.replayBuffer, appendReady := w'.appendReady } := by
  obtain ⟨ri, hri, h⟩ := Option.map_eq_some_iff.mp h
  split at h
  · obtain rfl := Except.ok.inj h
    rfl
  · obtain ⟨-, -, h⟩ := Run.bind_eq_ok.mp h
    obtain rfl := Except.ok.inj h
    rfl

theorem scheduleReplay_flag {ri : RenamedInst} (k : InstKey) :
    ((scheduleReplay p w ri).info k).inReadyQueue = (w.info k).inReadyQueue := by
  unfold scheduleReplay
  split
  · exact (Noted.modifyInfo w ri.key (f := fun i => { i with state := .notReady })
      (fun _ => ⟨rfl, rfl, rfl⟩) k).1
  · rfl

theorem scheduleReplay_access {ri : RenamedInst} (k : InstKey) :
    ((scheduleReplay p w ri).info k).toMemoryAccessInfo = (w.info k).toMemoryAccessInfo := by
  unfold scheduleReplay
  split
  · by_cases hk : k = ri.key
    · subst hk
      simp [updateInstReplayReady, LsuWork.removeFromReplay, LsuWork.modifyInfo]
    · simp [updateInstReplayReady, LsuWork.removeFromReplay, LsuWork.modifyInfo, hk]
  · rfl

theorem bounce_access {n : ℕ} {ri : RenamedInst} (h : bounce w n ri = .ok w') (k : InstKey) :
    (w'.info k).toMemoryAccessInfo = (w.info k).toMemoryAccessInfo := by
  unfold bounce at h
  dsimp only at h
  split at h
  · obtain ⟨w₁, hw₁, h⟩ := Run.bind_eq_ok.mp h
    obtain rfl := Except.ok.inj h
    exact (appendToReadyQueue_spec hw₁).access k
  · obtain rfl := Except.ok.inj h
    rfl

theorem bounce_move {n : ℕ} {ri : RenamedInst}
    (hn : n = p.cacheLookupStage ∨ n = p.cacheReadStage ∧ Re) (hri : w.stages n = some ri)
    (h : bounce (scheduleReplay p w ri) n ri = .ok w') :
    LsuMove p sb q Ap Ab Re (w, T) (w', T) := by
  unfold bounce at h
  rw [scheduleReplay_flag] at h
  dsimp only at h
  split at h
  · obtain ⟨w₁, hw₁, h⟩ := Run.bind_eq_ok.mp h
    obtain rfl := Except.ok.inj h
    exact .bounce hn hri (.inr (appendToReadyQueue_spec hw₁))
  · rename_i hflag
    obtain rfl := Except.ok.inj h
    exact .bounce hn hri (.inl ⟨rfl, by simpa using hflag⟩)

/-- What `handleCacheLookupReq_` can do. -/
inductive CacheLookup (p : LsuParams) (q storeBuffer : List RenamedInst) (w : LsuWork)
    (T : InstTable) : LsuWork × InstTable → Prop where
  | idle (h : w.stages p.cacheLookupStage = none) : CacheLookup p q storeBuffer w T (w, T)
  | miss {ri : RenamedInst} {w' : LsuWork} (hri : w.stages p.cacheLookupStage = some ri)
      (hphy : (w.info ri.key).phyAddrReady = false)
      (h : bounce (scheduleReplay p w ri) p.cacheLookupStage ri = .ok w') :
    CacheLookup p q storeBuffer w T (w', T)
  /-- A store has its translation. -/
  | store {ri : RenamedInst} (hri : w.stages p.cacheLookupStage = some ri)
      (hphy : (w.info ri.key).phyAddrReady = true) (hstore : ri.inst.isStore = true)
      (hst : T.status ri.key = .scheduled) :
    CacheLookup p q storeBuffer w T
      (scheduleReplay p ((w.modifyInfo ri.key fun i => { i with state := .ready }).invalidateStage
        p.cacheLookupStage) ri, T.setStatus ri.key .completed)
  /-- A speculative load waits for an older store. -/
  | wait {ri : RenamedInst} (hri : w.stages p.cacheLookupStage = some ri)
      (hload : ri.inst.isStore = false) (holder : allOlderStoresIssued q w ri = false)
      (hspec : p.allowSpeculativeLoadExec = true) :
    CacheLookup p q storeBuffer w T
      (scheduleReplay p ((w.modifyInfo ri.key fun i => { i with state := .ready }).invalidateStage
        p.cacheLookupStage) ri, T)
  | forward {ri : RenamedInst} (hri : w.stages p.cacheLookupStage = some ri)
      (hphy : (w.info ri.key).phyAddrReady = true) (hload : ri.inst.isStore = false)
      (holder : p.allowSpeculativeLoadExec = false ∨ allOlderStoresIssued q w ri = true)
      (hallowed : p.allowDataForwarding = true)
      (hfound : tryStoreToLoadForwarding storeBuffer ri.inst = true) :
    CacheLookup p q storeBuffer w T
      (w.modifyInfo ri.key fun i => { i with dataReady := true, cacheState := .hit }, T)
  | bypass {ri : RenamedInst} (hri : w.stages p.cacheLookupStage = some ri)
      (h : (w.info ri.key).cacheState = .hit ∨
        ri.inst.isStore = true ∧ T.status ri.key ≠ .retired) :
    CacheLookup p q storeBuffer w T (w, T)
  | request {ri : RenamedInst} (hri : w.stages p.cacheLookupStage = some ri)
      (hphy : (w.info ri.key).phyAddrReady = true)
      (hmiss : (w.info ri.key).cacheState ≠ .hit)
      (hstore : ri.inst.isStore = true → T.status ri.key = .retired) :
    CacheLookup p q storeBuffer w T ({ w with cacheRequests := w.cacheRequests ++ [ri] }, T)

theorem handleCacheLookupReq_cases {storeBuffer : List RenamedInst}
    (h : handleCacheLookupReq p q storeBuffer w T = .ok (w', T')) :
    CacheLookup p q storeBuffer w T (w', T') := by
  unfold handleCacheLookupReq at h
  split at h
  · rename_i hnone
    obtain ⟨rfl, rfl⟩ := Prod.mk.inj (Except.ok.inj h)
    exact .idle hnone
  · rename_i ri hri
    dsimp only at h
    split at h
    · rename_i hphy
      obtain ⟨w₁, hw₁, h⟩ := Run.bind_eq_ok.mp h
      obtain ⟨rfl, rfl⟩ := Prod.mk.inj (Except.ok.inj h)
      exact .miss hri (by simpa using hphy) hw₁
    · rename_i hphy
      have hphy : (w.info ri.key).phyAddrReady = true := by simpa using hphy
      split at h
      · rename_i hdone
        obtain ⟨rfl, rfl⟩ := Prod.mk.inj (Except.ok.inj h)
        simp only [Bool.and_eq_true, beq_iff_eq] at hdone
        exact .store hri hphy hdone.1 hdone.2
      · split at h
        · rename_i hwait
          obtain ⟨rfl, rfl⟩ := Prod.mk.inj (Except.ok.inj h)
          simp only [Bool.and_eq_true, Bool.not_eq_true'] at hwait
          exact .wait hri hwait.1.1 hwait.1.2 hwait.2
        · rename_i hwait
          split at h
          · rename_i hfwd
            obtain ⟨rfl, rfl⟩ := Prod.mk.inj (Except.ok.inj h)
            simp only [Bool.and_eq_true, Bool.not_eq_true'] at hfwd
            refine .forward hri hphy hfwd.1.1 ?_ hfwd.1.2 hfwd.2
            by_contra hno
            simp only [not_or, Bool.not_eq_true, Bool.not_eq_false] at hno
            exact hwait (by simp [hfwd.1.1, hno.1, hno.2])
          · split at h
            · rename_i hbypass
              obtain ⟨rfl, rfl⟩ := Prod.mk.inj (Except.ok.inj h)
              exact .bypass hri hbypass
            · rename_i hbypass
              obtain ⟨rfl, rfl⟩ := Prod.mk.inj (Except.ok.inj h)
              refine .request hri hphy (fun hhit => hbypass (.inl hhit)) fun hstore => ?_
              by_contra hst
              exact hbypass (.inr ⟨hstore, hst⟩)

theorem handleCacheLookupReq_moves {storeBuffer : List RenamedInst}
    (h : handleCacheLookupReq p q storeBuffer w T = .ok (w', T')) :
    ReflTransGen (LsuMove p sb q Ap Ab Re) (w, T) (w', T') := by
  have hnote : ∀ k, LsuMove p sb q Ap Ab Re (w, T)
      (w.modifyInfo k fun i => { i with state := .ready }, T) := fun _ => .modify (by simp)
  cases handleCacheLookupReq_cases h with
  | idle _ => exact .refl
  | miss hri _ hbounce => exact .single (bounce_move (.inl rfl) hri hbounce)
  | store hri _ hstore hst => exact .tail (.single (hnote _)) (.leave hri (.inr ⟨hstore, hst, rfl⟩))
  | wait hri _ _ _ => exact .tail (.single (hnote _)) (.leave hri (.inl rfl))
  | forward _ _ _ _ _ _ => exact .single (.modify (by simp))
  | bypass _ _ => exact .refl
  | @request ri hri _ _ _ =>
    refine .single (.note (.refl w) (fun _ h => h) fun e he => ?_)
    rcases List.mem_append.mp he with he | he
    · exact .inl he
    · rw [List.mem_singleton.mp he]
      exact .inr hri

theorem getAckFromCache_moves {n : ℕ} {cacheState : CacheState}
    (hqueue : ∀ ri ∈ w.cacheRequests, inQueue q ri = true → ri ∈ q)
    (hstarted : ∀ ri ∈ w.cacheRequests, T.status ri.key ≠ .dispatched)
    (h : getAckFromCache q w n cacheState = some w') :
    ReflTransGen (LsuMove p sb q Ap Ab Re) (w, T) (w', T) := by
  obtain ⟨ri, hri, h⟩ := Option.map_eq_some_iff.mp h
  have hfirst : LsuMove p sb q Ap Ab Re (w, T)
      (w.modifyInfo ri.key fun i => { i with cacheState := cacheState }, T) :=
    .modify (by simp)
  refine .head hfirst ?_
  dsimp only at h
  split at h
  · subst h
    exact .refl
  · rename_i hin
    split at h
    · subst h
      exact .refl
    · refine .head (.modify (k := ri.key) (f := fun i => { i with
        state := if i.state ≠ .issued then .ready else i.state
        priority := .cacheReload }) (by simp)) ?_
      split at h
      · subst h
        have hmem := List.mem_of_getElem? hri
        exact .single (.push (hqueue ri hmem (by simpa using hin)) (hstarted ri hmem))
      · subst h
        exact .refl

theorem handleCacheReadyReq_moves {n : ℕ}
    (hqueue : ∀ ri ∈ w.cacheRequests, inQueue q ri = true → ri ∈ q)
    (hstarted : ∀ ri ∈ w.cacheRequests, T.status ri.key ≠ .dispatched)
    (h : handleCacheReadyReq q w T n = some (.ok w')) :
    ReflTransGen (LsuMove p sb q Ap Ab Re) (w, T) (w', T) := by
  obtain ⟨ri, hri, h⟩ := Option.map_eq_some_iff.mp h
  rcases Run.of_ite h with h | h
  · obtain rfl := Except.ok.inj h
    exact .refl
  · obtain ⟨u, hin, h⟩ := Run.bind_eq_ok.mp h
    obtain rfl := Except.ok.inj h
    refine .head (.modify (k := ri.key) (f := fun i => { i with
      state := if i.state ≠ .issued then .ready else i.state
      priority := .cacheReload }) (by simp)) ?_
    have hmem := List.mem_of_getElem? hri
    exact .head (.push (hqueue ri hmem (by simpa using hin)) (hstarted ri hmem))
      (.single .unreplay)

theorem handleCacheRead_moves (hRe : Re) (h : handleCacheRead p w = .ok w') :
    ReflTransGen (LsuMove p sb q Ap Ab Re) (w, T) (w', T) := by
  unfold handleCacheRead at h
  split at h
  · obtain rfl := Except.ok.inj h
    exact .refl
  · rename_i ri hri
    split at h
    · exact .single (bounce_move (.inr ⟨rfl, hRe⟩) hri h)
    · split at h
      · obtain rfl := Except.ok.inj h
        exact .refl
      · obtain rfl := Except.ok.inj h
        exact .single (.modify (by simp))

theorem replayReady_moves {n : ℕ} (h : replayReady w n = some w') :
    ReflTransGen (LsuMove p sb q Ap Ab Re) (w, T) (w', T) := by
  obtain ⟨ri, hri, rfl⟩ := Option.map_eq_some_iff.mp h
  refine .head (.modify (k := ri.key) (f := fun i => { i with
    state := if i.state = .notReady then .ready else i.state
    priority := if i.phyAddrReady then .cachePending else .mmuPending }) (by simp))
    (.single (.replay hri))

theorem appendReady_move {n : ℕ}
    (hok : ∀ ri, w.appendReady[n]? = some ri → (w.info ri.key).inReadyQueue = false →
      inQueue w.replayBuffer ri = false → Ap w ri)
    (h : appendReady w n = some (.ok w')) : LsuMove p sb q Ap Ab Re (w, T) (w', T) := by
  obtain ⟨ri, hri, h⟩ := Option.map_eq_some_iff.mp h
  dsimp only at h
  split at h
  · rename_i hcond
    simp only [Bool.and_eq_true, Bool.not_eq_true'] at hcond
    exact .append hri hcond.2 (hok ri hri hcond.1 hcond.2) (appendToReadyQueue_spec h)
  · obtain rfl := Except.ok.inj h
    exact .skip

/-- Every handler but a ready callback is a sequence of moves. -/
theorem workStep_moves {s : LsuState} {op : LsuOp} (hcallback : ∀ i, op ≠ .callback i)
    (hadvance : op ≠ .advance) (hnodup : (s.work.replayBuffer.map RenamedInst.key).Nodup)
    (hqueue : ∀ ri ∈ s.work.cacheRequests, inQueue s.ldstInstQueue ri = true →
      ri ∈ s.ldstInstQueue)
    (hpending : ∀ ri ∈ s.work.mmuPending, T.status ri.key ≠ .dispatched)
    (hrequests : ∀ ri ∈ s.work.cacheRequests, T.status ri.key ≠ .dispatched)
    (hAp : ∀ n ri, op = .appendReady n → s.work.appendReady[n]? = some ri →
      (s.work.info ri.key).inReadyQueue = false → inQueue s.work.replayBuffer ri = false →
        Ap s.work ri)
    (hAb : ∀ n w₁ ri e, op = .mmuAck n true → s.work.mmuRequests[n]? = some ri →
      ri.inst.isStore = true → p.allowSpeculativeLoadExec = true →
        w₁.appended = s.work.appended → e ∈ abortedLoads s.work ri → Ab w₁ e)
    (hRe : op = .cacheRead → Re)
    (h : workStep p s T sb op = .ok (w', T')) :
    ReflTransGen (LsuMove p sb s.ldstInstQueue Ap Ab Re) (s.work, T) (w', T') := by
  rcases op with i | _ | _ | ⟨i, hit⟩ | _ | _ | ⟨i, cs⟩ | i | _ | i | i
  case callback => exact absurd rfl (hcallback i)
  case advance => exact absurd rfl hadvance
  case mmuLookup => exact handleMMULookupReq_moves (checked_eq_ok.mp h)
  case mmuAck =>
    obtain ⟨w₁, hw₁, h⟩ := Run.bind_eq_ok.mp h
    obtain ⟨rfl, rfl⟩ := Prod.mk.inj (Except.ok.inj h)
    refine getAckFromMMU_moves hnodup (fun w₂ ri e hhit hri hstore hspec happ he => ?_)
      (outstanding_eq_ok.mp hw₁)
    subst hhit
    exact hAb i w₂ ri e rfl hri hstore hspec happ he
  case mmuReady =>
    obtain ⟨w₁, hw₁, h⟩ := Run.bind_eq_ok.mp h
    obtain ⟨rfl, rfl⟩ := Prod.mk.inj (Except.ok.inj h)
    exact handleMMUReadyReq_moves hpending (outstanding_eq_ok.mp hw₁)
  case cacheLookup => exact handleCacheLookupReq_moves (checked_eq_ok.mp h)
  case cacheAck =>
    obtain ⟨w₁, hw₁, h⟩ := Run.bind_eq_ok.mp h
    obtain ⟨rfl, rfl⟩ := Prod.mk.inj (Except.ok.inj h)
    obtain ⟨w₂, hw₂, heq⟩ := Option.map_eq_some_iff.mp (outstanding_eq_ok.mp hw₁)
    obtain rfl := Except.ok.inj heq
    exact getAckFromCache_moves hqueue hrequests hw₂
  case cacheReady =>
    obtain ⟨w₁, hw₁, h⟩ := Run.bind_eq_ok.mp h
    obtain ⟨rfl, rfl⟩ := Prod.mk.inj (Except.ok.inj h)
    exact handleCacheReadyReq_moves hqueue hrequests (outstanding_eq_ok.mp hw₁)
  case cacheRead =>
    obtain ⟨w₁, hw₁, h⟩ := Run.bind_eq_ok.mp h
    obtain ⟨rfl, rfl⟩ := Prod.mk.inj (Except.ok.inj h)
    exact handleCacheRead_moves (hRe rfl) (checked_eq_ok.mp hw₁)
  case replayReady =>
    obtain ⟨w₁, hw₁, h⟩ := Run.bind_eq_ok.mp h
    obtain ⟨rfl, rfl⟩ := Prod.mk.inj (Except.ok.inj h)
    obtain ⟨w₂, hw₂, heq⟩ := Option.map_eq_some_iff.mp (outstanding_eq_ok.mp hw₁)
    obtain rfl := Except.ok.inj heq
    exact replayReady_moves hw₂
  case appendReady =>
    obtain ⟨w₁, hw₁, h⟩ := Run.bind_eq_ok.mp h
    obtain ⟨rfl, rfl⟩ := Prod.mk.inj (Except.ok.inj h)
    exact .single (appendReady_move (fun ri hri => hAp i ri rfl hri) (outstanding_eq_ok.mp hw₁))

end Handlers

end Lsu

/-! ## The steps of the system -/

open Lsu

namespace LsuSystem

variable {p : LsuParams} {s s' : LsuSystem} {op : LsuSystemOp}

/-- What a step has done.  The issue event is scheduled at most when the LSU is ready to issue. -/
inductive Stepped (p : LsuParams) (s : LsuSystem) : LsuSystemOp → LsuSystem → Prop where
  | dispatch {ri : RenamedInst} {stale i : Bool} {w : LsuWork} {T : InstTable}
      (hphase : s.phase = .portUpdate) (hnext : s.isNext ri = true)
      (hcheck : OperandCheck p s.sb (s.queue ++ [ri])
        (s.work.modifyInfo ri.key fun _ => { inReadyQueue := stale })
        (s.table.setStatus ri.key .dispatched) ri (w, T))
      (hi : i = true → s.issueNow = true ∨ isReadyToIssueInsts p w = true) :
    Stepped p s (.dispatch ri stale) { s with
      lsu := {
        ldstInstQueue := s.queue ++ [ri]
        storeBuffer :=
          if ri.inst.isStore then s.lsu.storeBuffer ++ [ri] else s.lsu.storeBuffer
        work := w }
      table := T
      dispatched := s.dispatched ++ [ri]
      issueNow := i }
  | retire {n : ℕ} {ri : RenamedInst} (hri : s.dispatched[n]? = some ri)
      (hphase : s.phase = .tick) (hstatus : s.table.status ri.key = .completed) :
    Stepped p s (.retire n) { s with
      table := s.table.setStatus ri.key .retired
      acks := if ri.inst.isStore then s.acks ++ [ri] else s.acks }
  | robAck {ri : RenamedInst} {rest buffer : List RenamedInst} {i : Bool}
      {f : LoadStoreInstInfo → LoadStoreInstInfo} (hphase : s.phase = .portUpdate)
      (hacks : s.acks = ri :: rest) (hin : inQueue s.queue ri = true)
      (hf : ∀ i, (f i).inReadyQueue = i.inReadyQueue ∧ (f i).phyAddrReady = i.phyAddrReady ∧
        (f i).mmuState = i.mmuState)
      (hi : i = true → s.issueNow = true ∨ isReadyToIssueInsts p s.work = true) :
    Stepped p s .robAck { s with
      lsu := {
        ldstInstQueue := s.queue
        storeBuffer := buffer
        work := { s.work.modifyInfo ri.key f with
          appendReady := s.work.appendReady ++ [ri] } }
      acks := rest
      issueNow := i }
  | flush {c : FlushingCriteria} {i j : Bool} (hphase : s.phase = .portUpdate)
      (hretired : ∀ e ∈ s.dispatched, c.includedInFlush e.inst = true →
        s.table.status e.key ≠ .retired)
      (hi : i = true ∨ j = true → isReadyToIssueInsts p (handleFlush s.lsu c).1.work = true)
      (hj : j = true → s.issueNext = true) :
    Stepped p s (.flush c) { s with
      lsu := (handleFlush s.lsu c).1
      table := s.table.setStatuses
        ((s.dispatched.filter fun e => c.includedInFlush e.inst).map RenamedInst.key) .flushed
      issueNow := i
      issueNext := j }
  | setBits {f : RegFile} {mask : RegisterBitMask} :
    Stepped p s (.setBits f mask)
      { s with sb := Function.update s.sb f ((s.sb f).setReady mask) }
  | clearBits {f : RegFile} {mask : RegisterBitMask}
      (hclear : ∀ e ∈ s.queue, Disjoint mask (e.srcMask f ∪ e.dataMask f)) :
    Stepped p s (.clearBits f mask)
      { s with sb := Function.update s.sb f ((s.sb f).clearBits mask) }
  | lookupInst {ri : RenamedInst} (hphase : s.phase = .tick)
      (hpending : s.work.mmuPending = some ri) :
    Stepped p s .lookupInst
      { s.setWork { s.work with mmuPending := none } with reloads := s.reloads ++ [ri] }
  | mmuReady {ri : RenamedInst} {rest : List RenamedInst} {w : LsuWork} {i : Bool}
      (hphase : s.phase = .portUpdate) (hreloads : s.reloads = ri :: rest)
      (h : handleMMUReadyReq p s.queue { s.work with mmuPending := some ri } s.table =
        some (.ok w))
      (hi : i = true → s.issueNow = true ∨ isReadyToIssueInsts p w = true) :
    Stepped p s .mmuReady { s.setWork { w with mmuPending := s.work.mmuPending } with
      reloads := rest, issueNow := i }
  | issueInst {w : LsuWork} {ri : RenamedInst} {j : Bool} (hcan : s.canRun .issueInst = true)
      (hnow : s.issueNow = true) (h : Lsu.issueInst p s.work = .ok (w, ri))
      (hj : j = true → s.issueNext = true ∨ isReadyToIssueInsts p w = true) :
    Stepped p s .issueInst { s.setWork w with
      done := s.done ++ [.issueInst], issueNow := false, issueNext := j }
  | addressCalculation {i : Bool} (hcan : s.canRun .addressCalculation = true)
      (hi : i = true → s.issueNow = true ∨ isReadyToIssueInsts p s.work = true) :
    Stepped p s .addressCalculation
      { s with done := s.done ++ [.addressCalculation], issueNow := i }
  | complete {out : CompleteOut} {i : Bool} (hcan : s.canRun .complete = true)
      (h : completeInst p s.lsu s.table s.sb = .ok out)
      (hi : i = true → s.issueNow = true ∨ isReadyToIssueInsts p s.work = true) :
    Stepped p s .complete { s with
      lsu := out.state
      table := out.table
      sb := out.scoreboards
      done := s.done ++ [.complete]
      issueNow := i }
  | callback {n : ℕ} {cb : LsuCallback} {w : LsuWork} {T : InstTable} {i : Bool}
      (hcb : s.work.callbacks[n]? = some cb) (hdue : s.due cb = true)
      (hcheck : OperandCheck p s.sb s.queue
        { s.work with callbacks := s.work.callbacks.eraseIdx n } s.table cb.inst (w, T))
      (hi : i = true → s.issueNow = true ∨ isReadyToIssueInsts p w = true) :
    Stepped p s (.work (.callback n)) { s.setWork w with table := T, issueNow := i }
  | work {op : LsuOp} {w : LsuWork} {T : InstTable} {i : Bool} (hen : s.workEnabled op = true)
      (hcallback : ∀ n, op ≠ .callback n) (h : workStep p s.lsu s.table s.sb op = .ok (w, T))
      (hi : i = true → s.issueNow = true ∨ isReadyToIssueInsts p w = true) :
    Stepped p s (.work op) { s.setWork w with
      table := T, done := s.done ++ (event op).toList, issueNow := i }
  | tick (hphase : s.phase = .portUpdate) : Stepped p s .tick { s with phase := .tick }
  | nextCycle (hover : s.cycleOver p = true) :
    Stepped p s .nextCycle { s.setWork s.work.advance with
      phase := .portUpdate, done := [], issueNow := s.issueNext, issueNext := false }

/-- The issue event is scheduled only if the condition holds. -/
theorem of_scheduleIssue {b : Bool} {c : Prop} (hb : b = true → c)
    (h : (s.scheduleIssue b).issueNow = true) : s.issueNow = true ∨ c := by
  simp only [scheduleIssue, Bool.or_eq_true, Bool.and_eq_true] at h
  exact h.imp id fun h => hb h.1

theorem stepped_of_callback {n : ℕ} (h : s.step p (.work (.callback n)) = .ok s') :
    Stepped p s (.work (.callback n)) s' := by
  obtain ⟨-, -, h⟩ := Run.bind_eq_ok.mp h
  obtain ⟨⟨w, T⟩, hw, h⟩ := Run.bind_eq_ok.mp h
  obtain rfl := Except.ok.inj h
  have hw : readyCallback p s.sb s.queue s.work s.table n = some (.ok (w, T)) :=
    outstanding_eq_ok.mp hw
  unfold readyCallback at hw
  split at hw
  · cases hw
  · rename_i cb hcb
    split at hw
    · rename_i hdue
      rw [show s.done ++ (event (.callback n)).toList = s.done from List.append_nil _]
      exact .callback hcb hdue (handleOperandIssueCheck_cases (Option.some.inj hw))
        (of_scheduleIssue fun h => (Bool.and_eq_true_iff.mp h).2)
    · cases hw

theorem step_stepped (h : s.step p op = .ok s') : Stepped p s op s' := by
  cases op with
  | dispatch ri stale =>
    obtain ⟨u, hen, h⟩ := Run.bind_eq_ok.mp h
    obtain ⟨⟨lsu, T⟩, hlsu, h⟩ := Run.bind_eq_ok.mp h
    obtain rfl := Except.ok.inj h
    simp only [enabled_eq_ok, Bool.and_eq_true, decide_eq_true_eq] at hen
    obtain ⟨-, -, hlsu⟩ := Run.bind_eq_ok.mp (checked_eq_ok.mp hlsu)
    obtain ⟨-, -, hlsu⟩ := Run.bind_eq_ok.mp hlsu
    obtain ⟨⟨w, T₁⟩, hw, hlsu⟩ := Run.bind_eq_ok.mp hlsu
    obtain ⟨rfl, rfl⟩ := Prod.mk.inj (Except.ok.inj hlsu)
    exact .dispatch hen.1 hen.2 (handleOperandIssueCheck_cases hw)
      (of_scheduleIssue fun h => (Bool.and_eq_true_iff.mp h).2)
  | retire n =>
    simp only [step] at h
    split at h
    · cases h
    · rename_i ri hri
      obtain ⟨u, hen, h⟩ := Run.bind_eq_ok.mp h
      obtain rfl := Except.ok.inj h
      simp only [enabled_eq_ok, Bool.and_eq_true, decide_eq_true_eq, beq_iff_eq] at hen
      exact .retire hri hen.1 hen.2
  | robAck =>
    obtain ⟨u, hen, h⟩ := Run.bind_eq_ok.mp h
    split at h
    · cases h
    · rename_i ri rest hacks
      obtain ⟨lsu, hlsu, h⟩ := Run.bind_eq_ok.mp h
      obtain rfl := Except.ok.inj h
      obtain ⟨-, -, hlsu⟩ := Run.bind_eq_ok.mp (checked_eq_ok.mp hlsu)
      obtain ⟨-, -, hlsu⟩ := Run.bind_eq_ok.mp hlsu
      obtain ⟨u', hin, hlsu⟩ := Run.bind_eq_ok.mp hlsu
      obtain rfl := Except.ok.inj hlsu
      exact .robAck (by simpa using hen) hacks (spartaAssert_eq_ok.mp hin) (by simp)
        (of_scheduleIssue id)
  | flush c =>
    obtain ⟨u, hen, h⟩ := Run.bind_eq_ok.mp h
    obtain rfl := Except.ok.inj h
    simp only [enabled_eq_ok, Bool.and_eq_true, decide_eq_true_eq, List.all_eq_true] at hen
    refine .flush hen.1 (fun e he hinc => ?_) (fun h => ?_)
      fun h => (Bool.and_eq_true_iff.mp h).1
    · have hcond := hen.2 e he
      simpa [hinc] using hcond
    · exact h.elim (fun h => (Bool.and_eq_true_iff.mp h).2) fun h => (Bool.and_eq_true_iff.mp h).2
  | setBits f mask =>
    obtain rfl := Except.ok.inj h
    exact .setBits
  | clearBits f mask =>
    obtain ⟨u, hen, h⟩ := Run.bind_eq_ok.mp h
    obtain rfl := Except.ok.inj h
    simp only [enabled_eq_ok, List.all_eq_true, decide_eq_true_eq] at hen
    exact .clearBits hen
  | lookupInst =>
    obtain ⟨u, hen, h⟩ := Run.bind_eq_ok.mp h
    split at h
    · cases h
    · rename_i ri hpending
      obtain rfl := Except.ok.inj h
      exact .lookupInst (by simpa using hen) hpending
  | mmuReady =>
    obtain ⟨u, hen, h⟩ := Run.bind_eq_ok.mp h
    split at h
    · cases h
    · rename_i ri rest hreloads
      obtain ⟨w, hw, h⟩ := Run.bind_eq_ok.mp h
      obtain rfl := Except.ok.inj h
      exact .mmuReady (by simpa using hen) hreloads (outstanding_eq_ok.mp hw) (of_scheduleIssue id)
  | issueInst =>
    obtain ⟨u, hen, h⟩ := Run.bind_eq_ok.mp h
    obtain ⟨⟨w, ri⟩, hw, h⟩ := Run.bind_eq_ok.mp h
    obtain rfl := Except.ok.inj h
    simp only [enabled_eq_ok, Bool.and_eq_true] at hen
    exact .issueInst hen.1.1 hen.1.2 (checked_eq_ok.mp hw) (Bool.or_eq_true _ _).mp
  | addressCalculation =>
    obtain ⟨u, hen, h⟩ := Run.bind_eq_ok.mp h
    obtain rfl := Except.ok.inj h
    exact .addressCalculation (by simpa using hen)
      (of_scheduleIssue fun h => (Bool.and_eq_true_iff.mp h).2)
  | complete =>
    obtain ⟨u, hen, h⟩ := Run.bind_eq_ok.mp h
    obtain ⟨out, hout, h⟩ := Run.bind_eq_ok.mp h
    obtain rfl := Except.ok.inj h
    exact .complete (by simpa using hen) (checked_eq_ok.mp hout)
      (of_scheduleIssue fun h => (Bool.and_eq_true_iff.mp h).1)
  | work op =>
    by_cases hcb : ∃ n, op = .callback n
    · obtain ⟨n, rfl⟩ := hcb
      exact stepped_of_callback h
    · obtain ⟨u, hen, h⟩ := Run.bind_eq_ok.mp h
      obtain ⟨⟨w, T⟩, hw, h⟩ := Run.bind_eq_ok.mp h
      obtain rfl := Except.ok.inj h
      exact .work (by simpa using hen) (not_exists.mp hcb) hw
        (of_scheduleIssue fun h => (Bool.and_eq_true_iff.mp h).2)
  | tick =>
    obtain ⟨u, hen, h⟩ := Run.bind_eq_ok.mp h
    obtain rfl := Except.ok.inj h
    exact .tick (by simpa using hen)
  | nextCycle =>
    obtain ⟨u, hen, h⟩ := Run.bind_eq_ok.mp h
    obtain rfl := Except.ok.inj h
    exact .nextCycle (by simpa using hen)

end LsuSystem

end Olympia
