import Olympia.Lsu.ReadyQueue

/-!
# Aborted loads

When the translation of a store hits, `abortYoungerLoads_` is to take back the loads that were
issued too early: from the oldest load on that is younger than the store and shares a byte with it
(`oldestOvertaker`), all loads of the replay buffer go back to the ready queue (`AbortsExactly`).

The code looks for the oldest load with the address of the store instead.  It does not ask whether
that load is younger than the store, and it does not see a load at another address.  The loop that
takes the loads back is described by `Taken`: it clears one stage for each load, and leaves what
`append` holds for the first stage.
-/

namespace Olympia

namespace Lsu

variable {p : LsuParams} {w w₁ w' : LsuWork} {ab : List RenamedInst} {ri e : RenamedInst}

/-! ## What is to be aborted -/

/-- The bytes that an instruction accesses. -/
def accessedBytes (i : Inst) : Finset ℕ :=
  Finset.Ico i.targetVAddr (i.targetVAddr + i.memAccessSize)

/-- The loads of the replay buffer that are younger than a store and share a byte with it. -/
def overtakers (w : LsuWork) (ri : RenamedInst) : List RenamedInst :=
  w.replayBuffer.filter fun e => !e.inst.isStore && decide (ri.uniqueId < e.uniqueId) &&
    decide (¬Disjoint (accessedBytes e.inst) (accessedBytes ri.inst))

def oldestOvertaker (w : LsuWork) (ri : RenamedInst) : Option ℕ :=
  ((overtakers w ri).map RenamedInst.uniqueId).min?

/-- The loads of the replay buffer from an identifier on. -/
def loadsFrom (w : LsuWork) (m : ℕ) : List RenamedInst :=
  w.replayBuffer.filter fun e => !e.inst.isStore && m ≤ e.uniqueId

/-- The loads `ab` have been put back: they have left the replay buffer and the pipeline, and are
in the ready queue, each once. -/
structure Aborted (p : LsuParams) (w : LsuWork) (ab : List RenamedInst) (w' : LsuWork) :
    Prop where
  replay : w'.replayBuffer = w.replayBuffer.filter fun e => !inQueue ab e
  ready : w'.readyQueue.Perm (ab ++ w.readyQueue)
  once : (w'.readyQueue.map RenamedInst.key).Nodup
  state : ∀ e ∈ ab, (w'.info e.key).state = .ready
  others : ∀ k, (∀ e ∈ ab, e.key ≠ k) → w'.info k = w.info k
  appended : w'.appended = w.appended.filter fun e => !inQueue ab e
  stages : ∀ n ≤ p.completeStage, w'.stages n = (w.stages n).filter fun e => !inQueue ab e
  rest : w' = { w with
    replayBuffer := w'.replayBuffer, readyQueue := w'.readyQueue, info := w'.info,
    appended := w'.appended, stages := w'.stages }

/-- The loads that overtook a store, and those after them, have been aborted. -/
def AbortsExactly (p : LsuParams) (w : LsuWork) (ri : RenamedInst) (w' : LsuWork) : Prop :=
  match oldestOvertaker w ri with
  | none => w' = w
  | some m => Aborted p w (loadsFrom w m) w'

/-! ## What the loop does -/

/-- The stage that `dropInstFromPipeline_` invalidates. -/
def firstStage (p : LsuParams) (w : LsuWork) (ri : RenamedInst) : Option ℕ :=
  (List.range (p.completeStage + 1)).find? fun n => (w.stages n).any fun e => e.key = ri.key

/-- The loop of `abortYoungerLoads_` has run over the loads `ab`. -/
structure Taken (p : LsuParams) (w : LsuWork) (ab : List RenamedInst) (w' : LsuWork) : Prop where
  replay : w'.replayBuffer = w.replayBuffer.filter fun e => !inQueue ab e
  ready : w'.readyQueue.Perm (ab ++ w.readyQueue)
  state : ∀ e ∈ ab, (w'.info e.key).state = .ready
  others : ∀ k, (∀ e ∈ ab, e.key ≠ k) → w'.info k = w.info k
  cleared : ∀ e ∈ ab, ∀ n, firstStage p w e = some n → w'.stages n = none
  kept : ∀ n, (∀ e ∈ ab, firstStage p w e ≠ some n) → w'.stages n = w.stages n
  rest : w' = { w with
    replayBuffer := w'.replayBuffer, readyQueue := w'.readyQueue, info := w'.info,
    stages := w'.stages }

theorem firstStage_eq_some {n : ℕ} (h : firstStage p w ri = some n) :
    n ≤ p.completeStage ∧ (∃ e, w.stages n = some e ∧ e.key = ri.key) ∧
      ∀ m < n, ∀ e, w.stages m = some e → e.key ≠ ri.key := by
  unfold firstStage at h
  obtain ⟨hat, hmem, hbefore⟩ := List.find?_range_eq_some.mp h
  refine ⟨Nat.lt_succ_iff.mp (List.mem_range.mp hmem), ?_, fun m hm e he hkey => ?_⟩
  · simpa [Option.any_eq_true] using hat
  · have hnone := hbefore m hm
    simp [he, hkey] at hnone

theorem firstStage_eq_none (h : firstStage p w ri = none) {n : ℕ} (hn : n ≤ p.completeStage)
    {e : RenamedInst} (he : w.stages n = some e) : e.key ≠ ri.key := by
  intro hkey
  have hnone := List.find?_eq_none.mp h n (List.mem_range.mpr (Nat.lt_succ_iff.mpr hn))
  simp [he, hkey] at hnone

theorem Taken.nil : Taken p w [] w where
  replay := by simp [inQueue]
  ready := .refl _
  state _ he := absurd he List.not_mem_nil
  others _ _ := rfl
  cleared _ he := absurd he List.not_mem_nil
  kept _ _ := rfl
  rest := rfl

theorem dropInstFromPipeline_stages (p : LsuParams) (w : LsuWork) (ri : RenamedInst) (n : ℕ) :
    (dropInstFromPipeline p w ri).stages n =
      if firstStage p w ri = some n then none else w.stages n := by
  unfold dropInstFromPipeline
  split
  next m hfound =>
    have hfirst : firstStage p w ri = some m := hfound
    by_cases hm : n = m
    · simp [LsuWork.invalidateStage, hfirst, hm]
    · simp [LsuWork.invalidateStage, hfirst, hm, Ne.symm hm]
  next hnone =>
    have hfirst : firstStage p w ri = none := hnone
    simp [hfirst]

theorem dropInstFromPipeline_rest (p : LsuParams) (w : LsuWork) (ri : RenamedInst) :
    dropInstFromPipeline p w ri =
      { w with stages := (dropInstFromPipeline p w ri).stages } := by
  rcases dropInstFromPipeline_cases p w ri with heq | ⟨n, heq⟩
  · rw [heq]
  · rw [heq]
    rfl

/-- One iteration of the loop. -/
theorem abortLoad_taken (hfree : ∀ r ∈ w.readyQueue, r.key ≠ e.key) :
    ∃ w', abortLoad p w e = .ok w' ∧ Taken p w [e] w' := by
  have hout : inQueue w.readyQueue e = false := by
    rw [Bool.eq_false_iff]
    intro hin
    obtain ⟨r, hr, hkey⟩ := inQueue_iff.mp hin
    exact hfree r hr hkey
  obtain ⟨w₁, happend⟩ : ∃ w₁, appendToReadyQueue
      (w.modifyInfo e.key fun i => { i with state := .ready }) e = .ok w₁ := by
    unfold appendToReadyQueue
    rw [show inQueue (w.modifyInfo e.key fun i => { i with state := .ready }).readyQueue e = false
      from hout]
    exact ⟨_, rfl⟩
  have E : Enqueued w e w₁ := (appendToReadyQueue_spec happend).of_modifyInfo (by simp)
  have hinfo : (w₁.info e.key).state = .ready ∧ ∀ k ≠ e.key, w₁.info k = w.info k := by
    obtain ⟨-, -, happend⟩ := Run.bind_eq_ok.mp happend
    obtain rfl := Except.ok.inj happend
    exact ⟨by simp [LsuWork.modifyInfo], fun k hk => by simp [LsuWork.modifyInfo, hk]⟩
  have hstages : w₁.stages = w.stages := by rw [E.rest]
  have hfirst : firstStage p w₁ e = firstStage p w e := by rw [firstStage, hstages, firstStage]
  have hdrop := dropInstFromPipeline_rest p w₁ e
  refine ⟨(dropInstFromPipeline p w₁ e).removeFromReplay e, ?_, ?_⟩
  · unfold abortLoad
    rw [happend]
    rfl
  constructor
  · show (dropInstFromPipeline p w₁ e).replayBuffer.filter _ = _
    rw [dropInstFromPipeline_replayBuffer, E.rest]
    simp [inQueue, eq_comm]
  · show (dropInstFromPipeline p w₁ e).readyQueue.Perm _
    rw [dropInstFromPipeline_readyQueue]
    exact E.ready
  · intro r hr
    rw [List.mem_singleton.mp hr, hdrop]
    exact hinfo.1
  · intro k hk
    rw [hdrop]
    exact hinfo.2 k (hk e List.mem_cons_self).symm
  · intro r hr n hn
    rw [List.mem_singleton.mp hr, ← hfirst] at hn
    show (dropInstFromPipeline p w₁ e).stages n = none
    rw [dropInstFromPipeline_stages, if_pos hn]
  · intro n hn
    have hne := hn e List.mem_cons_self
    rw [← hfirst] at hne
    show (dropInstFromPipeline p w₁ e).stages n = _
    rw [dropInstFromPipeline_stages, if_neg hne, hstages]
  · rw [hdrop, E.rest]
    rfl

/-- The stage of another instruction is the same after an iteration. -/
theorem Taken.same_firstStage (H : Taken p w [e] w₁) (hne : ri.key ≠ e.key) :
    firstStage p w₁ ri = firstStage p w ri := by
  have hstages : ∀ n, (w₁.stages n).any (fun r => decide (r.key = ri.key)) =
      (w.stages n).any fun r => decide (r.key = ri.key) := by
    intro n
    by_cases hn : firstStage p w e = some n
    · obtain ⟨-, ⟨r, hr, hkey⟩, -⟩ := firstStage_eq_some hn
      rw [H.cleared e List.mem_cons_self n hn, hr]
      simp [hkey, hne.symm]
    · rw [H.kept n fun r hr => by rwa [List.mem_singleton.mp hr]]
  unfold firstStage
  simp only [hstages]

theorem Taken.cons (H : Taken p w [e] w₁) (H' : Taken p w₁ ab w')
    (hne : ∀ r ∈ ab, r.key ≠ e.key) : Taken p w (e :: ab) w' := by
  constructor
  · rw [H'.replay, H.replay, List.filter_filter]
    refine List.filter_congr fun r _ => ?_
    simp [inQueue, Bool.and_comm]
  · refine H'.ready.trans ?_
    exact (H.ready.append_left ab).trans List.perm_middle
  · intro r hr
    rcases List.mem_cons.mp hr with rfl | hr
    · rw [H'.others r.key hne]
      exact H.state r List.mem_cons_self
    · exact H'.state r hr
  · intro k hk
    rw [H'.others k fun r hr => hk r (List.mem_cons_of_mem _ hr)]
    refine H.others k fun r hr => ?_
    rw [List.mem_singleton.mp hr]
    exact hk e List.mem_cons_self
  · intro r hr n hn
    rcases List.mem_cons.mp hr with rfl | hr
    · -- the stage stays empty, as no other load is in it
      have hnone := H.cleared r List.mem_cons_self n hn
      rw [H'.kept n, hnone]
      intro r' hr' hn'
      obtain ⟨-, ⟨x, hx, -⟩, -⟩ := firstStage_eq_some hn'
      rw [hnone] at hx
      cases hx
    · exact H'.cleared r hr n ((H.same_firstStage (hne r hr)).trans hn)
  · intro n hn
    rw [H'.kept n fun r hr => ?_, H.kept n fun r hr => ?_]
    · rw [List.mem_singleton.mp hr]
      exact hn e List.mem_cons_self
    · rw [H.same_firstStage (hne r hr)]
      exact hn r (List.mem_cons_of_mem _ hr)
  · rw [H'.rest, H.rest]

theorem abortLoads_taken (hnodup : (ab.map RenamedInst.key).Nodup)
    (hfree : ∀ e ∈ ab, ∀ r ∈ w.readyQueue, r.key ≠ e.key) :
    ∃ w', ab.foldlM (abortLoad p) w = .ok w' ∧ Taken p w ab w' := by
  induction ab generalizing w with
  | nil => exact ⟨w, rfl, .nil⟩
  | cons e ab ih =>
    rw [List.map_cons] at hnodup
    obtain ⟨hnot, hnodup⟩ := List.nodup_cons.mp hnodup
    have hne : ∀ r ∈ ab, r.key ≠ e.key := fun r hr hkey =>
      hnot (List.mem_map.mpr ⟨r, hr, hkey⟩)
    obtain ⟨w₁, hone, H⟩ := abortLoad_taken (p := p) (hfree e List.mem_cons_self)
    have hfree₁ : ∀ r ∈ ab, ∀ r' ∈ w₁.readyQueue, r'.key ≠ r.key := by
      intro r hr r' hr'
      rcases List.mem_cons.mp (H.ready.mem_iff.mp hr') with rfl | hr'
      · exact (hne r hr).symm
      · exact hfree r (List.mem_cons_of_mem _ hr) r' hr'
    obtain ⟨w', hrest, H'⟩ := ih hnodup hfree₁
    refine ⟨w', ?_, H.cons H' hne⟩
    rw [List.foldlM_cons, hone]
    exact hrest

/-! ## When the loop does what it should -/

/-- Each of the loads is in one stage at most, and was not appended in this cycle. -/
structure InOneStage (p : LsuParams) (w : LsuWork) (ab : List RenamedInst) : Prop where
  appended : ∀ e ∈ ab, w.appended ≠ some e
  stages : ∀ e ∈ ab, ∀ n ≤ p.completeStage, ∀ m ≤ p.completeStage,
    w.stages n = some e → w.stages m = some e → n = m

theorem InOneStage.nil : InOneStage p w [] :=
  ⟨fun _ he => absurd he List.not_mem_nil, fun _ he => absurd he List.not_mem_nil⟩

/-- The loop clears one stage for a load, and nothing that `append` holds. -/
theorem Taken.aborted_iff (H : Taken p w ab w')
    (hready : ((ab ++ w.readyQueue).map RenamedInst.key).Nodup)
    (hsame : ∀ e ∈ ab, ∀ r, w.appended = some r ∨ (∃ n, w.stages n = some r) →
      r.key = e.key → r = e) :
    Aborted p w ab w' ↔ InOneStage p w ab := by
  have happ : w'.appended = w.appended := by rw [H.rest]
  constructor
  · intro A
    constructor
    · intro e he happended
      have hout := A.appended
      rw [happ, happended, Option.filter_some] at hout
      simp [inQueue_iff.mpr ⟨e, he, rfl⟩] at hout
    · intro e he n hn m hm hen hem
      -- a stage that is not the first one keeps the load
      have hfirst : ∀ k ≤ p.completeStage, w.stages k = some e → firstStage p w e = some k := by
        intro k hk hek
        by_contra hne
        have hkept : w'.stages k = w.stages k := by
          refine H.kept k fun r hr hrk => ?_
          obtain ⟨-, ⟨x, hx, hkey⟩, -⟩ := firstStage_eq_some hrk
          rw [hek] at hx
          obtain rfl := Option.some.inj hx
          obtain rfl := hsame r hr e (.inr ⟨k, hek⟩) hkey
          exact hne hrk
        have hout := A.stages k hk
        rw [hkept, hek, Option.filter_some] at hout
        simp [inQueue_iff.mpr ⟨e, he, rfl⟩] at hout
      exact Option.some.inj ((hfirst n hn hen).symm.trans (hfirst m hm hem))
  · intro O
    constructor
    · exact H.replay
    · exact H.ready
    · rw [(H.ready.map RenamedInst.key).nodup_iff]
      exact hready
    · exact H.state
    · exact H.others
    · rw [happ]
      cases happended : w.appended with
      | none => rfl
      | some r =>
        rw [Option.filter_some, if_pos]
        rw [Bool.not_eq_true', Bool.eq_false_iff]
        intro hin
        obtain ⟨e, he, hkey⟩ := inQueue_iff.mp hin
        obtain rfl := hsame e he r (.inl happended) hkey.symm
        exact O.appended r he happended
    · intro n hn
      by_cases htaken : ∃ e ∈ ab, firstStage p w e = some n
      · obtain ⟨e, he, hfirst⟩ := htaken
        obtain ⟨-, ⟨r, hr, hkey⟩, -⟩ := firstStage_eq_some hfirst
        rw [H.cleared e he n hfirst, hr, Option.filter_some, if_neg]
        simpa using inQueue_iff.mpr ⟨e, he, hkey.symm⟩
      · have hkept : ∀ e ∈ ab, firstStage p w e ≠ some n := fun e he h => htaken ⟨e, he, h⟩
        rw [H.kept n hkept]
        cases hr : w.stages n with
        | none => rfl
        | some r =>
          rw [Option.filter_some, if_pos]
          rw [Bool.not_eq_true', Bool.eq_false_iff]
          intro hin
          obtain ⟨e, he, hkey⟩ := inQueue_iff.mp hin
          obtain rfl := hsame e he r (.inr ⟨n, hr⟩) hkey.symm
          -- the load is in a stage, so in a first one, which is this one
          cases hfirst : firstStage p w r with
          | none => exact firstStage_eq_none hfirst hn hr rfl
          | some m =>
            obtain ⟨hm, ⟨x, hx, hxkey⟩, -⟩ := firstStage_eq_some hfirst
            obtain rfl := hsame r he x (.inr ⟨m, hx⟩) hxkey
            rw [O.stages x he n hn m hm hr hx] at hkept
            exact hkept x he hfirst
    · rw [H.rest]

/-- The loads from an identifier on, if there is one. -/
def loadsSince (w : LsuWork) : Option ℕ → List RenamedInst
  | none => []
  | some m => loadsFrom w m

theorem abortedLoads_eq (w : LsuWork) (ri : RenamedInst) :
    abortedLoads w ri =
      loadsSince w ((sameAddressLoads w ri).map RenamedInst.uniqueId).min? := by
  unfold abortedLoads
  split <;> rename_i heq <;> rw [heq] <;> rfl

theorem loadsSince_sublist (w : LsuWork) (a : Option ℕ) :
    (loadsSince w a).Sublist w.replayBuffer := by
  cases a with
  | none => exact List.nil_sublist _
  | some m => exact List.filter_sublist

/-- An entry of the replay buffer is among the loads from an identifier on, or is not. -/
theorem inQueue_loadsSince (hnodup : (w.replayBuffer.map RenamedInst.key).Nodup) {a : Option ℕ}
    (he : e ∈ w.replayBuffer) :
    inQueue (loadsSince w a) e = true ↔ ∃ m ∈ a, e.inst.isStore = false ∧ m ≤ e.uniqueId := by
  rw [inQueue_iff]
  cases a with
  | none => simp [loadsSince]
  | some m =>
    constructor
    · rintro ⟨r, hr, hkey⟩
      obtain ⟨hmem, hcond⟩ := List.mem_filter.mp hr
      obtain rfl := eq_of_key hnodup hmem he hkey
      exact ⟨m, rfl, by simpa using hcond⟩
    · rintro ⟨m', hm', hload, hle⟩
      obtain rfl := Option.mem_some.mp hm'
      exact ⟨e, List.mem_filter.mpr ⟨he, by simp [hload, hle]⟩, rfl⟩

/-- The identifier is that of a load in the replay buffer. -/
def Attained (w : LsuWork) (a : Option ℕ) : Prop :=
  ∀ m ∈ a, ∃ e ∈ w.replayBuffer, e.inst.isStore = false ∧ e.uniqueId = m

theorem attained_min {l : List RenamedInst}
    (hl : ∀ e ∈ l, e ∈ w.replayBuffer ∧ e.inst.isStore = false) :
    Attained w (l.map RenamedInst.uniqueId).min? := by
  intro m hm
  obtain ⟨e, he, heq⟩ := List.mem_map.mp (List.min?_mem hm)
  exact ⟨e, (hl e he).1, (hl e he).2, heq⟩

theorem le_of_attained (hnodup : (w.replayBuffer.map RenamedInst.key).Nodup) {a b : Option ℕ}
    (ha : Attained w a)
    (h : (w.replayBuffer.filter fun e => !inQueue (loadsSince w a) e) =
      w.replayBuffer.filter fun e => !inQueue (loadsSince w b) e) :
    ∀ m ∈ a, ∃ m' ∈ b, m' ≤ m := by
  intro m hm
  obtain ⟨e, he, hload, rfl⟩ := ha m hm
  have hin := (inQueue_loadsSince hnodup he).mpr ⟨e.uniqueId, hm, hload, le_rfl⟩
  have hinb : inQueue (loadsSince w b) e = true := by
    by_contra hnot
    have hmem : e ∈ w.replayBuffer.filter fun e => !inQueue (loadsSince w b) e :=
      List.mem_filter.mpr ⟨he, by simpa using hnot⟩
    rw [← h] at hmem
    simp [hin] at hmem
  obtain ⟨m', hm', -, hle⟩ := (inQueue_loadsSince hnodup he).mp hinb
  exact ⟨m', hm', hle⟩

/-- Which loads have left the replay buffer tells from which identifier on. -/
theorem eq_of_attained (hnodup : (w.replayBuffer.map RenamedInst.key).Nodup) {a b : Option ℕ}
    (ha : Attained w a) (hb : Attained w b)
    (h : (w.replayBuffer.filter fun e => !inQueue (loadsSince w a) e) =
      w.replayBuffer.filter fun e => !inQueue (loadsSince w b) e) : a = b := by
  have hle := le_of_attained hnodup ha h
  have hge := le_of_attained hnodup hb h.symm
  cases a with
  | none =>
    cases b with
    | none => rfl
    | some m => obtain ⟨m', hm', -⟩ := hge m rfl; cases hm'
  | some m =>
    obtain ⟨m', hm', hle⟩ := hle m rfl
    obtain ⟨m'', hm'', hge⟩ := hge m' hm'
    obtain rfl := Option.mem_some.mp hm''
    rw [Option.mem_def.mp hm', le_antisymm hge hle]

/-- The MMU has answered the `n`-th request, that of `ri`, with a hit. -/
def translated (w : LsuWork) (n : ℕ) (ri : RenamedInst) : LsuWork :=
  { w with mmuRequests := w.mmuRequests.eraseIdx n }.modifyInfo ri.key fun i =>
    { i with mmuState := .hit, phyAddrReady := true }

/-- The identifier from which on the code aborts loads: none if a flush has emptied the stage. -/
def abortsFrom (p : LsuParams) (w : LsuWork) (ri : RenamedInst) : Option ℕ :=
  if (w.stages p.mmuLookupStage).isSome then
    ((sameAddressLoads w ri).map RenamedInst.uniqueId).min?
  else none

theorem getAckFromMMU_hit {n : ℕ} (hspec : p.allowSpeculativeLoadExec = true)
    (hreq : w.mmuRequests[n]? = some ri) (hstore : ri.inst.isStore = true) :
    getAckFromMMU p w n true =
      some ((loadsSince (translated w n ri) (abortsFrom p w ri)).foldlM (abortLoad p)
        (translated w n ri)) := by
  have hack : getAckFromMMU p w n true =
      some (if (w.stages p.mmuLookupStage).isSome && ri.inst.isStore && true &&
          p.allowSpeculativeLoadExec then abortYoungerLoads p (translated w n ri) ri
        else .ok (translated w n ri)) := by
    unfold getAckFromMMU
    rw [hreq]
    rfl
  rw [hack, hstore, hspec, abortYoungerLoads_eq, abortedLoads_eq]
  unfold abortsFrom
  by_cases hstage : (w.stages p.mmuLookupStage).isSome = true
  · rw [if_pos hstage, if_pos (by simp [hstage])]
    rfl
  · rw [if_neg hstage, if_neg (by simpa using hstage)]
    rfl

/-- What the code looks for is the oldest overtaker, and every load to be aborted is in one stage
of the pipeline at most. -/
structure FindsOvertakers (p : LsuParams) (w : LsuWork) (ri : RenamedInst) : Prop where
  oldest : abortsFrom p w ri = oldestOvertaker w ri
  oneStage : InOneStage p w (loadsSince w (oldestOvertaker w ri))

theorem attained_abortsFrom (p : LsuParams) (w : LsuWork) (ri : RenamedInst) :
    Attained w (abortsFrom p w ri) := by
  unfold abortsFrom
  split
  · refine attained_min fun e he => ?_
    obtain ⟨hmem, hcond⟩ := List.mem_filter.mp he
    simp only [Bool.and_eq_true] at hcond
    exact ⟨hmem, by simpa using hcond.1.1⟩
  · exact fun m hm => by cases hm

theorem attained_oldestOvertaker (w : LsuWork) (ri : RenamedInst) :
    Attained w (oldestOvertaker w ri) := by
  refine attained_min fun e he => ?_
  obtain ⟨hmem, hcond⟩ := List.mem_filter.mp he
  simp only [Bool.and_eq_true] at hcond
  exact ⟨hmem, by simpa using hcond.1.1⟩

/-- The result of an exact abort, in the replay buffer. -/
theorem AbortsExactly.replay (h : AbortsExactly p w ri w') : w'.replayBuffer =
    w.replayBuffer.filter fun e => !inQueue (loadsSince w (oldestOvertaker w ri)) e := by
  unfold AbortsExactly at h
  cases hm : oldestOvertaker w ri with
  | none =>
    rw [hm] at h
    obtain rfl : w' = w := h
    simp [loadsSince, inQueue]
  | some m =>
    rw [hm] at h
    exact Aborted.replay h

/-- The loop over the right loads is an exact abort if each of them is in one stage. -/
theorem abortsExactly_iff
    (hloop : (loadsSince w (oldestOvertaker w ri)).foldlM (abortLoad p) w = .ok w')
    (haborted : Aborted p w (loadsSince w (oldestOvertaker w ri)) w' ↔
      InOneStage p w (loadsSince w (oldestOvertaker w ri))) :
    AbortsExactly p w ri w' ↔ InOneStage p w (loadsSince w (oldestOvertaker w ri)) := by
  unfold AbortsExactly
  cases hm : oldestOvertaker w ri with
  | none =>
    rw [hm] at hloop
    have hsame : w' = w := (Except.ok.inj hloop).symm
    exact iff_of_true hsame .nil
  | some m =>
    rw [hm] at haborted
    exact haborted

end Lsu

open Lsu

namespace LsuSystem

variable {p : LsuParams} {s : LsuSystem} {ri : RenamedInst}

/-- In every reachable state, when the translation of a store hits with speculative loads, exactly
the overtakers and the loads after them are aborted if and only if the code finds the overtakers
and each load to be aborted is in one stage. -/
theorem abort_exact_iff (hspec : p.allowSpeculativeLoadExec = true)
    (hs : Run.Reachable (step p) {} s) {n : ℕ} (hreq : s.work.mmuRequests[n]? = some ri)
    (hstore : ri.inst.isStore = true) :
    (∃ w', getAckFromMMU p s.work n true = some (.ok w') ∧
      AbortsExactly p (translated s.work n ri) ri w') ↔ FindsOvertakers p s.work ri := by
  have Hs := Inv.reachable hs
  have hready := (Issue.reachable hs).ready
  have hnodup := Hs.holding.replay
  have hsub := loadsSince_sublist s.work (abortsFrom p s.work ri)
  have hkeys : ((loadsSince s.work (abortsFrom p s.work ri)).map RenamedInst.key).Nodup :=
    hnodup.sublist (hsub.map _)
  have hfree : ∀ e ∈ loadsSince s.work (abortsFrom p s.work ri), ∀ r ∈ s.work.readyQueue,
      r.key ≠ e.key := fun e he r hr => (hready.apart r hr e (hsub.subset he)).symm
  obtain ⟨w', hloop, H⟩ := abortLoads_taken (p := p) (w := translated s.work n ri) hkeys hfree
  have hack : getAckFromMMU p s.work n true = some (.ok w') := by
    rw [getAckFromMMU_hit hspec hreq hstore]
    exact congrArg some hloop
  have haborted := H.aborted_iff (by
      rw [List.map_append, List.nodup_append]
      refine ⟨hkeys, hready.nodup, ?_⟩
      intro k hk k' hk' heq
      obtain ⟨e, he, rfl⟩ := List.mem_map.mp hk
      obtain ⟨r, hr, rfl⟩ := List.mem_map.mp hk'
      exact hfree e he r hr heq.symm)
    (by
      intro e he r hr hkey
      have heD := (Hs.holding.present e (.inr (.inl (hsub.subset he)))).1
      have hrD : r ∈ s.dispatched := by
        rcases hr with hr | hr
        · exact (Hs.holding.present r (.inr (.inr (.inl hr)))).1
        · exact (Hs.holding.present r (.inr (.inr (.inr (.inl hr))))).1
      exact eq_of_key Hs.keys hrD heD hkey)
  constructor
  · rintro ⟨w'', hack', hexact⟩
    obtain rfl := Except.ok.inj (Option.some.inj (hack.symm.trans hack'))
    have holdest : abortsFrom p s.work ri = oldestOvertaker s.work ri :=
      eq_of_attained hnodup (attained_abortsFrom p s.work ri)
        (attained_oldestOvertaker s.work ri) (H.replay.symm.trans hexact.replay)
    rw [holdest] at haborted hloop
    have O := (abortsExactly_iff hloop haborted).mp hexact
    exact ⟨holdest, O.appended, O.stages⟩
  · intro F
    rw [F.oldest] at haborted hloop
    have O : InOneStage p (translated s.work n ri)
        (loadsSince (translated s.work n ri) (oldestOvertaker (translated s.work n ri) ri)) :=
      ⟨F.oneStage.appended, F.oneStage.stages⟩
    exact ⟨w', hack, (abortsExactly_iff hloop haborted).mpr O⟩

def speculative : LsuParams := { allowSpeculativeLoadExec := true }

/-- A load is issued before an older store with the same address, whose data is late; then the
store asks for its translation. -/
def overtakingOps : List LsuSystemOp :=
  [.clearBits .integer {7}, .dispatch (sampleStore 1 3 64 .integer 7) false,
   .dispatch (sampleLoad 2 2 64) false, .tick, .issueInst, .setBits .integer {7},
   .work (.callback 0), .nextCycle,
   .tick, .addressCalculation, .issueInst, .nextCycle,
   .tick, .addressCalculation, .work .mmuLookup, .work (.mmuAck 0 true), .nextCycle,
   .tick, .work .mmuLookup]


/-- A test of `FindsOvertakers` that is enough: no instruction was appended, and the loads to be
aborted have the identifier `u` and are in the stage `k` only. -/
def findsOvertakersTest (p : LsuParams) (w : LsuWork) (u k : ℕ) (ri : RenamedInst) : Bool :=
  decide (abortsFrom p w ri = oldestOvertaker w ri) && w.appended.isNone &&
    (loadsSince w (oldestOvertaker w ri)).all (fun e => decide (e.uniqueId = u)) &&
    (List.range (p.completeStage + 1)).all fun n =>
      decide (n = k) || (w.stages n).all fun e => decide (e.uniqueId ≠ u)

theorem findsOvertakers_of_test {w : LsuWork} {u k : ℕ}
    (h : findsOvertakersTest p w u k ri = true) : FindsOvertakers p w ri := by
  simp only [findsOvertakersTest, Bool.and_eq_true, decide_eq_true_eq, Option.isNone_iff_eq_none,
    List.all_eq_true, List.mem_range, Bool.or_eq_true] at h
  obtain ⟨⟨⟨holdest, happended⟩, hids⟩, hstages⟩ := h
  have hat : ∀ e ∈ loadsSince w (oldestOvertaker w ri), ∀ n ≤ p.completeStage,
      w.stages n = some e → n = k := by
    intro e he n hn hen
    refine (hstages n (Nat.lt_succ_iff.mpr hn)).resolve_right fun hall => ?_
    rw [hen, Option.all_some, decide_eq_true_eq] at hall
    exact hall (hids e he)
  refine ⟨holdest, fun e _ hsome => ?_, fun e he n hn m hm hen hem => ?_⟩
  · rw [happended] at hsome
    cases hsome
  · exact (hat e he n hn hen).trans (hat e he m hm hem).symm

theorem abort_exact_iff_sample :
    ∃ s ri, Run.Reachable (step speculative) {} s ∧ s.work.mmuRequests[0]? = some ri ∧
      (ri.uniqueId, oldestOvertaker s.work ri) = (1, some 2) ∧
      ∃ w', getAckFromMMU speculative s.work 0 true = some (.ok w') ∧
        AbortsExactly speculative (translated s.work 0 ri) ri w' := by
  have heval : (overtakingOps.foldlM (step speculative) {}).toOption.map (fun s =>
      (s.work.mmuRequests[0]?).map fun ri => (ri.inst.isStore,
        (ri.uniqueId, oldestOvertaker s.work ri),
        findsOvertakersTest speculative s.work 2 2 ri)) =
          some (some (true, (1, some 2), true)) := by
    decide +kernel
  obtain ⟨s, hs, hval⟩ := Run.ok_of_eval heval
  obtain ⟨ri, hreq, hval⟩ := Option.map_eq_some_iff.mp hval
  obtain ⟨hstore, hval⟩ := Prod.mk.inj hval
  obtain ⟨hids, htest⟩ := Prod.mk.inj hval
  exact ⟨s, ri, ⟨_, hs⟩, hreq, hids,
    (abort_exact_iff rfl ⟨_, hs⟩ hreq hstore).mpr (findsOvertakers_of_test htest)⟩

/-- A load and a younger store with the same address, one cycle after the other. -/
def inOrderOps : List LsuSystemOp :=
  [.dispatch (sampleLoad 1 2 64) false, .dispatch (sampleStore 2 3 64 .integer 7) false, .tick,
   .issueInst, .nextCycle,
   .tick, .addressCalculation, .issueInst, .nextCycle,
   .tick, .addressCalculation, .work .mmuLookup, .work (.mmuAck 0 true), .nextCycle,
   .tick, .work .mmuLookup]

/-- The ready queue after the answer to the first request. -/
def readyAfterAck (w : LsuWork) : Option (List ℕ) :=
  match getAckFromMMU speculative w 0 true with
  | some (.ok w') => some (w'.readyQueue.map RenamedInst.uniqueId)
  | _ => none

/-- The load is older than the store, and is aborted. -/
theorem older_load_aborted :
    ∃ s ri w', Run.Reachable (step speculative) {} s ∧ s.work.mmuRequests[0]? = some ri ∧
      ri.inst.isStore = true ∧ ri.uniqueId = 2 ∧
      getAckFromMMU speculative s.work 0 true = some (.ok w') ∧
      w'.readyQueue.map RenamedInst.uniqueId = [1] ∧
      ¬AbortsExactly speculative (translated s.work 0 ri) ri w' := by
  have heval : (inOrderOps.foldlM (step speculative) {}).toOption.map (fun s =>
      (s.work.mmuRequests[0]?).map fun ri => ((ri.inst.isStore, ri.uniqueId),
        (oldestOvertaker s.work ri, s.work.readyQueue.length), readyAfterAck s.work)) =
        some (some ((true, 2), (none, 0), some [1])) := by
    decide +kernel
  obtain ⟨s, hs, hval⟩ := Run.ok_of_eval heval
  obtain ⟨ri, hreq, hval⟩ := Option.map_eq_some_iff.mp hval
  obtain ⟨hri, hval⟩ := Prod.mk.inj hval
  obtain ⟨hstore, hid⟩ := Prod.mk.inj hri
  obtain ⟨hold, hack⟩ := Prod.mk.inj hval
  obtain ⟨hnone, hempty⟩ := Prod.mk.inj hold
  obtain ⟨w', hw', hready⟩ : ∃ w', getAckFromMMU speculative s.work 0 true = some (.ok w') ∧
      w'.readyQueue.map RenamedInst.uniqueId = [1] := by
    unfold readyAfterAck at hack
    split at hack
    · rename_i w' hw'
      exact ⟨w', hw', Option.some.inj hack⟩
    · cases hack
  refine ⟨s, ri, w', ⟨_, hs⟩, hreq, hstore, hid, hw', hready, fun hexact => ?_⟩
  unfold AbortsExactly at hexact
  rw [show oldestOvertaker (translated s.work 0 ri) ri = none from hnone] at hexact
  have hsame : w' = translated s.work 0 ri := hexact
  have hlen : w'.readyQueue.length = s.work.readyQueue.length := by rw [hsame]; rfl
  have hone := congrArg List.length hready
  rw [List.length_map, hlen, hempty] at hone
  cases hone

end LsuSystem

end Olympia
