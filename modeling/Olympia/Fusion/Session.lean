import Mathlib.Data.List.Forall2
import Olympia.Fusion.Windows
import Olympia.DecodeVsets
import Olympia.DecodeEvent

/-!
# Fusion in a session of Decode

`decodeInsts_` calls the two fusion passes with the group that its loop has built and with the
list of Mavis UIDs.  A UID is added when an instruction is taken from the fetch queue, and not
when the loop takes a further uop from the generator.  So the UIDs are those of the instructions of
the group exactly when the session emits no further uop (`uids_aligned_iff`): from such a uop on,
the start index of a match is no longer that of the instruction that matched.
-/

namespace Olympia
namespace Decode

/-! ## The passes -/

section Passes

variable {H : Type} [DecidableEq H]

/-- The loop of `decodeInsts_` over the two passes, from the turn `maxItrs`. -/
def fusionLoop (F : HashCaching H) (S : UnstableSort matchLess)
    (C : FusionGroupContainer F.hash) (matchMaxTries : ℕ) (uids : List MavisUid) (maxItrs : ℕ)
    (st : FusionMarks) : Except Assertion (ℕ × FusionMarks) := do
  let ms ← matchFusionGroups F S uids C
  let (ms, st) ← processMatches ms st
  if _h : ms.length > 0 ∧ maxItrs + 1 < matchMaxTries then
    fusionLoop F S C matchMaxTries uids (maxItrs + 1) st
  else return (maxItrs + 1, st)
termination_by matchMaxTries - maxItrs

/-- The passes over a group, as the parameter `fuse` of Decode. -/
def fusionPasses (F : HashCaching H) (S : UnstableSort matchLess)
    (C : FusionGroupContainer F.hash) (matchMaxTries : ℕ) (insts : List Inst)
    (uids : List MavisUid) : Except Assertion Unit := do
  let (maxItrs, _) ← fusionLoop F S C matchMaxTries uids 0 (unmodified insts.length)
  if maxItrs ≥ matchMaxTries then .error .fusionWatchDog else return ()

theorem markGhost_failsIn (st : FusionMarks) (i : ℕ) :
    Run.FailsIn (· = .fusionOutOfRange) (markGhost st i) := by
  unfold markGhost
  split
  · exact .ok _
  · exact .error rfl

theorem processMatch_failsIn (st : FusionMarks) (m : FusionGroupMatchInfo) :
    Run.FailsIn (· = .fusionOutOfRange) (processMatch st m) := by
  unfold processMatch
  split
  · exact .error rfl
  · exact Run.FailsIn.foldlM markGhost_failsIn _ _
  · exact .ok _

/-- The list of matches is empty after the first turn, so that there is no other. -/
theorem fusionLoop_eq (F : HashCaching H) (S : UnstableSort matchLess)
    (C : FusionGroupContainer F.hash) (matchMaxTries : ℕ) (uids : List MavisUid) (maxItrs : ℕ)
    (st : FusionMarks) :
    fusionLoop F S C matchMaxTries uids maxItrs st = (do
      let ms ← matchFusionGroups F S uids C
      let st ← ms.foldlM processMatch st
      return (maxItrs + 1, st)) := by
  unfold fusionLoop processMatches
  simp

/-- The passes meet what Decode asks of its parameter. -/
theorem fusionPasses_failsIn (F : HashCaching H) (S : UnstableSort matchLess)
    (C : FusionGroupContainer F.hash) (matchMaxTries : ℕ) (insts : List Inst)
    (uids : List MavisUid) :
    Run.FailsIn (· ∈ [Assertion.fusionWatchDog, .fusionOutOfRange])
      (fusionPasses F S C matchMaxTries insts uids) := by
  have hmatches : ∀ (ms : List FusionGroupMatchInfo) (st : FusionMarks),
      Run.FailsIn (· ∈ [Assertion.fusionWatchDog, .fusionOutOfRange])
        (ms.foldlM processMatch st) := by
    intro ms st
    refine (Run.FailsIn.foldlM processMatch_failsIn ms st).mono fun e he => ?_
    subst he
    decide
  have hloop : Run.FailsIn (· ∈ [Assertion.fusionWatchDog, .fusionOutOfRange])
      (fusionLoop F S C matchMaxTries uids 0 (unmodified insts.length)) := by
    rw [fusionLoop_eq, matchFusionGroups_eq]
    exact Run.FailsIn.bind (.ok _) fun ms => (hmatches ms _).bind fun st => .ok _
  refine hloop.bind fun r => ?_
  dsimp only
  split
  · exact .error (by decide)
  · exact .ok _

end Passes

/-! ## UIDs and instructions -/

/-- The instruction `u` is `i`, or a uop of it. -/
def EmittedFor (m : Mavis) (i u : Inst) : Prop :=
  u = i ∨ ∃ k ops, u = VectorUopGenerator.makeUop m i k ops

/-- The UIDs are those of the instructions of the group, or of their parents, which are the
instruction in the generator and those in the fetch queue as Decode configures them. -/
def Aligned (m : Mavis) (s : DecodeState) (grp : DecodeGroup) : Prop :=
  grp.uids.length = grp.insts.length ∧ ∃ parents,
    (∀ i ∈ parents, s.vecUopGen.currentInst = some i ∨
      i ∈ configureAll s.vectorConfig s.fetchQueue) ∧
    List.Forall₂ (EmittedFor m) parents grp.insts ∧ grp.uids = parents.map Inst.mavisUid

theorem configure_mavisUid (c : VectorConfig) (i : Inst) :
    (configure c i).inst.mavisUid = i.mavisUid := by
  unfold configure
  split
  · rfl
  · split
    · rfl
    · split <;> rfl

theorem configureAll_mavisUid : ∀ (c : VectorConfig) (l : List Inst),
    (configureAll c l).map Inst.mavisUid = l.map Inst.mavisUid
  | _, [] => rfl
  | c, i :: l => by
    rw [configureAll, List.map_cons, List.map_cons, configureAll_mavisUid, configure_mavisUid]

theorem generateUop_emittedFor {m : Mavis} {g g' : VecUopGen} {uop : Inst}
    (h : VectorUopGenerator.generateUop m g = .ok (uop, g')) :
    ∃ i, g.currentInst = some i ∧ EmittedFor m i uop := by
  unfold VectorUopGenerator.generateUop at h
  split at h
  · cases h
  · rename_i i hi
    obtain ⟨ops, -, h⟩ := Run.bind_eq_ok.mp h
    obtain ⟨rfl, -⟩ := Prod.mk.inj (Except.ok.inj h)
    exact ⟨i, hi, .inr ⟨_, _, rfl⟩⟩

/-- A group of the session that started in `s` and has taken `taken`, at the state `s'` of its
loop.  As long as no further uop has been emitted, each instruction of the group has its UID. -/
structure Listed (m : Mavis) (s s' : DecodeState) (grp : DecodeGroup) (taken : List Inst) :
    Prop where
  queue : s.fetchQueue = taken ++ s'.fetchQueue
  config : taken.foldl (fun c i => (configure c i).config) s.vectorConfig = s'.vectorConfig
  uids : grp.uids = taken.map Inst.mavisUid
  length_le : grp.uids.length ≤ grp.insts.length
  emitted : grp.uids.length = grp.insts.length →
    List.Forall₂ (EmittedFor m) (configureAll s.vectorConfig taken) grp.insts

section Loop

variable {m : Mavis} {s s' s₁ : DecodeState} {grp grp' : DecodeGroup} {taken : List Inst}

theorem Listed.init (m : Mavis) (s : DecodeState) : Listed m s s {} [] where
  queue := rfl
  config := rfl
  uids := rfl
  length_le := le_rfl
  emitted _ := .nil

/-- A further uop has no UID of its own. -/
theorem Listed.uop (L : Listed m s s' grp taken) (g : VecUopGen) (u : Inst) :
    Listed m s { s' with vecUopGen := g } { grp with insts := grp.insts ++ [u] } taken where
  queue := L.queue
  config := L.config
  uids := L.uids
  length_le := by
    have hle := L.length_le
    simp only [List.length_append]
    omega
  emitted heq := by
    have hle := L.length_le
    simp only [List.length_append, List.length_singleton] at heq
    omega

/-- An instruction taken from the queue has one. -/
theorem Listed.take (L : Listed m s s' grp taken) {i u : Inst} {rest : List Inst}
    (hq : s'.fetchQueue = i :: rest) (hu : EmittedFor m (configure s'.vectorConfig i).inst u)
    (g : VecUopGen) (w : Bool) :
    Listed m s { s' with
      fetchQueue := rest
      vectorConfig := (configure s'.vectorConfig i).config
      waitingOnVset := w
      vecUopGen := g } ⟨grp.insts ++ [u], grp.uids ++ [i.mavisUid]⟩ (taken ++ [i]) where
  queue := by
    rw [L.queue, hq, List.append_assoc]
    rfl
  config := by
    rw [List.foldl_append, L.config]
    rfl
  uids := by
    rw [L.uids, List.map_append]
    rfl
  length_le := by
    simpa using L.length_le
  emitted heq := by
    have hsame : grp.uids.length = grp.insts.length := by simpa using heq
    have htook : configureAll s.vectorConfig (taken ++ [i]) =
        configureAll s.vectorConfig taken ++ [(configure s'.vectorConfig i).inst] := by
      rw [configureAll_append, L.config]
      rfl
    rw [htook]
    exact List.rel_append (L.emitted hsame) (.cons hu .nil)

theorem Listed.decodeOne (L : Listed m s s' grp taken)
    (h : decodeOne m s' grp = .ok (some (s₁, grp'))) :
    ∃ taken', Listed m s s₁ grp' taken' := by
  unfold Decode.decodeOne at h
  split at h
  · obtain ⟨⟨u, g⟩, -, h⟩ := Run.bind_eq_ok.mp h
    obtain ⟨rfl, rfl⟩ := Prod.mk.inj (Option.some.inj (Except.ok.inj h))
    exact ⟨taken, L.uop g u⟩
  · rcases hq : s'.fetchQueue with _ | ⟨i, rest⟩
    · rw [hq] at h
      cases h
    · rw [hq] at h
      dsimp only at h
      split at h
      · obtain ⟨g, hset, h⟩ := Run.bind_eq_ok.mp h
        obtain ⟨⟨u, g'⟩, hgen, h⟩ := Run.bind_eq_ok.mp h
        obtain ⟨rfl, rfl⟩ := Prod.mk.inj (Option.some.inj (Except.ok.inj h))
        obtain ⟨j, hj, hu⟩ := generateUop_emittedFor hgen
        obtain rfl := Option.some.inj
          ((VectorUopGenerator.setInst_spec hset).2.1.symm.trans hj)
        exact ⟨_, L.take hq hu g' _⟩
      · obtain ⟨rfl, rfl⟩ := Prod.mk.inj (Option.some.inj (Except.ok.inj h))
        exact ⟨_, L.take hq (.inl rfl) _ _⟩

theorem decodeLoop_listed {n : ℕ} (h : decodeLoop m n s {} = .ok (s₁, grp)) :
    ∃ taken, Listed m s s₁ grp taken :=
  decodeLoop_induct (I := fun s' grp => ∃ taken, Listed m s s' grp taken)
    (fun _ hL hone => hL.elim fun _ L => L.decodeOne hone) n ⟨[], .init m s⟩ h

/-- In the group that a session hands to the fusion passes, the UIDs are those of the instructions
if and only if the session emits no uop for which it takes no instruction. -/
theorem uids_aligned_iff {p : DecodeParams} {s s₁ : DecodeState} {grp : DecodeGroup}
    (hloop : decodeLoop p.mavis (numToDecode p s) { s with latencyCount := 0 } {} =
      .ok (s₁, grp)) :
    Aligned p.mavis s grp ↔ ¬ loopSplits (numToDecode p s) s := by
  obtain ⟨taken, L⟩ := decodeLoop_listed hloop
  obtain ⟨taken', extra, hqueue, hlen, -, -, hextra⟩ := decodeLoop_spec _ hloop
  obtain rfl : taken' = taken := List.append_cancel_right (hqueue.symm.trans L.queue)
  have huids : grp.uids.length = taken'.length := by
    rw [L.uids, List.length_map]
  have hlen : grp.insts.length = taken'.length + extra := by
    rw [hlen]
    simp
  have hsplits : loopSplits (numToDecode p s) s ↔ 0 < extra := by
    rw [hextra]
    rfl
  rw [hsplits]
  constructor
  · rintro ⟨hsame, -⟩
    omega
  · intro hzero
    have hsame : grp.uids.length = grp.insts.length := by omega
    refine ⟨hsame, configureAll s.vectorConfig taken', fun i hi => .inr ?_, L.emitted hsame, ?_⟩
    · rw [show s.fetchQueue = taken' ++ s₁.fetchQueue from L.queue, configureAll_append]
      exact List.mem_append_left _ hi
    · rw [L.uids, configureAll_mavisUid]

end Loop

/-- A scalar instruction, a vset, a vector instruction with one uop, and another scalar one. -/
def unsplitQueue : List Inst :=
  [{ uniqueId := 1, mavisUid := .other 1 },
   { uniqueId := 2, pipe := .vset, isVector := true, mavisUid := .vsetivli },
   { uniqueId := 3, pipe := .vint, isVector := true, uopGen := .elementwise, mavisUid := .other 2 },
   { uniqueId := 4, mavisUid := .other 3 }]

theorem uids_aligned_iff_group :
    ∃ s₁ grp, decodeLoop plainMavis 4 { fetchQueue := unsplitQueue, uopQueueCredits := 4 } {} =
        .ok (s₁, grp) ∧
      grp.insts.map Inst.uniqueId = [1, 2, 3, 4] ∧
      Aligned plainMavis { fetchQueue := unsplitQueue, uopQueueCredits := 4 } grp :=
  ⟨_, _, rfl, rfl, (uids_aligned_iff (p := { mavis := plainMavis, fusionEnable := true })
    (s := { fetchQueue := unsplitQueue, uopQueueCredits := 4 }) rfl).mpr (by decide)⟩

/-- The second uop of a widening addition has no UID: the instruction behind it is the third of the
group, and its UID the second of the list. -/
theorem second_uop_without_uid :
    ¬ ∀ (p : DecodeParams) (s s₁ : DecodeState) (grp : DecodeGroup), p.fusionEnable = true →
      putsOff p s = false →
      decodeLoop p.mavis (numToDecode p s) { s with latencyCount := 0 } {} = .ok (s₁, grp) →
      Aligned p.mavis s grp := by
  intro hall
  have haligned := hall { mavis := plainMavis, fusionEnable := true }
    { fetchQueue := [wideningAdd, { uniqueId := 2 }], uopQueueCredits := 4 } _ _ rfl rfl rfl
  exact absurd haligned.1 (by decide)

/-! ## The passes succeed -/

/-- With groups of at least one UID each, the passes stop no session. -/
theorem fusionPasses_total {H : Type} [DecidableEq H] (F : HashCaching H)
    (S : UnstableSort matchLess) (C : FusionGroupContainer F.hash)
    (hne : ∀ e ∈ C.groups, e.2.uids ≠ []) {matchMaxTries : ℕ} (htries : 1 < matchMaxTries)
    {m : Mavis} {n : ℕ} {s s₁ : DecodeState} {grp : DecodeGroup}
    (hloop : decodeLoop m n s {} = .ok (s₁, grp)) :
    fusionPasses F S C matchMaxTries grp.insts grp.uids = .ok () := by
  obtain ⟨taken, L⟩ := decodeLoop_listed hloop
  obtain ⟨ms, st, hms, hst⟩ := processMatches_total F S grp.uids C hne L.length_le
  obtain ⟨st', hst', heq⟩ := Run.bind_eq_ok.mp hst
  have hpasses : fusionLoop F S C matchMaxTries grp.uids 0 (unmodified grp.insts.length) =
      .ok (1, st') := by
    rw [fusionLoop_eq, hms]
    exact Run.bind_eq_ok.mpr ⟨ms, rfl, Run.bind_eq_ok.mpr ⟨st', hst', rfl⟩⟩
  unfold fusionPasses
  rw [hpasses]
  exact if_neg (by omega)

end Decode
end Olympia
