import Olympia.DecodeEvent
import Olympia.UopOperands

/-!
# The vector length after a vset

`updateVectorConfig_` makes the configuration of the vset the current one, and only then looks at
`VL` for the vset that keeps it (`rs1` and `rd` are `x0`).  So it looks at the `VL` of the vset, and
not at the one before it.  A history of the vsets that Decode processes, each with the configuration
before and after it (`ProcessedVset`), says where this makes a difference:
`vl_follows_vset_rules`.
-/

namespace Olympia

/-- A vset that Decode has processed. -/
structure ProcessedVset where
  before : VectorConfig
  inst : Inst
  after : VectorConfig

namespace ProcessedVset

/-- `vsetvli` with `x0` as source: its `VL` depends on the destination. -/
def zeroSource (x : ProcessedVset) : Prop :=
  x.inst.mavisUid = .vsetvli ∧ x.inst.hasZeroRegSource = true

/-- The rules for `VL`: a `vsetvli` of `x0` to `x0` keeps it as far as possible, one to another
register asks for all elements, and every other vset brings its own. -/
structure FollowsRules (x : ProcessedVset) : Prop where
  sew : x.after.sew = x.inst.vectorConfig.sew
  lmul : x.after.lmul = x.inst.vectorConfig.lmul
  keep : x.zeroSource → x.inst.hasZeroRegDest = true → x.after.vl = min x.before.vl x.after.vlmax
  all : x.zeroSource → x.inst.hasZeroRegDest = false → x.after.vl = x.after.vlmax
  own : ¬x.zeroSource → x.after.vl = x.inst.vectorConfig.vl
  legal : x.inst.vectorConfig.vl ≤ x.inst.vectorConfig.vlmax → x.after.vl ≤ x.after.vlmax

/-- A vset that keeps `VL` has the one that is kept, as far as it is legal. -/
def KeepsOwn (x : ProcessedVset) : Prop :=
  x.zeroSource → x.inst.hasZeroRegDest = true →
    min x.inst.vectorConfig.vl x.inst.vectorConfig.vlmax =
      min x.before.vl x.inst.vectorConfig.vlmax

theorem followsRules_iff {x : ProcessedVset} (h : x.after = Decode.updateVectorConfig x.inst) :
    x.FollowsRules ↔ x.KeepsOwn := by
  have hkeep : x.zeroSource → x.inst.hasZeroRegDest = true →
      x.after = { x.inst.vectorConfig with
        vl := min x.inst.vectorConfig.vl x.inst.vectorConfig.vlmax } := by
    intro hzero hdest
    rw [h]
    simp [Decode.updateVectorConfig, hzero.1, hzero.2, hdest]
  have hall : x.zeroSource → x.inst.hasZeroRegDest = false →
      x.after = { x.inst.vectorConfig with vl := x.inst.vectorConfig.vlmax } := by
    intro hzero hdest
    rw [h]
    simp [Decode.updateVectorConfig, hzero.1, hzero.2, hdest]
  have hown : ¬x.zeroSource → x.after = x.inst.vectorConfig := by
    intro hzero
    rw [h]
    exact if_neg hzero
  constructor
  · intro H hzero hdest
    have hvl := H.keep hzero hdest
    rw [hkeep hzero hdest] at hvl
    exact hvl
  · intro H
    have htype :
        x.after.sew = x.inst.vectorConfig.sew ∧ x.after.lmul = x.inst.vectorConfig.lmul := by
      by_cases hzero : x.zeroSource
      · cases hdest : x.inst.hasZeroRegDest with
        | true => simp [hkeep hzero hdest]
        | false => simp [hall hzero hdest]
      · simp [hown hzero]
    refine ⟨htype.1, htype.2, fun hzero hdest => ?_, fun hzero hdest => ?_, fun hzero => ?_,
      fun hlegal => ?_⟩
    · rw [hkeep hzero hdest]
      exact H hzero hdest
    · rw [hall hzero hdest]
      rfl
    · rw [hown hzero]
    · by_cases hzero : x.zeroSource
      · cases hdest : x.inst.hasZeroRegDest with
        | true =>
          rw [hkeep hzero hdest]
          exact min_le_right _ _
        | false =>
          rw [hall hzero hdest]
          exact le_rfl
      · rw [hown hzero]
        exact hlegal

/-- Each vset finds the configuration that the one before it has left. -/
def Chained : VectorConfig → List ProcessedVset → VectorConfig → Prop
  | c, [], c' => c = c'
  | c, x :: l, c' => x.before = c ∧ Chained x.after l c'

theorem Chained.append {c c₁ c' : VectorConfig} : ∀ {l l' : List ProcessedVset},
    Chained c l c₁ → Chained c₁ l' c' → Chained c (l ++ l') c'
  | [], l', h, h' => by
    obtain rfl : c = c₁ := h
    exact h'
  | _ :: _, _, h, h' => ⟨h.1, h.2.append h'⟩

end ProcessedVset

open ProcessedVset VectorUopGenerator

namespace Decode

/-- Decode processes the vset as soon as it takes it. -/
def setsNow (i : Inst) : Bool :=
  i.mavisUid = .vsetivli || (i.mavisUid = .vsetvli && i.hasZeroRegSource)

/-- The vsets that are processed while the instructions are taken. -/
def vsetsIn : VectorConfig → List Inst → List ProcessedVset
  | _, [] => []
  | c, i :: rest =>
    let c' := (configure c i).config
    if setsNow i then ⟨c, i, c'⟩ :: vsetsIn c' rest else vsetsIn c' rest

theorem configure_config (c : VectorConfig) (i : Inst) :
    (configure c i).config = if setsNow i then updateVectorConfig i else c := by
  have hiff : setsNow i = true ↔
      i.mavisUid = .vsetivli ∨ (i.mavisUid = .vsetvli ∧ i.hasZeroRegSource) := by
    simp [setsNow]
  unfold configure
  by_cases hnow : setsNow i = true
  · rw [if_pos (hiff.mp hnow), if_pos hnow]
  · rw [if_neg fun h => hnow (hiff.mpr h), if_neg hnow]
    split
    · rfl
    · split <;> rfl

theorem chained_vsetsIn : ∀ (l : List Inst) (c : VectorConfig),
    Chained c (vsetsIn c l) (l.foldl (fun c i => (configure c i).config) c) ∧
      ∀ x ∈ vsetsIn c l, x.after = updateVectorConfig x.inst
  | [], c => ⟨rfl, by simp [vsetsIn]⟩
  | i :: l, c => by
    obtain ⟨hchain, hafter⟩ := chained_vsetsIn l (configure c i).config
    have hconfig := configure_config c i
    unfold vsetsIn
    rw [List.foldl_cons]
    dsimp only
    split
    · rename_i hnow
      rw [if_pos hnow] at hconfig
      refine ⟨⟨rfl, hchain⟩, fun x hx => ?_⟩
      rcases List.mem_cons.mp hx with rfl | hx
      · exact hconfig
      · exact hafter x hx
    · rename_i hlater
      rw [if_neg hlater] at hconfig
      rw [hconfig] at hchain hafter ⊢
      exact ⟨hchain, hafter⟩

variable {m : Mavis} {s s' : DecodeState}

/-- A session takes a first part of the queue, and its vsets leave the configuration behind. -/
theorem decodeLoop_config {n : ℕ} {grp grp' : DecodeGroup}
    (h : decodeLoop m n s grp = .ok (s', grp')) :
    ∃ taken, s.fetchQueue = taken ++ s'.fetchQueue ∧
      s'.vectorConfig = taken.foldl (fun c i => (configure c i).config) s.vectorConfig := by
  refine decodeLoop_induct (I := fun d _ => ∃ taken, s.fetchQueue = taken ++ d.fetchQueue ∧
    d.vectorConfig = taken.foldl (fun c i => (configure c i).config) s.vectorConfig) ?_ n
    ⟨[], rfl, rfl⟩ h
  rintro d d' grp grp' - ⟨taken, hq, hc⟩ h
  have htake : ∀ {i : Inst} {rest : List Inst}, d.fetchQueue = i :: rest →
      d'.fetchQueue = rest → d'.vectorConfig = (configure d.vectorConfig i).config →
      ∃ taken, s.fetchQueue = taken ++ d'.fetchQueue ∧
        d'.vectorConfig = taken.foldl (fun c i => (configure c i).config) s.vectorConfig := by
    intro i rest hqueue hrest hconfig
    refine ⟨taken ++ [i], by rw [hq, hqueue, hrest, List.append_assoc]; rfl, ?_⟩
    rw [hconfig, List.foldl_append, ← hc]
    rfl
  unfold decodeOne at h
  split at h
  · obtain ⟨⟨uop, gen⟩, -, h⟩ := Run.bind_eq_ok.mp h
    obtain ⟨rfl, rfl⟩ := Prod.mk.inj (Option.some.inj (Except.ok.inj h))
    exact ⟨taken, hq, hc⟩
  · rcases hqueue : d.fetchQueue with _ | ⟨i, rest⟩
    · rw [hqueue] at h
      cases h
    · rw [hqueue] at h
      dsimp only at h
      split at h
      · obtain ⟨gen, -, h⟩ := Run.bind_eq_ok.mp h
        obtain ⟨⟨uop, gen'⟩, -, h⟩ := Run.bind_eq_ok.mp h
        obtain ⟨rfl, rfl⟩ := Prod.mk.inj (Option.some.inj (Except.ok.inj h))
        exact htake hqueue rfl rfl
      · obtain ⟨rfl, rfl⟩ := Prod.mk.inj (Option.some.inj (Except.ok.inj h))
        exact htake hqueue rfl rfl

end Decode

namespace DecodeEvent

open Decode

/-- The vsets that a step processes. -/
def vsetObs (p : DecodeParams) (s : DecodeEvent) : DecodeOp → List ProcessedVset
  | .vset i => [⟨s.decode.vectorConfig, i, (processVset s.decode i).vectorConfig⟩]
  | .decode =>
    match decodeInsts p s.decode with
    | .ok (d, _) => vsetsIn s.decode.vectorConfig
        (s.decode.fetchQueue.take (s.decode.fetchQueue.length - d.fetchQueue.length))
    | .error _ => []
  | _ => []

variable {p : DecodeParams} {s s' : DecodeEvent} {op : DecodeOp}

/-- A step changes the configuration by the vsets it processes, and each of them sets its own. -/
theorem vsets_step (hstep : s.step p op = .ok s') :
    Chained s.decode.vectorConfig (s.vsetObs p op) s'.decode.vectorConfig ∧
      ∀ x ∈ s.vsetObs p op, x.after = updateVectorConfig x.inst := by
  cases op with
  | vset i =>
    obtain ⟨-, -, hstep⟩ := Run.bind_eq_ok.mp hstep
    obtain rfl := Except.ok.inj hstep
    refine ⟨⟨rfl, rfl⟩, fun x hx => ?_⟩
    obtain rfl := List.mem_singleton.mp hx
    rfl
  | decode =>
    obtain ⟨-, -, hstep⟩ := Run.bind_eq_ok.mp hstep
    obtain ⟨⟨d, out⟩, hdec, hstep⟩ := Run.bind_eq_ok.mp hstep
    obtain rfl := Except.ok.inj hstep
    have hdec := checked_eq_ok.mp hdec
    simp only [vsetObs, hdec]
    rcases decodeInsts_cases hdec with ⟨-, rfl, -⟩ | ⟨-, d₁, grp, hloop, rfl, -⟩
    · simp [vsetsIn, Chained]
    · obtain ⟨taken, hq, hc⟩ := decodeLoop_config hloop
      dsimp only at hq hc ⊢
      rw [hq, hc]
      simpa using chained_vsetsIn taken s.decode.vectorConfig
  | flush c =>
    obtain rfl := Except.ok.inj hstep
    exact ⟨rfl, by simp [vsetObs]⟩
  | credits | appended | nextCycle =>
    obtain ⟨-, -, hstep⟩ := Run.bind_eq_ok.mp hstep
    obtain rfl := Except.ok.inj hstep
    exact ⟨rfl, by simp [vsetObs]⟩

end DecodeEvent

/-- In every run of Decode, each vset that is processed finds the configuration of the one before
it, and leaves one that follows the rules if and only if it does not keep another `VL` than its
own. -/
theorem vl_follows_vset_rules (p : DecodeParams) {s₀ s : DecodeEvent} {ops : List DecodeOp}
    {hist : List ProcessedVset}
    (hrun : ops.foldlM (Run.traced (DecodeEvent.step p) (DecodeEvent.vsetObs p)) ([], s₀) =
      .ok (hist, s)) :
    Chained s₀.decode.vectorConfig hist s.decode.vectorConfig ∧
      ∀ x ∈ hist, (x.FollowsRules ↔ x.KeepsOwn) := by
  have hall : Chained s₀.decode.vectorConfig hist s.decode.vectorConfig ∧
      ∀ x ∈ hist, x.after = Decode.updateVectorConfig x.inst := by
    refine Run.foldlM_ok_preserves (I := fun hs : List ProcessedVset × DecodeEvent =>
      Chained s₀.decode.vectorConfig hs.1 hs.2.decode.vectorConfig ∧
        ∀ x ∈ hs.1, x.after = Decode.updateVectorConfig x.inst) ?_ ?_ hrun
    · rintro op ⟨hist, t⟩ ⟨hist', t'⟩ ⟨hchain, hafter⟩ hstep
      obtain ⟨hstep, rfl⟩ := Run.traced_eq_ok.mp hstep
      obtain ⟨hchain', hafter'⟩ := DecodeEvent.vsets_step hstep
      exact ⟨hchain.append hchain', List.forall_mem_append.mpr ⟨hafter, hafter'⟩⟩
    · exact ⟨rfl, by simp⟩
  exact ⟨hall.1, fun x hx => followsRules_iff (hall.2 x hx)⟩

/-! ## Two runs -/

/-- `vsetvli x0, x0` with the configuration it carries. -/
def vsetvliKeep (c : VectorConfig) : Inst :=
  { uniqueId := 1
    srcs := [⟨0, .rs1, .integer⟩]
    dests := [⟨0, .rd, .integer⟩]
    pipe := .vset
    mavisUid := .vsetvli
    vectorConfig := c }

/-- `vsetivli` with the configuration it carries. -/
def vsetivliOf (c : VectorConfig) : Inst :=
  { uniqueId := 0, pipe := .vset, mavisUid := .vsetivli, vectorConfig := c }

/-- Decode takes the vsets in one session. -/
def vsetRun (l : List Inst) : List DecodeOp := [.credits 4, .appended l, .decode]

/-- The new `VL` is that of a default configuration, and not the 128 before the vset. -/
theorem vsetvli_drops_vl : ∃ hist s,
    (vsetRun [vsetvliKeep {}]).foldlM (Run.traced (DecodeEvent.step { mavis := operandMavis })
      (DecodeEvent.vsetObs { mavis := operandMavis })) ([], {}) = .ok (hist, s) ∧
    s.decode.vectorConfig.vl = 16 ∧ ∃ x ∈ hist, x.before.vl = 128 ∧ x.after.vlmax = 128 ∧
      x.before.vl ≤ x.before.vlmax ∧ ¬x.FollowsRules := by
  refine ⟨[⟨{ vl := 128 }, vsetvliKeep {}, {}⟩], _, rfl, rfl, _, List.mem_singleton_self _, rfl,
    rfl, by decide, fun H => ?_⟩
  exact absurd (H.keep ⟨rfl, rfl⟩ rfl) (by decide)

/-- A `vsetivli` and a `vsetvli` that has the `VL` to be kept. -/
theorem vl_follows_vset_rules_kept : ∃ hist s,
    (vsetRun [vsetivliOf { vl := 100 }, vsetvliKeep { sew := 16, vl := 100 }]).foldlM
      (Run.traced (DecodeEvent.step { mavis := operandMavis })
        (DecodeEvent.vsetObs { mavis := operandMavis })) ([], {}) = .ok (hist, s) ∧
    Chained { vl := 128 } hist { sew := 16, vl := 64 } ∧ hist.length = 2 ∧
    ∀ x ∈ hist, x.FollowsRules := by
  obtain ⟨s, hrun, hconfig⟩ : ∃ s,
      (vsetRun [vsetivliOf { vl := 100 }, vsetvliKeep { sew := 16, vl := 100 }]).foldlM
        (Run.traced (DecodeEvent.step { mavis := operandMavis })
          (DecodeEvent.vsetObs { mavis := operandMavis })) ([], {}) =
        .ok ([⟨{ vl := 128 }, vsetivliOf { vl := 100 }, { vl := 100 }⟩,
          ⟨{ vl := 100 }, vsetvliKeep { sew := 16, vl := 100 }, { sew := 16, vl := 64 }⟩], s) ∧
      s.decode.vectorConfig = { sew := 16, vl := 64 } := ⟨_, rfl, rfl⟩
  obtain ⟨hchain, hrules⟩ := vl_follows_vset_rules { mavis := operandMavis } hrun
  refine ⟨_, s, hrun, hconfig ▸ hchain, rfl, fun x hx => (hrules x hx).mpr ?_⟩
  simp only [List.mem_cons, List.not_mem_nil, or_false] at hx
  rcases hx with rfl | rfl
  · exact fun hzero => absurd hzero.1 (by decide)
  · exact fun _ _ => by decide

end Olympia
