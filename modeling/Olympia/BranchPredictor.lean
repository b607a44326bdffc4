import Mathlib.Logic.Function.Basic
import Olympia.Lib.Run
import Olympia.FlushManager

/-!
# The branch predictor

`core/fetch/SimpleBranchPred.cpp`: a branch history table of two-bit counters and a branch target
buffer, both by the PC of a fetch packet.  A prediction for a PC that is not in the tables enters
it; an update trains the entry.

The documented algorithm makes the prediction a function of the updates for the PC
(`lawfulPrediction`).  The code differs from it in two places.  The fall-through address of an entry
adds the branch index and the size of *one* instruction to the PC, where it should add the size of
all instructions up to the branch; and a first prediction enters the number of instructions of a
packet as branch index, so that the second one is not a miss any more.  `prediction_lawful_iff` says
for which histories the prediction is the documented one.
-/

namespace Olympia
namespace BranchPredictor

structure DefaultPrediction where
  branchIdx : BitVec 32
  predictedPC : BitVec 64
  deriving DecidableEq, Repr

structure DefaultUpdate where
  fetchPC : BitVec 64
  branchIdx : BitVec 32
  correctedPC : BitVec 64
  actuallyTaken : Bool
  deriving DecidableEq, Repr

structure DefaultInput where
  fetchPC : BitVec 64
  deriving DecidableEq, Repr

structure BTBEntry where
  branchIdx : BitVec 32
  predictedPC : BitVec 64
  deriving DecidableEq, Repr

/-- `BranchPredictorIF::bytes_per_inst`. -/
def bytesPerInst : ℕ := 4

/-- The tables of a `SimpleBranchPredictor`. -/
structure SimpleBranchPredictor where
  branchHistoryTable : BitVec 64 → Option ℕ := fun _ => none
  branchTargetBuffer : BitVec 64 → Option BTBEntry := fun _ => none

namespace SimpleBranchPredictor

/-- `updatePredictor`. -/
def updatePredictor (s : SimpleBranchPredictor) (update : DefaultUpdate) :
    Except Assertion SimpleBranchPredictor :=
  match s.branchTargetBuffer update.fetchPC with
  | none => .error .noBTBEntry
  | some entry =>
    let entry := { entry with branchIdx := update.branchIdx }
    -- `operator[]` enters 0 for a PC that is not in the table
    let counter := (s.branchHistoryTable update.fetchPC).getD 0
    if update.actuallyTaken then
      .ok {
        branchHistoryTable := Function.update s.branchHistoryTable update.fetchPC
          (some (if counter = 3 then 3 else counter + 1))
        branchTargetBuffer := Function.update s.branchTargetBuffer update.fetchPC
          (some { entry with predictedPC := update.correctedPC }) }
    else
      .ok {
        branchHistoryTable := Function.update s.branchHistoryTable update.fetchPC
          (some (if counter = 0 then 0 else counter - 1))
        branchTargetBuffer := Function.update s.branchTargetBuffer update.fetchPC (some entry) }

/-- `getPrediction`, for packets of up to `maxFetchInsts` instructions. -/
def getPrediction (maxFetchInsts : BitVec 32) (s : SimpleBranchPredictor) (input : DefaultInput) :
    DefaultPrediction × SimpleBranchPredictor :=
  let (predictTaken, bht) : Bool × (BitVec 64 → Option ℕ) :=
    match s.branchHistoryTable input.fetchPC with
    | some counter => (counter > 1, s.branchHistoryTable)
    | none => (false, Function.update s.branchHistoryTable input.fetchPC (some 1))
  match s.branchTargetBuffer input.fetchPC with
  | some entry =>
    ({ branchIdx := entry.branchIdx
       predictedPC :=
        if predictTaken then entry.predictedPC
        else input.fetchPC + entry.branchIdx.setWidth 64 + BitVec.ofNat 64 bytesPerInst },
      { s with branchHistoryTable := bht })
  | none =>
    -- the product is one of 32-bit integers
    let predictedPC :=
      input.fetchPC + (maxFetchInsts * BitVec.ofNat 32 bytesPerInst).setWidth 64
    (⟨maxFetchInsts, predictedPC⟩,
      { branchHistoryTable := bht
        branchTargetBuffer := Function.update s.branchTargetBuffer input.fetchPC
          (some ⟨maxFetchInsts, predictedPC⟩) })

end SimpleBranchPredictor

/-! ## Histories -/

/-- The calls of a client. -/
inductive PredictorOp where
  | predict (input : DefaultInput)
  | update (update : DefaultUpdate)
  deriving DecidableEq, Repr

/-- One call; what `getPrediction` answers is left out. -/
def step (maxFetchInsts : BitVec 32) (s : SimpleBranchPredictor) :
    PredictorOp → Except Assertion SimpleBranchPredictor
  | .predict input => .ok (s.getPrediction maxFetchInsts input).2
  | .update update => s.updatePredictor update

/-- A PC is only updated when it has been predicted before. -/
def PredictsFirst (ops : List PredictorOp) : Prop :=
  ∀ before u after, ops = before ++ .update u :: after → .predict ⟨u.fetchPC⟩ ∈ before

/-- The updates for a PC. -/
def updatesFor (pc : BitVec 64) (ops : List PredictorOp) : List DefaultUpdate :=
  ops.filterMap fun
    | .update u => if u.fetchPC = pc then some u else none
    | .predict _ => none

/-- The two-bit counter after the updates. -/
def counterAfter (us : List DefaultUpdate) : ℕ :=
  us.foldl (fun c u => if u.actuallyTaken then min (c + 1) 3 else c - 1) 1

/-- The last taken update. -/
def lastTaken (us : List DefaultUpdate) : Option DefaultUpdate :=
  (us.filter (·.actuallyTaken)).getLast?

/-- The documented prediction for a PC with the updates `us`. -/
def lawfulPrediction (maxFetchInsts : BitVec 32) (pc : BitVec 64) (us : List DefaultUpdate) :
    DefaultPrediction :=
  match us.getLast? with
  | none => ⟨maxFetchInsts, pc + BitVec.ofNat 64 (maxFetchInsts.toNat * bytesPerInst)⟩
  | some u => {
      branchIdx := u.branchIdx
      predictedPC :=
        match if 1 < counterAfter us then lastTaken us else none with
        | some t => t.correctedPC
        | none => pc + BitVec.ofNat 64 ((u.branchIdx.toNat + 1) * bytesPerInst) }

variable {maxFetchInsts : BitVec 32} {pc : BitVec 64} {ops : List PredictorOp}
  {us : List DefaultUpdate} {s s' : SimpleBranchPredictor}

@[simp] theorem updatesFor_append (pc : BitVec 64) (ops ops' : List PredictorOp) :
    updatesFor pc (ops ++ ops') = updatesFor pc ops ++ updatesFor pc ops' :=
  List.filterMap_append

@[simp] theorem updatesFor_predict (pc : BitVec 64) (input : DefaultInput) :
    updatesFor pc [.predict input] = [] := rfl

theorem updatesFor_update (pc : BitVec 64) (u : DefaultUpdate) :
    updatesFor pc [.update u] = if u.fetchPC = pc then [u] else [] := by
  unfold updatesFor
  split
  · rename_i hpc
    simp [hpc]
  · rename_i hpc
    simp [hpc]

@[simp] theorem counterAfter_concat (us : List DefaultUpdate) (u : DefaultUpdate) :
    counterAfter (us ++ [u]) =
      if u.actuallyTaken then min (counterAfter us + 1) 3 else counterAfter us - 1 := by
  simp [counterAfter]

theorem counterAfter_le (us : List DefaultUpdate) : counterAfter us ≤ 3 := by
  induction us using List.reverseRecOn with
  | nil => decide
  | append_singleton us u ih =>
    rw [counterAfter_concat]
    split <;> omega

theorem lastTaken_concat (us : List DefaultUpdate) (u : DefaultUpdate) :
    lastTaken (us ++ [u]) = if u.actuallyTaken then some u else lastTaken us := by
  unfold lastTaken
  split
  · rename_i htaken
    simp [List.filter_append, htaken]
  · rename_i htaken
    simp [List.filter_append, htaken]

/-- The counter passes 1 only by a taken branch. -/
theorem exists_lastTaken : ∀ {us : List DefaultUpdate}, 1 < counterAfter us →
    ∃ t, lastTaken us = some t := by
  intro us
  induction us using List.reverseRecOn with
  | nil =>
    intro h
    exact absurd h (by decide)
  | append_singleton us u ih =>
    intro h
    rw [counterAfter_concat] at h
    rw [lastTaken_concat]
    split
    · exact ⟨u, rfl⟩
    · rename_i htaken
      rw [if_neg htaken] at h
      exact ih (by omega)

/-! ## The tables and the history -/

/-- The entries of a PC after the updates `us`. -/
structure Trained (maxFetchInsts : BitVec 32) (us : List DefaultUpdate)
    (s : SimpleBranchPredictor) (pc : BitVec 64) (entry : BTBEntry) : Prop where
  counter : s.branchHistoryTable pc = some (counterAfter us)
  entry_eq : s.branchTargetBuffer pc = some entry
  branchIdx : entry.branchIdx = (us.getLast?.map (·.branchIdx)).getD maxFetchInsts
  target : ∀ t, lastTaken us = some t → entry.predictedPC = t.correctedPC

/-- The tables hold the PCs that have been predicted, as the updates have left them. -/
structure Tracks (maxFetchInsts : BitVec 32) (ops : List PredictorOp)
    (s : SimpleBranchPredictor) : Prop where
  unknown : ∀ pc, .predict ⟨pc⟩ ∉ ops →
    s.branchHistoryTable pc = none ∧ s.branchTargetBuffer pc = none
  known : ∀ pc, .predict ⟨pc⟩ ∈ ops →
    ∃ entry, Trained maxFetchInsts (updatesFor pc ops) s pc entry

/-- A PC that is in the tables is predicted from its entries, which stay. -/
theorem Trained.getPrediction {entry : BTBEntry} (T : Trained maxFetchInsts us s pc entry) :
    s.getPrediction maxFetchInsts ⟨pc⟩ =
      (⟨entry.branchIdx, if 1 < counterAfter us then entry.predictedPC
        else pc + entry.branchIdx.setWidth 64 + BitVec.ofNat 64 bytesPerInst⟩, s) := by
  unfold SimpleBranchPredictor.getPrediction
  simp [T.counter, T.entry_eq]

/-- A PC that is not in the tables is entered. -/
theorem getPrediction_unknown (hbht : s.branchHistoryTable pc = none)
    (hbtb : s.branchTargetBuffer pc = none) :
    s.getPrediction maxFetchInsts ⟨pc⟩ =
      (⟨maxFetchInsts, pc + (maxFetchInsts * BitVec.ofNat 32 bytesPerInst).setWidth 64⟩,
        ⟨Function.update s.branchHistoryTable pc (some 1),
          Function.update s.branchTargetBuffer pc (some ⟨maxFetchInsts,
            pc + (maxFetchInsts * BitVec.ofNat 32 bytesPerInst).setWidth 64⟩)⟩) := by
  unfold SimpleBranchPredictor.getPrediction
  simp [hbht, hbtb]

/-- An update trains the entries of its PC. -/
theorem Trained.updatePredictor {u : DefaultUpdate} {entry : BTBEntry}
    (T : Trained maxFetchInsts us s u.fetchPC entry) :
    ∃ s' entry', s.updatePredictor u = .ok s' ∧
      Trained maxFetchInsts (us ++ [u]) s' u.fetchPC entry' ∧
      ∀ pc, pc ≠ u.fetchPC → s'.branchHistoryTable pc = s.branchHistoryTable pc ∧
        s'.branchTargetBuffer pc = s.branchTargetBuffer pc := by
  have hle := counterAfter_le us
  unfold SimpleBranchPredictor.updatePredictor
  simp only [T.entry_eq, T.counter, Option.getD_some]
  split
  · rename_i htaken
    refine ⟨_, ⟨u.branchIdx, u.correctedPC⟩, rfl, ⟨?_, ?_, ?_, ?_⟩, fun pc hpc => ?_⟩
    · rw [counterAfter_concat, if_pos htaken]
      apply (Function.update_self ..).trans
      apply congrArg some
      split <;> omega
    · exact Function.update_self ..
    · simp
    · intro t ht
      rw [lastTaken_concat, if_pos htaken] at ht
      rw [← Option.some.inj ht]
    · exact ⟨Function.update_of_ne hpc _ _, Function.update_of_ne hpc _ _⟩
  · rename_i htaken
    refine ⟨_, ⟨u.branchIdx, entry.predictedPC⟩, rfl, ⟨?_, ?_, ?_, ?_⟩, fun pc hpc => ?_⟩
    · rw [counterAfter_concat, if_neg htaken]
      apply (Function.update_self ..).trans
      apply congrArg some
      split <;> omega
    · exact Function.update_self ..
    · simp
    · intro t ht
      rw [lastTaken_concat, if_neg htaken] at ht
      exact T.target t ht
    · exact ⟨Function.update_of_ne hpc _ _, Function.update_of_ne hpc _ _⟩

theorem Trained.congr {entry : BTBEntry} (T : Trained maxFetchInsts us s pc entry)
    (hbht : s'.branchHistoryTable pc = s.branchHistoryTable pc)
    (hbtb : s'.branchTargetBuffer pc = s.branchTargetBuffer pc) :
    Trained maxFetchInsts us s' pc entry :=
  ⟨hbht.trans T.counter, hbtb.trans T.entry_eq, T.branchIdx, T.target⟩

theorem tracks_init (maxFetchInsts : BitVec 32) : Tracks maxFetchInsts [] {} where
  unknown _ _ := ⟨rfl, rfl⟩
  known pc hpc := by cases hpc

/-- A PC that has not been predicted has had no updates. -/
theorem PredictsFirst.updatesFor_eq_nil (hfirst : PredictsFirst ops)
    (hpc : .predict ⟨pc⟩ ∉ ops) : updatesFor pc ops = [] := by
  apply List.filterMap_eq_nil_iff.mpr
  intro op hop
  cases op with
  | predict input => rfl
  | update u =>
    dsimp only
    split
    · rename_i hu
      subst hu
      obtain ⟨before, after, rfl⟩ := List.append_of_mem hop
      exact absurd (List.mem_append_left _ (hfirst before u after rfl)) hpc
    · rfl

theorem PredictsFirst.of_append {ops ops' : List PredictorOp}
    (hfirst : PredictsFirst (ops ++ ops')) : PredictsFirst ops := by
  intro before u after h
  apply hfirst before u (after ++ ops')
  rw [h, List.append_assoc]
  rfl

theorem PredictsFirst.concat (hfirst : PredictsFirst ops) {op : PredictorOp}
    (hop : ∀ u, op = .update u → .predict ⟨u.fetchPC⟩ ∈ ops) : PredictsFirst (ops ++ [op]) := by
  intro before u after h
  rcases List.eq_nil_or_concat after with rfl | ⟨after, b, rfl⟩
  · obtain ⟨rfl, hlast⟩ := List.append_inj' h rfl
    exact hop u (List.singleton_inj.mp hlast)
  · rw [List.concat_eq_append, ← List.cons_append, ← List.append_assoc] at h
    exact hfirst before u after (List.append_inj' h rfl).1

theorem predictsFirst_single (input : DefaultInput) : PredictsFirst [.predict input] := by
  have hnil : PredictsFirst [] := fun before u after h => by simp at h
  exact hnil.concat fun u hu => by cases hu

theorem Tracks.predict (K : Tracks maxFetchInsts ops s) (hfirst : PredictsFirst ops)
    (pc : BitVec 64) :
    Tracks maxFetchInsts (ops ++ [.predict ⟨pc⟩]) (s.getPrediction maxFetchInsts ⟨pc⟩).2 := by
  by_cases hpc : .predict ⟨pc⟩ ∈ ops
  · obtain ⟨entry, T⟩ := K.known pc hpc
    rw [T.getPrediction]
    constructor
    · intro pc' hpc'
      exact K.unknown pc' fun h => hpc' (List.mem_append_left _ h)
    · intro pc' hpc'
      have hmem : .predict ⟨pc'⟩ ∈ ops := by
        rcases List.mem_append.mp hpc' with h | h
        · exact h
        · cases List.mem_singleton.mp h
          exact hpc
      simpa using K.known pc' hmem
  · obtain ⟨hbht, hbtb⟩ := K.unknown pc hpc
    rw [getPrediction_unknown hbht hbtb]
    constructor
    · intro pc' hpc'
      have hne : pc' ≠ pc := by
        rintro rfl
        exact hpc' (by simp)
      obtain ⟨hbht', hbtb'⟩ := K.unknown pc' fun h => hpc' (List.mem_append_left _ h)
      exact ⟨(Function.update_of_ne hne _ _).trans hbht',
        (Function.update_of_ne hne _ _).trans hbtb'⟩
    · intro pc' hpc'
      rw [updatesFor_append, updatesFor_predict, List.append_nil]
      by_cases hne : pc' = pc
      · subst hne
        rw [hfirst.updatesFor_eq_nil hpc]
        refine ⟨_, Function.update_self .., Function.update_self .., rfl, fun t ht => ?_⟩
        cases ht
      · have hmem : .predict ⟨pc'⟩ ∈ ops := by
          rcases List.mem_append.mp hpc' with h | h
          · exact h
          · cases List.mem_singleton.mp h
            exact absurd rfl hne
        obtain ⟨entry, T⟩ := K.known pc' hmem
        exact ⟨entry, T.congr (Function.update_of_ne hne _ _) (Function.update_of_ne hne _ _)⟩

theorem Tracks.update (K : Tracks maxFetchInsts ops s) {u : DefaultUpdate}
    (hu : .predict ⟨u.fetchPC⟩ ∈ ops) :
    ∃ s', s.updatePredictor u = .ok s' ∧ Tracks maxFetchInsts (ops ++ [.update u]) s' := by
  obtain ⟨entry, T⟩ := K.known u.fetchPC hu
  obtain ⟨s', entry', hs', T', hsame⟩ := T.updatePredictor
  refine ⟨s', hs', fun pc hpc => ?_, fun pc hpc => ?_⟩
  · have hnew : .predict ⟨pc⟩ ∉ ops := fun h => hpc (List.mem_append_left _ h)
    have hne : pc ≠ u.fetchPC := by
      rintro rfl
      exact hnew hu
    rw [(hsame pc hne).1, (hsame pc hne).2]
    exact K.unknown pc hnew
  · rw [updatesFor_append, updatesFor_update]
    by_cases hne : pc = u.fetchPC
    · subst hne
      rw [if_pos rfl]
      exact ⟨entry', T'⟩
    · rw [if_neg (Ne.symm hne), List.append_nil]
      have hmem : .predict ⟨pc⟩ ∈ ops := by simpa using hpc
      obtain ⟨entry, T⟩ := K.known pc hmem
      exact ⟨entry, T.congr (hsame pc hne).1 (hsame pc hne).2⟩

/-- Every history in which no PC is updated before it is predicted is possible, and the tables
track it. -/
theorem exists_tracks : ∀ {ops : List PredictorOp}, PredictsFirst ops →
    ∃ s, ops.foldlM (step maxFetchInsts) {} = .ok s ∧ Tracks maxFetchInsts ops s := by
  intro ops
  induction ops using List.reverseRecOn with
  | nil => exact fun _ => ⟨{}, rfl, tracks_init maxFetchInsts⟩
  | append_singleton ops op ih =>
    intro hfirst
    obtain ⟨s, hs, K⟩ := ih hfirst.of_append
    rw [List.foldlM_append, hs]
    cases op with
    | predict input => exact ⟨_, rfl, K.predict hfirst.of_append input.fetchPC⟩
    | update u =>
      obtain ⟨s', hs', K'⟩ := K.update (hfirst ops u [] rfl)
      exact ⟨s', Run.bind_eq_ok.mpr ⟨s, rfl, Run.bind_eq_ok.mpr ⟨s', hs', rfl⟩⟩, K'⟩

/-! ## When the prediction is the documented one -/

theorem toNat_afterBranch (idx : BitVec 32) :
    (idx.setWidth 64 + BitVec.ofNat 64 bytesPerInst).toNat = idx.toNat + bytesPerInst := by
  have hlt := idx.isLt
  unfold bytesPerInst
  rw [BitVec.toNat_add, BitVec.toNat_setWidth, BitVec.toNat_ofNat, ← Nat.add_mod]
  exact Nat.mod_eq_of_lt (by omega)

theorem toNat_packet {k : ℕ} (hk : k ≤ 2 ^ 32) :
    (BitVec.ofNat 64 (k * bytesPerInst)).toNat = k * bytesPerInst := by
  unfold bytesPerInst
  rw [BitVec.toNat_ofNat]
  exact Nat.mod_eq_of_lt (by omega)

/-- The address after one instruction is that after `idx + 1` instructions for `idx = 0` only. -/
theorem fall_through_iff (pc : BitVec 64) (idx : BitVec 32) :
    pc + idx.setWidth 64 + BitVec.ofNat 64 bytesPerInst =
      pc + BitVec.ofNat 64 ((idx.toNat + 1) * bytesPerInst) ↔ idx = 0 := by
  have hlt := idx.isLt
  have hzero : idx = 0 ↔ idx.toNat = 0 := BitVec.toNat_inj.symm
  rw [BitVec.add_assoc, BitVec.add_right_inj, ← BitVec.toNat_inj, toNat_afterBranch,
    toNat_packet (by omega), hzero]
  unfold bytesPerInst
  omega

/-- An entry with the size of a packet as branch index does not fall through to its end. -/
theorem second_prediction_ne (pc : BitVec 64) (n : BitVec 32) :
    pc + n.setWidth 64 + BitVec.ofNat 64 bytesPerInst ≠
      pc + BitVec.ofNat 64 (n.toNat * bytesPerInst) := by
  intro heq
  have hlt := n.isLt
  rw [BitVec.add_assoc, BitVec.add_right_inj, ← BitVec.toNat_inj, toNat_afterBranch,
    toNat_packet (by omega)] at heq
  unfold bytesPerInst at heq
  omega

/-- The product of a first prediction must fit into 32 bits. -/
theorem first_prediction_iff (pc : BitVec 64) (n : BitVec 32) :
    pc + (n * BitVec.ofNat 32 bytesPerInst).setWidth 64 =
      pc + BitVec.ofNat 64 (n.toNat * bytesPerInst) ↔ n.toNat < 2 ^ 30 := by
  have hlt := n.isLt
  rw [BitVec.add_right_inj, ← BitVec.toNat_inj, toNat_packet (by omega), BitVec.toNat_setWidth,
    BitVec.toNat_mul, BitVec.toNat_ofNat]
  unfold bytesPerInst
  omega

/-- The histories after which the prediction for a PC is the documented one: before the first
update the PC has not been predicted yet, and after it the counter predicts a taken branch or the
last branch was the first instruction of the packet. -/
def PredictsLawfully (maxFetchInsts : BitVec 32) (pc : BitVec 64) (ops : List PredictorOp) :
    Prop :=
  match (updatesFor pc ops).getLast? with
  | none => .predict ⟨pc⟩ ∉ ops ∧ maxFetchInsts.toNat < 2 ^ 30
  | some u => 1 < counterAfter (updatesFor pc ops) ∨ u.branchIdx = 0

theorem Tracks.prediction_iff (K : Tracks maxFetchInsts ops s) (hfirst : PredictsFirst ops)
    (pc : BitVec 64) :
    (s.getPrediction maxFetchInsts ⟨pc⟩).1 =
        lawfulPrediction maxFetchInsts pc (updatesFor pc ops) ↔
      PredictsLawfully maxFetchInsts pc ops := by
  unfold PredictsLawfully lawfulPrediction
  by_cases hpc : .predict ⟨pc⟩ ∈ ops
  · obtain ⟨entry, T⟩ := K.known pc hpc
    rw [T.getPrediction]
    have hidx := T.branchIdx
    cases hlast : (updatesFor pc ops).getLast? with
    | none =>
      have hnil : updatesFor pc ops = [] := List.getLast?_eq_none_iff.mp hlast
      rw [hlast] at hidx
      simp only [Option.map_none, Option.getD_none] at hidx
      have hcold : ¬ 1 < counterAfter [] := by decide
      simp only [hnil, hcold, if_false, hidx, DefaultPrediction.mk.injEq, true_and, hpc,
        not_true_eq_false, false_and, iff_false]
      exact second_prediction_ne pc maxFetchInsts
    | some u =>
      rw [hlast] at hidx
      simp only [Option.map_some, Option.getD_some] at hidx
      by_cases hcount : 1 < counterAfter (updatesFor pc ops)
      · obtain ⟨t, ht⟩ := exists_lastTaken hcount
        simp [hcount, ht, hidx, T.target t ht]
      · simp only [hcount, if_false, hidx, DefaultPrediction.mk.injEq, true_and, false_or]
        exact fall_through_iff pc u.branchIdx
  · obtain ⟨hbht, hbtb⟩ := K.unknown pc hpc
    rw [getPrediction_unknown hbht hbtb, hfirst.updatesFor_eq_nil hpc]
    simp only [List.getLast?_nil, DefaultPrediction.mk.injEq, true_and, hpc, not_false_eq_true]
    exact first_prediction_iff pc maxFetchInsts

/-- Every history in which a PC is predicted before it is updated is possible, and the next
prediction for a PC is the documented one if and only if `PredictsLawfully` holds. -/
theorem prediction_lawful_iff (maxFetchInsts : BitVec 32) {ops : List PredictorOp}
    (hfirst : PredictsFirst ops) :
    ∃ s, ops.foldlM (step maxFetchInsts) {} = .ok s ∧
      ∀ pc, (s.getPrediction maxFetchInsts ⟨pc⟩).1 =
          lawfulPrediction maxFetchInsts pc (updatesFor pc ops) ↔
        PredictsLawfully maxFetchInsts pc ops := by
  obtain ⟨s, hs, K⟩ := exists_tracks hfirst
  exact ⟨s, hs, K.prediction_iff hfirst⟩

/-- The history of the unit test: a prediction, and an update with a taken branch. -/
def testOps : List PredictorOp := [.predict ⟨0⟩, .update ⟨0, 2, 0x100, true⟩]

theorem prediction_lawful_iff_test :
    ∃ s, testOps.foldlM (step 4) {} = .ok s ∧
      ∀ pc, (s.getPrediction 4 ⟨pc⟩).1 = lawfulPrediction 4 pc (updatesFor pc testOps) ↔
        PredictsLawfully 4 pc testOps := by
  apply prediction_lawful_iff 4
  apply (predictsFirst_single ⟨0⟩).concat
  rintro u ⟨⟩
  decide

/-- With packets of four instructions the first prediction for the PC 0 is 16, and the second one
is 8. -/
theorem second_prediction_differs :
    ¬ ∀ (maxFetchInsts : BitVec 32) (ops : List PredictorOp), PredictsFirst ops →
      ∃ s, ops.foldlM (step maxFetchInsts) {} = .ok s ∧
        ∀ pc, (s.getPrediction maxFetchInsts ⟨pc⟩).1 =
          lawfulPrediction maxFetchInsts pc (updatesFor pc ops) := by
  intro hall
  obtain ⟨s, hs, hlaw⟩ := hall 4 [.predict ⟨0⟩] (predictsFirst_single ⟨0⟩)
  obtain rfl := Except.ok.inj hs
  exact absurd (hlaw 0) (by decide)

end BranchPredictor
end Olympia
