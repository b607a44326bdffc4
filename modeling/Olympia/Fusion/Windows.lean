import Mathlib.Data.List.Pairwise
import Olympia.Fusion.Matching

/-!
# Fused windows

`processMatches_` of `core/decode/FusionDecode.cpp`.  The matches are applied one after the other:
if the first instruction of a window has no extended status it becomes `FUSED`, and the rest of
the window becomes `FUSION_GHOST` without a test.

A match is thus dropped when its *start* lies in a window applied before, and only then.  The
larger windows come first, so a window cannot be overrun from the right; but a smaller window
that starts before a larger one may reach its start, and then turns the instruction that the
larger one fused into a ghost.  The fused windows are disjoint exactly when no such pair is among
the matches that are kept (`windows_disjoint_iff`).
-/

namespace Olympia

/-- The values that `Inst::setExtendedStatus` accepts as the current one, which are also all it
is ever given. -/
inductive ExtendedStatus where
  | unmod | fused | fusionGhost
  deriving DecidableEq, Repr

/-- The extended statuses of the instructions of a group, and the fusion counters. -/
structure FusionMarks where
  statuses : List ExtendedStatus
  numFuseInstructions : ℕ := 0
  numGhostInstructions : ℕ := 0
  predCyclesSaved : ℕ := 0
  deriving DecidableEq, Repr

namespace Decode

/-- A group of `n` instructions as it comes from the decoding loop: no instruction has an extended
status yet. -/
def unmodified (n : ℕ) : FusionMarks := { statuses := List.replicate n .unmod }

/-- The body of the loop over the rest of a window. -/
def markGhost (st : FusionMarks) (i : ℕ) : Except Assertion FusionMarks :=
  if i < st.statuses.length then
    .ok { st with
      statuses := st.statuses.set i .fusionGhost
      numGhostInstructions := st.numGhostInstructions + 1
      predCyclesSaved := st.predCyclesSaved + 1 }
  else .error .fusionOutOfRange

/-- The body of the loop of `processMatches_`, without the utilization count of the group.  A
start behind the group, for which the source has no check, stops the model as well. -/
def processMatch (st : FusionMarks) (thisMatch : FusionGroupMatchInfo) :
    Except Assertion FusionMarks :=
  match st.statuses[thisMatch.startIdx]? with
  | none => .error .fusionOutOfRange
  | some .unmod =>
    (List.range' (thisMatch.startIdx + 1) (thisMatch.size - 1)).foldlM markGhost
      { st with
        statuses := st.statuses.set thisMatch.startIdx .fused
        numFuseInstructions := st.numFuseInstructions + 1 }
  | some _ => .ok st

/-- `processMatches_`: the matches it leaves, and the marked group. -/
def processMatches (ms : List FusionGroupMatchInfo) (st : FusionMarks) :
    Except Assertion (List FusionGroupMatchInfo × FusionMarks) := do
  let st ← ms.foldlM processMatch st
  return ([], st)

/-! ## What a match marks -/

/-- The instructions that the match turns into ghosts. -/
def ghosts (m : FusionGroupMatchInfo) (i : ℕ) : Bool :=
  m.startIdx < i && i < m.startIdx + m.size

/-- The instructions that the match marks: its window. -/
def covers (m : FusionGroupMatchInfo) (i : ℕ) : Bool := m.startIdx = i || ghosts m i

/-- The extended status of an instruction after the matches have been applied. -/
def markOf (applied : List FusionGroupMatchInfo) (i : ℕ) : ExtendedStatus :=
  if applied.any (ghosts · i) then .fusionGhost
  else if applied.any (·.startIdx = i) then .fused
  else .unmod

/-- A match is kept unless its start lies in the window of one kept before. -/
def keep (acc : List FusionGroupMatchInfo) (m : FusionGroupMatchInfo) :
    List FusionGroupMatchInfo :=
  if acc.any (covers · m.startIdx) then acc else acc ++ [m]

/-- The matches that are kept. -/
def kept (ms : List FusionGroupMatchInfo) : List FusionGroupMatchInfo := ms.foldl keep []

/-- The smaller match starts before the larger one and reaches its start. -/
def RunsInto (b a : FusionGroupMatchInfo) : Prop :=
  b.size < a.size ∧ b.startIdx < a.startIdx ∧ a.startIdx < b.startIdx + b.size

theorem covers_iff {m : FusionGroupMatchInfo} {i : ℕ} :
    covers m i = true ↔ m.startIdx = i ∨ m.startIdx < i ∧ i < m.startIdx + m.size := by
  simp [covers, ghosts]

theorem any_covers (applied : List FusionGroupMatchInfo) (i : ℕ) :
    applied.any (covers · i) = (applied.any (ghosts · i) || applied.any (·.startIdx = i)) := by
  induction applied with
  | nil => rfl
  | cons m ms ih =>
    rw [List.any_cons, List.any_cons, List.any_cons, ih, covers]
    ac_rfl

theorem markOf_eq_unmod {applied : List FusionGroupMatchInfo} {i : ℕ} :
    markOf applied i = .unmod ↔ ¬ applied.any (covers · i) = true := by
  rw [any_covers, markOf]
  cases applied.any (ghosts · i) with
  | true => simp
  | false => cases applied.any (·.startIdx = i) <;> simp

variable {st st' : FusionMarks} {m : FusionGroupMatchInfo}

/-- The loop over the rest of a window of which no instruction is a ghost yet counts the new
ghosts. -/
theorem markGhosts_spec : ∀ {k a : ℕ} {st st' : FusionMarks},
    (List.range' a k).foldlM markGhost st = .ok st' →
    st'.statuses.length = st.statuses.length ∧ (k = 0 ∨ a + k ≤ st.statuses.length) ∧
      (∀ i, st'.statuses[i]? =
        if a ≤ i ∧ i < a + k then some .fusionGhost else st.statuses[i]?) ∧
      ((∀ i, a ≤ i → i < a + k → st.statuses[i]? ≠ some .fusionGhost) →
        st.numGhostInstructions = st.statuses.count .fusionGhost →
        st'.numGhostInstructions = st'.statuses.count .fusionGhost)
  | 0, a, st, st', h => by
    obtain rfl := Except.ok.inj h
    refine ⟨rfl, .inl rfl, fun i => ?_, fun _ hcount => hcount⟩
    rw [if_neg (by omega)]
  | k + 1, a, st, st', h => by
    rw [List.range'_succ, List.foldlM_cons, Run.bind_eq_ok] at h
    obtain ⟨st₁, hone, hrest⟩ := h
    unfold markGhost at hone
    split at hone
    · rename_i ha
      obtain rfl := Except.ok.inj hone
      obtain ⟨hlen, hle, hstatus, hcount⟩ := markGhosts_spec hrest
      simp only [List.length_set] at hlen hle
      refine ⟨hlen, by omega, fun i => ?_, fun hfresh hcounted => ?_⟩
      · rw [hstatus i]
        by_cases hi : a + 1 ≤ i ∧ i < a + 1 + k
        · rw [if_pos hi, if_pos (by omega)]
        · rw [if_neg hi, List.getElem?_set]
          by_cases hai : a = i
          · subst hai
            rw [if_pos rfl, if_pos ha, if_pos (by omega)]
          · rw [if_neg hai, if_neg (by omega)]
      · apply hcount
        · intro i hi hik
          rw [List.getElem?_set_ne (by omega)]
          exact hfresh i (by omega) (by omega)
        · have hnot : st.statuses[a] ≠ .fusionGhost := by
            have := hfresh a le_rfl (by omega)
            rwa [List.getElem?_eq_getElem ha, Ne, Option.some.injEq] at this
          rw [List.count_set ha, hcounted]
          simp [hnot]
    · cases hone

theorem markGhosts_total : ∀ {k a : ℕ} {st : FusionMarks}, (k = 0 ∨ a + k ≤ st.statuses.length) →
    ∃ st', (List.range' a k).foldlM markGhost st = .ok st'
  | 0, a, st, _ => ⟨st, rfl⟩
  | k + 1, a, st, hle => by
    rw [List.range'_succ, List.foldlM_cons]
    have ha : a < st.statuses.length := by omega
    simp only [markGhost, if_pos ha]
    apply markGhosts_total
    rw [List.length_set]
    omega

/-- What one match does: it is applied to a free start, and dropped otherwise. -/
theorem processMatch_cases (h : processMatch st m = .ok st') :
    (st.statuses[m.startIdx]? = some .unmod ∧ st'.statuses.length = st.statuses.length ∧
      m.startIdx + m.size ≤ st.statuses.length ∧
      (∀ i, st'.statuses[i]? = if ghosts m i = true then some .fusionGhost
        else if m.startIdx = i then some .fused else st.statuses[i]?) ∧
      ((∀ i, ghosts m i = true → st.statuses[i]? ≠ some .fusionGhost) →
        st.numGhostInstructions = st.statuses.count .fusionGhost →
        st'.numGhostInstructions = st'.statuses.count .fusionGhost)) ∨
    ((∃ x, st.statuses[m.startIdx]? = some x ∧ x ≠ .unmod) ∧ st' = st) := by
  unfold processMatch at h
  split at h
  · cases h
  · rename_i hfree
    obtain ⟨hstart, hval⟩ := List.getElem?_eq_some_iff.mp hfree
    obtain ⟨hlen, hle, hstatus, hcount⟩ := markGhosts_spec h
    simp only [List.length_set] at hlen hle
    refine .inl ⟨hfree, hlen, by omega, fun i => ?_, fun hfresh hcounted => ?_⟩
    · rw [hstatus i]
      dsimp only
      rw [List.getElem?_set]
      have hghosts : ghosts m i = true ↔
          m.startIdx + 1 ≤ i ∧ i < m.startIdx + 1 + (m.size - 1) := by
        simp only [ghosts, Bool.and_eq_true, decide_eq_true_eq]
        omega
      rw [if_congr hghosts.symm rfl rfl]
      by_cases hi : m.startIdx = i
      · subst hi
        simp [hstart]
      · simp [hi]
    · apply hcount
      · intro i hi hik
        dsimp only
        rw [List.getElem?_set_ne (by omega)]
        apply hfresh
        simp only [ghosts, Bool.and_eq_true, decide_eq_true_eq]
        omega
      · dsimp only
        rw [List.count_set hstart, hval]
        simpa using hcounted
  · rename_i x hne hx
    exact .inr ⟨⟨x, hx, hne⟩, (Except.ok.inj h).symm⟩

/-! ## The run -/

/-- The match, if it is applied. -/
def fuses (st : FusionMarks) (m : FusionGroupMatchInfo) : List FusionGroupMatchInfo :=
  if st.statuses[m.startIdx]? = some .unmod then [m] else []

/-- No two windows share an instruction. -/
def NoOverlap (applied : List FusionGroupMatchInfo) : Prop :=
  applied.Pairwise fun a b => ∀ i, covers a i = true → covers b i = true → False

/-- A group after the matches `applied` have been applied to it. -/
structure Marked (n : ℕ) (applied : List FusionGroupMatchInfo) (st : FusionMarks) : Prop where
  length : st.statuses.length = n
  status : ∀ i < n, st.statuses[i]? = some (markOf applied i)
  range : ∀ m ∈ applied, m.startIdx < n ∧ m.startIdx + m.size ≤ n
  counted : NoOverlap applied → st.numGhostInstructions = st.statuses.count .fusionGhost

variable {n : ℕ} {applied : List FusionGroupMatchInfo}

theorem marked_init (n : ℕ) : Marked n [] (unmodified n) where
  length := by simp [unmodified]
  status i hi := by simp [unmodified, markOf, hi]
  range m hm := by cases hm
  counted _ := by simp [unmodified, List.count_replicate]

theorem Marked.free_iff (M : Marked n applied st) (hm : m.startIdx < n) :
    st.statuses[m.startIdx]? = some .unmod ↔ ¬ applied.any (covers · m.startIdx) = true := by
  rw [M.status _ hm, Option.some.injEq, markOf_eq_unmod]

theorem Marked.step (M : Marked n applied st) (h : processMatch st m = .ok st') :
    Marked n (applied ++ fuses st m) st' := by
  rcases processMatch_cases h with ⟨hfree, hlen, hle, hstatus, hcount⟩ | ⟨⟨x, hx, hne⟩, rfl⟩
  · have hstart : m.startIdx < n := by
      rw [← M.length]
      exact (List.getElem?_eq_some_iff.mp hfree).1
    have hnew := (M.free_iff hstart).mp hfree
    rw [fuses, if_pos hfree]
    rw [M.length] at hlen hle
    refine ⟨hlen, fun i hi => ?_, fun a ha => ?_, fun hdisj => ?_⟩
    · rw [hstatus i, M.status i hi]
      unfold markOf
      by_cases hghost : ghosts m i = true
      · simp [hghost]
      · by_cases hi : m.startIdx = i
        · subst hi
          have hno : ¬ (applied.any (ghosts · m.startIdx)) = true := by
            intro hany
            apply hnew
            obtain ⟨a, ha, hcov⟩ := List.any_eq_true.mp hany
            exact List.any_eq_true.mpr ⟨a, ha, by simp [covers, hcov]⟩
          simp [hghost, hno]
        · simp [hghost, hi]
    · rcases List.mem_append.mp ha with ha | ha
      · exact M.range a ha
      · obtain rfl := List.mem_singleton.mp ha
        exact ⟨hstart, hle⟩
    · obtain ⟨hdisj, -, hcross⟩ := List.pairwise_append.mp hdisj
      apply hcount _ (M.counted hdisj)
      -- a ghost in the new window would lie in two windows
      intro i hi hghost
      have hin : i < n := by
        simp only [ghosts, Bool.and_eq_true, decide_eq_true_eq] at hi
        omega
      rw [M.status i hin, Option.some.injEq] at hghost
      have hcov : ¬ markOf applied i = .unmod := by
        rw [hghost]
        simp
      rw [markOf_eq_unmod, not_not, List.any_eq_true] at hcov
      obtain ⟨a, ha, hai⟩ := hcov
      exact hcross a ha m (List.mem_singleton_self m) i hai (by simp [covers, hi])
  · have hbusy : ¬ st'.statuses[m.startIdx]? = some .unmod := by
      rw [hx]
      simpa using hne
    rw [fuses, if_neg hbusy, List.append_nil]
    exact M

/-- The run of `processMatches_` over a group of `n` instructions, with the matches that it
applies. -/
def fusedBy (ms : List FusionGroupMatchInfo) (n : ℕ) :
    Except Assertion (List FusionGroupMatchInfo × FusionMarks) :=
  ms.foldlM (Run.traced processMatch fuses) ([], unmodified n)

theorem Marked.fuses_eq (M : Marked n applied st) (h : processMatch st m = .ok st') :
    applied ++ fuses st m = keep applied m := by
  have hstart : m.startIdx < n := by
    rw [← M.length]
    rcases processMatch_cases h with ⟨hfree, -⟩ | ⟨⟨x, hx, -⟩, -⟩
    · exact (List.getElem?_eq_some_iff.mp hfree).1
    · exact (List.getElem?_eq_some_iff.mp hx).1
  unfold fuses keep
  by_cases hany : applied.any (covers · m.startIdx) = true
  · rw [if_neg fun hfree => (M.free_iff hstart).mp hfree hany, if_pos hany, List.append_nil]
  · rw [if_pos ((M.free_iff hstart).mpr hany), if_neg hany]

/-- The matches that the run applies are those that are kept. -/
theorem fusedBy_spec {ms : List FusionGroupMatchInfo} (h : fusedBy ms n = .ok (applied, st)) :
    Marked n applied st ∧ applied = kept ms := by
  refine Run.foldlM_ok_induct (I := fun rest (hs : List FusionGroupMatchInfo × FusionMarks) =>
    Marked n hs.1 hs.2 ∧ rest.foldl keep hs.1 = kept ms) (fun m rest hs hs' hI hstep => ?_)
    ⟨marked_init n, rfl⟩ h
  obtain ⟨M, hkept⟩ := hI
  obtain ⟨hone, happlied⟩ := Run.traced_eq_ok.mp hstep
  rw [happlied]
  refine ⟨M.step hone, ?_⟩
  rw [M.fuses_eq hone]
  exact hkept

/-! ## When the windows are disjoint -/

/-- No two fused windows share an instruction, each begins with a `FUSED` instruction that exactly
the ghosts of its window follow, nothing else is fused, and the ghosts have been counted. -/
structure FusedWindows (applied : List FusionGroupMatchInfo) (st : FusionMarks) : Prop where
  disjoint : NoOverlap applied
  start : ∀ m ∈ applied, st.statuses[m.startIdx]? = some .fused
  ghosts : ∀ m ∈ applied, ∀ i, m.startIdx < i → i ≤ m.startIdx + (m.size - 1) →
    st.statuses[i]? = some .fusionGhost
  next : ∀ m ∈ applied, st.statuses[m.startIdx + (m.size - 1) + 1]? ≠ some .fusionGhost
  only : ∀ i, st.statuses[i]? = some .fused → ∃ m ∈ applied, m.startIdx = i
  counted : st.numGhostInstructions = st.statuses.count .fusionGhost

theorem NoOverlap.eq (hdisj : NoOverlap applied) {a b : FusionGroupMatchInfo} (ha : a ∈ applied)
    (hb : b ∈ applied) {i : ℕ} (hai : covers a i = true) (hbi : covers b i = true) : a = b := by
  have : Std.Symm fun a b => ∀ i, covers a i = true → covers b i = true → False :=
    ⟨fun a b hab i hbi hai => hab i hai hbi⟩
  by_contra hne
  exact hdisj.forall ha hb hne i hai hbi

theorem Marked.status_eq (M : Marked n applied st) {i : ℕ} {x : ExtendedStatus}
    (h : st.statuses[i]? = some x) : markOf applied i = x := by
  have hi : i < n := by
    rw [← M.length]
    exact (List.getElem?_eq_some_iff.mp h).1
  rw [M.status i hi] at h
  exact Option.some.inj h

theorem markOf_eq_ghost {i : ℕ} :
    markOf applied i = .fusionGhost ↔ ∃ m ∈ applied, Decode.ghosts m i = true := by
  unfold markOf
  rw [← List.any_eq_true]
  split
  · rename_i hghost
    simp [hghost]
  · rename_i hghost
    constructor
    · intro h
      split at h <;> cases h
    · intro h
      exact absurd h hghost

theorem Marked.fusedWindows (M : Marked n applied st) (hdisj : NoOverlap applied) :
    FusedWindows applied st where
  disjoint := hdisj
  start m hm := by
    rw [M.status _ (M.range m hm).1, Option.some.injEq]
    have hnot : ¬ applied.any (Decode.ghosts · m.startIdx) = true := by
      intro hany
      obtain ⟨a, ha, hghost⟩ := List.any_eq_true.mp hany
      obtain rfl := hdisj.eq ha hm (i := m.startIdx) (by simp [covers, hghost]) (by simp [covers])
      simp [Decode.ghosts] at hghost
    have hstart : applied.any (·.startIdx = m.startIdx) = true :=
      List.any_eq_true.mpr ⟨m, hm, by simp⟩
    rw [markOf, if_neg hnot, if_pos hstart]
  ghosts m hm i hlt hle := by
    have hrange := M.range m hm
    rw [M.status i (by omega), Option.some.injEq, markOf_eq_ghost]
    refine ⟨m, hm, ?_⟩
    simp only [Decode.ghosts, Bool.and_eq_true, decide_eq_true_eq]
    omega
  next m hm hghost := by
    obtain ⟨a, ha, hghost⟩ := markOf_eq_ghost.mp (M.status_eq hghost)
    simp only [Decode.ghosts, Bool.and_eq_true, decide_eq_true_eq] at hghost
    -- the last instruction of the window would lie in the window of `a` as well
    obtain rfl := hdisj.eq ha hm (i := m.startIdx + (m.size - 1))
      (covers_iff.mpr (by omega)) (covers_iff.mpr (by omega))
    omega
  only i hfused := by
    have hmark := M.status_eq hfused
    unfold markOf at hmark
    split at hmark
    · cases hmark
    · split at hmark
      · rename_i hany
        simpa using List.any_eq_true.mp hany
      · cases hmark
  counted := M.counted hdisj

theorem foldl_keep_sublist : ∀ (ms acc : List FusionGroupMatchInfo),
    (ms.foldl keep acc).Sublist (acc ++ ms)
  | [], acc => by simp
  | m :: ms, acc => by
    rw [List.foldl_cons]
    apply (foldl_keep_sublist ms (keep acc m)).trans
    unfold keep
    split
    · exact (List.sublist_cons_self m ms).append_left acc
    · rw [List.append_assoc]
      rfl

theorem foldl_keep_free : ∀ {ms acc : List FusionGroupMatchInfo},
    (acc.Pairwise fun a b => ¬ covers a b.startIdx = true) →
      (ms.foldl keep acc).Pairwise fun a b => ¬ covers a b.startIdx = true
  | [], acc, hacc => hacc
  | m :: ms, acc, hacc => by
    rw [List.foldl_cons]
    apply foldl_keep_free
    unfold keep
    split
    · exact hacc
    · rename_i hany
      refine List.pairwise_append.mpr ⟨hacc, List.pairwise_singleton _ _, fun a ha b hb => ?_⟩
      obtain rfl := List.mem_singleton.mp hb
      exact fun hcov => hany (List.any_eq_true.mpr ⟨a, ha, hcov⟩)

/-- Of two windows that overlap, one starts in the other: the later one, because it is dropped
otherwise. -/
theorem noOverlap_kept_iff {ms : List FusionGroupMatchInfo} (hsorted : BySizeThenStart ms) :
    NoOverlap (kept ms) ↔ ∀ a ∈ kept ms, ∀ b ∈ kept ms, ¬ RunsInto b a := by
  constructor
  · rintro hdisj a ha b hb ⟨hsize, hstart, hreach⟩
    obtain rfl := hdisj.eq ha hb (i := a.startIdx) (covers_iff.mpr (.inl rfl))
      (covers_iff.mpr (.inr ⟨hstart, hreach⟩))
    exact absurd hsize (lt_irrefl _)
  · intro hnone
    have hsub : (kept ms).Sublist ms := foldl_keep_sublist ms []
    have hfree : (kept ms).Pairwise fun a b => ¬ covers a b.startIdx = true :=
      foldl_keep_free .nil
    refine ((hsorted.sublist hsub).and hfree).imp_of_mem ?_
    rintro a b ha hb ⟨hsize, hfree⟩ i hai hbi
    rw [covers_iff] at hfree hai hbi
    by_cases hstart : b.startIdx < a.startIdx
    · apply hnone a ha b hb
      refine ⟨?_, hstart, ?_⟩ <;> omega
    · omega

/-- If the matches have been processed, the fused windows are disjoint, with one fused instruction
and the ghosts of its window each, if and only if no kept match runs into a larger one. -/
theorem windows_disjoint_iff {H : Type} [DecidableEq H] (F : HashCaching H)
    (S : UnstableSort matchLess) (input : List MavisUid) (C : FusionGroupContainer F.hash)
    {ms : List FusionGroupMatchInfo} (hms : matchFusionGroups F S input C = .ok ms) {n : ℕ}
    {rest : List FusionGroupMatchInfo} {st : FusionMarks}
    (hrun : processMatches ms (unmodified n) = .ok (rest, st)) :
    (∃ applied, fusedBy ms n = .ok (applied, st) ∧ FusedWindows applied st) ↔
      ∀ a ∈ kept ms, ∀ b ∈ kept ms, ¬ RunsInto b a := by
  have hsorted : BySizeThenStart ms := by
    rw [matchFusionGroups_eq] at hms
    obtain rfl := Except.ok.inj hms
    exact bySizeThenStart_sort S _
  rw [← noOverlap_kept_iff hsorted]
  constructor
  · rintro ⟨applied, hfused, hwindows⟩
    rw [← (fusedBy_spec hfused).2]
    exact hwindows.disjoint
  · intro hdisj
    obtain ⟨st₁, hst₁, heq⟩ := Run.bind_eq_ok.mp hrun
    obtain rfl : st₁ = st := (Prod.mk.inj (Except.ok.inj heq)).2
    obtain ⟨applied, hfused⟩ := Run.exists_traced_of_foldlM fuses hst₁
    obtain ⟨M, rfl⟩ := fusedBy_spec hfused
    exact ⟨_, hfused, M.fusedWindows hdisj⟩

/-- A group of three UIDs and one of two, told apart by a hash without collisions. -/
def twoGroups : FusionGroupContainer (cachingOf (id : List MavisUid → List MavisUid)).hash where
  groups := [([.other 1, .other 2], ⟨"pair", [.other 1, .other 2]⟩),
    ([.other 2, .other 3, .other 4], ⟨"triple", [.other 2, .other 3, .other 4]⟩)]
  keyed := by decide
  nodup := by decide

theorem windows_disjoint_iff_sample :
    (∃ applied, fusedBy [⟨"triple", 0, [.other 2, .other 3, .other 4]⟩,
          ⟨"pair", 3, [.other 1, .other 2]⟩] 5 =
        .ok (applied, ⟨[.fused, .fusionGhost, .fusionGhost, .fused, .fusionGhost], 2, 3, 3⟩) ∧
      FusedWindows applied
        ⟨[.fused, .fusionGhost, .fusionGhost, .fused, .fusionGhost], 2, 3, 3⟩) ↔
      ∀ a ∈ kept [⟨"triple", 0, [.other 2, .other 3, .other 4]⟩,
          ⟨"pair", 3, [.other 1, .other 2]⟩],
        ∀ b ∈ kept [⟨"triple", 0, [.other 2, .other 3, .other 4]⟩,
          ⟨"pair", 3, [.other 1, .other 2]⟩], ¬ RunsInto b a :=
  windows_disjoint_iff (cachingOf id) sortMatches
    [.other 2, .other 3, .other 4, .other 1, .other 2] twoGroups rfl (n := 5) rfl

/-- The pair at the first instruction reaches into the triple at the second one: the instruction
that the triple fuses ends as a ghost. -/
theorem pair_runs_into_triple :
    ¬ ∀ (F : HashCaching (List MavisUid)) (S : UnstableSort matchLess) (input : List MavisUid)
      (C : FusionGroupContainer F.hash) (ms : List FusionGroupMatchInfo) (n : ℕ)
      (rest : List FusionGroupMatchInfo) (st : FusionMarks),
      matchFusionGroups F S input C = .ok ms → processMatches ms (unmodified n) = .ok (rest, st) →
      ∃ applied, fusedBy ms n = .ok (applied, st) ∧ FusedWindows applied st := by
  intro hall
  obtain ⟨applied, hfused, hwindows⟩ := hall (cachingOf id) sortMatches
    [.other 1, .other 2, .other 3, .other 4] twoGroups
    [⟨"triple", 1, [.other 2, .other 3, .other 4]⟩, ⟨"pair", 0, [.other 1, .other 2]⟩] 4 []
    ⟨[.fused, .fusionGhost, .fusionGhost, .fusionGhost], 2, 3, 3⟩ rfl rfl
  have hresult : fusedBy [⟨"triple", 1, [.other 2, .other 3, .other 4]⟩,
      ⟨"pair", 0, [.other 1, .other 2]⟩] 4 =
      .ok ([⟨"triple", 1, [.other 2, .other 3, .other 4]⟩, ⟨"pair", 0, [.other 1, .other 2]⟩],
        ⟨[.fused, .fusionGhost, .fusionGhost, .fusionGhost], 2, 3, 3⟩) := rfl
  obtain ⟨rfl, -⟩ := Prod.mk.inj (Except.ok.inj (hfused.symm.trans hresult))
  have hstart := hwindows.start ⟨"triple", 1, [.other 2, .other 3, .other 4]⟩ (by simp)
  exact absurd hstart (by decide)

/-! ## Every match is processed -/

theorem processMatch_total (hstart : m.startIdx < st.statuses.length)
    (hle : m.startIdx + m.size ≤ st.statuses.length) : ∃ st', processMatch st m = .ok st' := by
  unfold processMatch
  rw [List.getElem?_eq_getElem hstart]
  split
  · rename_i hnone
    cases hnone
  · apply markGhosts_total
    rw [List.length_set]
    omega
  · exact ⟨st, rfl⟩

/-- Matches of groups with at least one UID, found in the UIDs of instructions of the group, are
processed to the end. -/
theorem processMatches_total {H : Type} [DecidableEq H] (F : HashCaching H)
    (S : UnstableSort matchLess) (input : List MavisUid) (C : FusionGroupContainer F.hash)
    (hne : ∀ e ∈ C.groups, e.2.uids ≠ []) (hn : input.length ≤ n) :
    ∃ ms st, matchFusionGroups F S input C = .ok ms ∧
      processMatches ms (unmodified n) = .ok ([], st) := by
  have hloop := Run.foldlM_ok_exists (f := processMatch)
    (I := fun rest (st : FusionMarks) => st.statuses.length = n ∧
      ∀ m ∈ rest, m.startIdx < n ∧ m.startIdx + m.size ≤ n)
    (l := S.sort (C.groups.flatMap (groupMatches F input))) (s := unmodified n)
    (fun m rest st hI => by
      obtain ⟨hlen, hrange⟩ := hI
      obtain ⟨hstart, hle⟩ := hrange m (List.mem_cons_self ..)
      obtain ⟨st', hst'⟩ := processMatch_total (by rwa [hlen]) (by rwa [hlen])
      refine ⟨st', hst', ?_, fun a ha => hrange a (List.mem_cons_of_mem _ ha)⟩
      rcases processMatch_cases hst' with ⟨-, hlen', -⟩ | ⟨-, rfl⟩
      · exact hlen'.trans hlen
      · exact hlen)
    ⟨(marked_init n).length, fun m hm => by
      obtain ⟨e, he, heq, hle, -⟩ := mem_matches.mp hm
      have hpos : 0 < m.size := by
        have := hne e he
        rw [← heq] at this
        exact List.length_pos_iff.mpr this
      omega⟩
  obtain ⟨st, hst, -⟩ := hloop
  refine ⟨_, st, matchFusionGroups_eq F S input C, ?_⟩
  unfold processMatches
  rw [hst]
  rfl

end Decode
end Olympia
