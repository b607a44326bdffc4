import Olympia.FlushManager
import Olympia.Lib.Run
import Olympia.Lib.UnstableSort
import Mathlib.Logic.Function.Basic

/-!
# Matching fusion groups

`matchFusionGroups_` of `core/decode/FusionDecode.cpp`.  A container holds fusion groups by the
hash of their UIDs, and the hash cache holds the hashes of the windows of the input, by the size
of a window.  A window whose hash is that of a group is compared with the group UID by UID.

That loop counts the position in the input from the start of the window up to the *size* of the
group, and not up to the end of the window.  So a window that starts at `s` is compared with the
first `n - s` of the `n` UIDs of the group, and from `s = n` on with none: the hash alone decides
about the others.  The matches are the occurrences of the groups exactly when no window of the
input collides with a group and differs from it in the UIDs that are not compared
(`matches_exact_iff`).
-/

namespace Olympia

/-- `fusion::FusionGroup`, with the fields that matching reads. -/
structure FusionGroup where
  name : String
  uids : List MavisUid
  deriving DecidableEq, Repr

/-- `fusion::FusionGroupMatchInfo`. -/
structure FusionGroupMatchInfo where
  name : String
  startIdx : ℕ
  matchedUids : List MavisUid
  deriving DecidableEq, Repr

/-- `FusionGroupMatchInfo::size`. -/
def FusionGroupMatchInfo.size (m : FusionGroupMatchInfo) : ℕ := m.matchedUids.length

/-- The hash of `fsl_api` and what its `HCache` makes of an input for windows of one size: for
every window the index of its start and its hash. -/
structure HashCaching (H : Type) where
  hash : List MavisUid → H
  entry : List MavisUid → ℕ → List (ℕ × H)
  mem_entry : ∀ {input n i h}, (i, h) ∈ entry input n ↔
    i + n ≤ input.length ∧ h = hash ((input.drop i).take n)

/-- `FusionGroupContainerType`: the groups by the hash of their UIDs, in the order in which the
map is traversed. -/
structure FusionGroupContainer {H : Type} (hash : List MavisUid → H) where
  groups : List (H × FusionGroup)
  keyed : ∀ e ∈ groups, e.1 = hash e.2.uids
  nodup : (groups.map Prod.fst).Nodup

/-- `HCache`: the entries built so far, by the size of a window. -/
abbrev HCache (H : Type) := ℕ → Option (List (ℕ × H))

/-- A sort of matches: by size descending, then by start index ascending. -/
def matchLess (lhs rhs : FusionGroupMatchInfo) : Bool :=
  if lhs.size = rhs.size then lhs.startIdx < rhs.startIdx else lhs.size > rhs.size

namespace Decode

variable {H : Type} [DecidableEq H]

/-- `HCache::buildHashCacheEntry`. -/
def buildHashCacheEntry (F : HashCaching H) (input : List MavisUid) (hcache : HCache H) (n : ℕ) :
    HCache H :=
  Function.update hcache n (some (F.entry input n))

/-- The first loop of `matchFusionGroups_` fills the hash cache. -/
def fillHashCache (F : HashCaching H) (input : List MavisUid) (groups : List (H × FusionGroup)) :
    HCache H :=
  groups.foldl (fun hcache e =>
    if e.2.uids.length > input.length then hcache
    else buildHashCacheEntry F input hcache e.2.uids.length) fun _ => none

/-- The comparison of a window with a group: `i` runs from the start of the window while it is
below the size of the group, and `j` counts from 0. -/
def agrees (input uids : List MavisUid) (startIdx : ℕ) : Bool :=
  (List.range' startIdx (uids.length - startIdx)).zipIdx.all fun (i, j) => input[i]? == uids[j]?

/-- The body of the second loop: the matches of one group are added. -/
def matchGroup (F : HashCaching H) (input : List MavisUid)
    (st : HCache H × List FusionGroupMatchInfo) (e : H × FusionGroup) :
    Except Assertion (HCache H × List FusionGroupMatchInfo) :=
  let grpSize := e.2.uids.length
  if grpSize > input.length then .ok st
  else
    let hcache := if (st.1 grpSize).isNone then buildHashCacheEntry F input st.1 grpSize else st.1
    match hcache grpSize with
    | none => .error .noHashCacheEntry
    | some pairs =>
      .ok (hcache, st.2 ++
        (pairs.filter fun ep => ep.2 == e.1 && agrees input e.2.uids ep.1).map fun ep =>
          ⟨e.2.name, ep.1, e.2.uids⟩)

/-- `matchFusionGroups_`. -/
def matchFusionGroups (F : HashCaching H) (S : UnstableSort matchLess) (input : List MavisUid)
    (C : FusionGroupContainer F.hash) : Except Assertion (List FusionGroupMatchInfo) := do
  let st ← C.groups.foldlM (matchGroup F input) (fillHashCache F input C.groups, [])
  return S.sort st.2

/-! ## What the loops compute -/

/-- The `n` UIDs of the input from index `i`. -/
def window (input : List MavisUid) (i n : ℕ) : List MavisUid := (input.drop i).take n

/-- The matches that the second loop adds for a group. -/
def groupMatches (F : HashCaching H) (input : List MavisUid) (e : H × FusionGroup) :
    List FusionGroupMatchInfo :=
  if e.2.uids.length > input.length then []
  else ((F.entry input e.2.uids.length).filter
      fun ep => ep.2 == e.1 && agrees input e.2.uids ep.1).map
    fun ep => ⟨e.2.name, ep.1, e.2.uids⟩

variable {F : HashCaching H} {input uids : List MavisUid} {hcache : HCache H} {s n : ℕ}

/-- Every entry of the cache is that of the input. -/
def Filled (F : HashCaching H) (input : List MavisUid) (hcache : HCache H) : Prop :=
  ∀ n pairs, hcache n = some pairs → pairs = F.entry input n

omit [DecidableEq H] in
theorem Filled.build (hfilled : Filled F input hcache) (n : ℕ) :
    Filled F input (buildHashCacheEntry F input hcache n) := by
  intro k pairs hk
  by_cases hkn : k = n
  · subst hkn
    simp only [buildHashCacheEntry, Function.update_self, Option.some.injEq] at hk
    exact hk.symm
  · apply hfilled k pairs
    simpa [buildHashCacheEntry, hkn] using hk

omit [DecidableEq H] in
theorem filled_fillHashCache (F : HashCaching H) (input : List MavisUid)
    (groups : List (H × FusionGroup)) : Filled F input (fillHashCache F input groups) := by
  unfold fillHashCache
  apply List.foldlRecOn groups
  · intro n pairs hnone
    cases hnone
  · intro hcache hfilled e _
    split
    · exact hfilled
    · exact hfilled.build _

/-- The entry is there when it is read, and the group gets its matches. -/
theorem matchGroup_eq {st : HCache H × List FusionGroupMatchInfo} (hfilled : Filled F input st.1)
    (e : H × FusionGroup) :
    ∃ hcache, matchGroup F input st e = .ok (hcache, st.2 ++ groupMatches F input e) ∧
      Filled F input hcache := by
  unfold matchGroup groupMatches
  by_cases hsize : e.2.uids.length > input.length
  · exact ⟨st.1, by simp [hsize], hfilled⟩
  · simp only [if_neg hsize]
    cases hentry : st.1 e.2.uids.length with
    | none =>
      refine ⟨_, ?_, hfilled.build e.2.uids.length⟩
      simp [buildHashCacheEntry]
    | some pairs =>
      have hpairs := hfilled _ _ hentry
      refine ⟨st.1, ?_, hfilled⟩
      simp [hentry, hpairs]

/-- Matching reaches no assertion, and sorts the matches of all groups. -/
theorem matchFusionGroups_eq (F : HashCaching H) (S : UnstableSort matchLess)
    (input : List MavisUid) (C : FusionGroupContainer F.hash) :
    matchFusionGroups F S input C = .ok (S.sort (C.groups.flatMap (groupMatches F input))) := by
  have hloop : ∃ st, C.groups.foldlM (matchGroup F input)
      (fillHashCache F input C.groups, []) = .ok st ∧
      Filled F input st.1 ∧ st.2 ++ [].flatMap (groupMatches F input) =
        C.groups.flatMap (groupMatches F input) := by
    refine Run.foldlM_ok_exists
      (I := fun rest (st : HCache H × List FusionGroupMatchInfo) => Filled F input st.1 ∧
        st.2 ++ rest.flatMap (groupMatches F input) = C.groups.flatMap (groupMatches F input))
      (fun e rest st hI => ?_) ⟨filled_fillHashCache F input C.groups, rfl⟩
    obtain ⟨hfilled, hmatches⟩ := hI
    obtain ⟨hcache, heq, hfilled'⟩ := matchGroup_eq hfilled e
    refine ⟨_, heq, hfilled', ?_⟩
    rw [← hmatches, List.flatMap_cons, List.append_assoc]
  obtain ⟨st, hst, -, hmatches⟩ := hloop
  rw [List.flatMap_nil, List.append_nil] at hmatches
  unfold matchFusionGroups
  rw [hst, ← hmatches]
  rfl

/-- The loop compares the first `uids.length - s` UIDs of the group. -/
theorem agrees_iff :
    agrees input uids s = true ↔ ∀ j < uids.length - s, input[s + j]? = uids[j]? := by
  unfold agrees
  rw [List.all_eq_true]
  constructor
  · intro hall j hj
    have hmem : (s + j, j) ∈ (List.range' s (uids.length - s)).zipIdx := by
      rw [List.mem_zipIdx_iff_getElem?]
      simp [hj]
    simpa using hall _ hmem
  · rintro hall ⟨i, j⟩ hmem
    rw [List.mem_zipIdx_iff_getElem?, List.getElem?_eq_some_iff] at hmem
    obtain ⟨hj, hi⟩ := hmem
    rw [List.length_range'] at hj
    rw [List.getElem_range'] at hi
    have hij : i = s + j := by omega
    simpa [hij] using hall j hj

/-! ## Occurrences -/

/-- The UIDs stand in the input from index `s`. -/
def OccursAt (uids input : List MavisUid) (s : ℕ) : Prop :=
  s + uids.length ≤ input.length ∧ ∀ j < uids.length, input[s + j]? = uids[j]?

theorem window_eq_iff :
    window input s uids.length = uids ↔ ∀ j < uids.length, input[s + j]? = uids[j]? := by
  constructor
  · intro heq j hj
    rw [← congrArg (fun l => l[j]?) heq]
    simp [window, hj]
  · intro hall
    apply List.ext_getElem?
    intro j
    by_cases hj : j < uids.length
    · rw [← hall j hj]
      simp [window, hj]
    · simp [window, hj]

/-- A match of a group is a window with the hash of the group that passes the comparison. -/
theorem mem_groupMatches {e : H × FusionGroup} {m : FusionGroupMatchInfo} :
    m ∈ groupMatches F input e ↔
      (⟨m.name, m.matchedUids⟩ : FusionGroup) = e.2 ∧ m.startIdx + m.size ≤ input.length ∧
        F.hash (window input m.startIdx m.size) = e.1 ∧
        agrees input m.matchedUids m.startIdx = true := by
  obtain ⟨name, s, uids⟩ := m
  obtain ⟨key, gname, guids⟩ := e
  unfold groupMatches FusionGroupMatchInfo.size
  constructor
  · intro hmem
    split at hmem
    · cases hmem
    · obtain ⟨⟨i, h⟩, hep, heq⟩ := List.mem_map.mp hmem
      rw [List.mem_filter, F.mem_entry] at hep
      obtain ⟨⟨hle, rfl⟩, htest⟩ := hep
      rw [Bool.and_eq_true, beq_iff_eq] at htest
      cases heq
      exact ⟨rfl, hle, htest⟩
  · rintro ⟨heq, hle, hhash, hagrees⟩
    cases heq
    dsimp only at hle hhash hagrees ⊢
    rw [if_neg (by omega)]
    refine List.mem_map.mpr ⟨(s, F.hash (window input s uids.length)), ?_, rfl⟩
    rw [List.mem_filter, F.mem_entry]
    exact ⟨⟨hle, rfl⟩, by simp [hhash, hagrees]⟩

/-- The matches are the occurrences of the groups. -/
def MatchesExact (input : List MavisUid) (groups : List (H × FusionGroup))
    (ms : List FusionGroupMatchInfo) : Prop :=
  ∀ m, m ∈ ms ↔
    ⟨m.name, m.matchedUids⟩ ∈ groups.map Prod.snd ∧ OccursAt m.matchedUids input m.startIdx

/-- Larger matches come first, and of those of one size the earlier one. -/
def BySizeThenStart (ms : List FusionGroupMatchInfo) : Prop :=
  ms.Pairwise fun a b => b.size < a.size ∨ a.size = b.size ∧ a.startIdx ≤ b.startIdx

/-- A window of the input has the hash of a group and agrees with it on the UIDs that the loop
compares, and differs from it in a later one. -/
def HiddenCollision (F : HashCaching H) (input : List MavisUid)
    (groups : List (H × FusionGroup)) : Prop :=
  ∃ e ∈ groups, ∃ s, s + e.2.uids.length ≤ input.length ∧
    F.hash (window input s e.2.uids.length) = F.hash e.2.uids ∧
    (∀ j < e.2.uids.length - s, input[s + j]? = e.2.uids[j]?) ∧
    ∃ j < e.2.uids.length, input[s + j]? ≠ e.2.uids[j]?

omit [DecidableEq H] in
theorem bySizeThenStart_sort (S : UnstableSort matchLess) (ms : List FusionGroupMatchInfo) :
    BySizeThenStart (S.sort ms) := by
  refine (S.sorted ms).imp fun {a b} hle => ?_
  unfold matchLess at hle
  split at hle
  · rename_i hsize
    exact .inr ⟨hsize.symm, by simpa using hle⟩
  · rename_i hsize
    have hge : ¬ b.size > a.size := by simpa using hle
    exact .inl (by omega)

theorem mem_matches {C : FusionGroupContainer F.hash} {S : UnstableSort matchLess}
    {m : FusionGroupMatchInfo} :
    m ∈ S.sort (C.groups.flatMap (groupMatches F input)) ↔
      ∃ e ∈ C.groups, (⟨m.name, m.matchedUids⟩ : FusionGroup) = e.2 ∧
        m.startIdx + m.size ≤ input.length ∧
        F.hash (window input m.startIdx m.size) = F.hash m.matchedUids ∧
        agrees input m.matchedUids m.startIdx = true := by
  rw [S.mem_sort, List.mem_flatMap]
  refine exists_congr fun e => and_congr_right fun he => ?_
  rw [mem_groupMatches, C.keyed e he]
  refine and_congr_right fun heq => ?_
  rw [← heq]

/-- Matching never fails, its result is sorted, and it is exact if and only if no collision is
hidden from the comparison. -/
theorem matches_exact_iff (F : HashCaching H) (S : UnstableSort matchLess)
    (input : List MavisUid) (C : FusionGroupContainer F.hash) :
    (∃ ms, matchFusionGroups F S input C = .ok ms ∧ MatchesExact input C.groups ms ∧
      BySizeThenStart ms) ↔ ¬ HiddenCollision F input C.groups := by
  constructor
  · rintro ⟨ms, hms, hexact, -⟩ ⟨e, he, s, hle, hhash, hagree, j, hj, hdiffers⟩
    rw [matchFusionGroups_eq] at hms
    obtain rfl := Except.ok.inj hms
    -- the window is a match, and no occurrence
    have hmatch := mem_matches (S := S) (m := ⟨e.2.name, s, e.2.uids⟩).mpr
      ⟨e, he, rfl, hle, hhash, agrees_iff.mpr hagree⟩
    obtain ⟨-, -, hoccurs⟩ := (hexact ⟨e.2.name, s, e.2.uids⟩).mp hmatch
    exact hdiffers (hoccurs j hj)
  · intro hnone
    refine ⟨_, matchFusionGroups_eq F S input C, fun m => ?_, bySizeThenStart_sort S _⟩
    rw [mem_matches, List.mem_map]
    constructor
    · rintro ⟨e, he, heq, hle, hhash, hagrees⟩
      refine ⟨⟨e, he, heq.symm⟩, hle, fun j hj => ?_⟩
      by_contra hdiffers
      apply hnone
      refine ⟨e, he, m.startIdx, ?_⟩
      rw [← heq]
      exact ⟨hle, hhash, agrees_iff.mp hagrees, j, hj, hdiffers⟩
    · rintro ⟨⟨e, he, heq⟩, hle, hoccurs⟩
      have hwindow : window input m.startIdx m.size = m.matchedUids := window_eq_iff.mpr hoccurs
      refine ⟨e, he, heq.symm, hle, by rw [hwindow], agrees_iff.mpr fun j hj => ?_⟩
      exact hoccurs j (by omega)

/-! ## A collision -/

/-- The caching of a hash function in increasing order of the windows. -/
def cachingOf {H : Type} (hash : List MavisUid → H) : HashCaching H where
  hash := hash
  entry input n := (List.range (input.length + 1 - n)).map fun i => (i, hash (window input i n))
  mem_entry {input n i h} := by
    simp only [List.mem_map, List.mem_range, Prod.mk.injEq]
    constructor
    · rintro ⟨k, hk, rfl, rfl⟩
      exact ⟨by omega, rfl⟩
    · rintro ⟨hle, rfl⟩
      exact ⟨i, by omega, rfl, rfl⟩

/-- Matches by insertion sort. -/
def sortMatches : UnstableSort matchLess :=
  .insertion matchLess
    (fun a b => by
      unfold matchLess
      by_cases hsize : a.size = b.size
      · simp only [hsize, if_true, decide_eq_false_iff_not, not_lt]
        exact le_total _ _
      · simp only [hsize, Ne.symm hsize, if_false, decide_eq_false_iff_not, not_lt, gt_iff_lt]
        exact le_total _ _)
    (fun a b c => by
      unfold matchLess
      grind)

/-- Under a hash that does not tell windows apart, the input 1, 5, 7 matches the group 5, 6 at
its second instruction. -/
theorem collision_matches :
    ¬ ∀ (F : HashCaching Unit) (S : UnstableSort matchLess) (input : List MavisUid)
      (C : FusionGroupContainer F.hash),
      ∃ ms, matchFusionGroups F S input C = .ok ms ∧ MatchesExact input C.groups ms ∧
        BySizeThenStart ms := by
  intro hall
  obtain ⟨ms, hms, hexact, -⟩ := hall (cachingOf fun _ => ()) sortMatches
    [.other 1, .other 5, .other 7] ⟨[((), ⟨"pair", [.other 5, .other 6]⟩)], by decide, by decide⟩
  have hresult : matchFusionGroups (cachingOf fun _ => ()) sortMatches
      [.other 1, .other 5, .other 7]
      ⟨[((), ⟨"pair", [.other 5, .other 6]⟩)], by decide, by decide⟩ =
      .ok [⟨"pair", 1, [.other 5, .other 6]⟩] := rfl
  obtain rfl := Except.ok.inj (hms.symm.trans hresult)
  obtain ⟨-, -, hoccurs⟩ := (hexact ⟨"pair", 1, [.other 5, .other 6]⟩).mp (by simp)
  exact absurd (hoccurs 1 (by decide)) (by decide)

end Decode
end Olympia
