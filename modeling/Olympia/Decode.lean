import Olympia.VectorUopGenerator

/-!
# Decode

`core/decode/Decode.cpp`: instructions leave the fetch queue in order; a vector instruction is
handed to the uop generator and leaves Decode uop by uop, over several sessions if need be; a
vset that depends on a register blocks decoding until it has executed.

`decodeOne` is the body of the loop of `decodeInsts_`.  The fusion passes mark instructions of
the group and count statistics; they change neither the group nor the state of Decode, and they
can stop the simulation, so they are a parameter `fuse` of the unit; `Fusion.Session` has the
passes of the source for it.

A session emits a group of uops, takes entries from the fetch queue, and returns to Fetch as
many credits as it has emitted uops.  `splits` says when it emits more than it takes:
`decodeInsts_spec`.
-/

namespace Olympia

structure DecodeParams where
  numToDecode : ℕ := 4
  fetchQueueSize : ℕ := 10
  fusionEnable : Bool := false
  fusionMaxLatency : ℕ := 4
  fusionMaxGroupSize : ℕ := 4
  /-- the passes of `matchFusionGroups_` and `processMatches_` over a group and its Mavis
  identifiers -/
  fuse : List Inst → List MavisUid → Except Assertion Unit := fun _ _ => .ok ()
  mavis : Mavis
  fetchQueueSize_lt : fetchQueueSize < 2 ^ 32 := by first | exact u32_lt (nat_lit 10) | decide
  fuse_failsIn : ∀ insts uids, Run.FailsIn
    (· ∈ [Assertion.fusionWatchDog, .fusionOutOfRange]) (fuse insts uids) := by
      intro _ _; exact .ok ()

structure DecodeState where
  fetchQueue : List Inst := []
  uopQueueCredits : ℕ := 0
  vecUopGen : VecUopGen := {}
  vectorConfig : VectorConfig := { vl := 128 }
  /-- not initialised in the source; here it starts as false -/
  waitingOnVset : Bool := false
  latencyCount : ℕ := 0

/-- The group a session builds, and the identifiers of the instructions it took for it. -/
structure DecodeGroup where
  insts : List Inst := []
  uids : List MavisUid := []

namespace Decode

/-- `receiveUopQueueCredits_`. -/
def receiveUopQueueCredits (s : DecodeState) (credits : ℕ) : DecodeState :=
  { s with uopQueueCredits := u32Add s.uopQueueCredits credits }

/-- `fetchBufferAppended_`.  The assertion of `push` that `fetch_queue_` is not full is left out:
the model goes on. -/
def fetchBufferAppended (s : DecodeState) (insts : List Inst) : DecodeState :=
  { s with fetchQueue := s.fetchQueue ++ insts }

/-- `updateVectorConfig_`: the configuration after a vset, which is also that of the vset. -/
def updateVectorConfig (i : Inst) : VectorConfig :=
  let c := i.vectorConfig
  if i.mavisUid = .vsetvli ∧ i.hasZeroRegSource then
    { c with vl := if i.hasZeroRegDest then min c.vl c.vlmax else c.vlmax }
  else c

/-- `processVset_`. -/
def processVset (s : DecodeState) (i : Inst) : DecodeState :=
  { s with vectorConfig := updateVectorConfig i, waitingOnVset := false }

/-- `handleFlush_` and the credits it returns to Fetch. -/
def handleFlush (s : DecodeState) (c : FlushingCriteria) : DecodeState × ℕ :=
  ({ s with fetchQueue := [], vecUopGen := VectorUopGenerator.handleFlush s.vecUopGen c },
    s.fetchQueue.length)

/-! ## Decoding one instruction -/

/-- An instruction with the configuration it is decoded under, the configuration in force after
it, and whether Decode waits for it. -/
structure Configured where
  inst : Inst
  config : VectorConfig
  blocks : Bool

/-- The treatment of vsets and of vector instructions in `decodeInsts_`. -/
def configure (c : VectorConfig) (i : Inst) : Configured :=
  if i.mavisUid = .vsetivli ∨ (i.mavisUid = .vsetvli ∧ i.hasZeroRegSource) then
    ⟨{ i with vectorConfig := updateVectorConfig i }, updateVectorConfig i, false⟩
  else if i.mavisUid = .vsetvli ∨ i.mavisUid = .vsetvl then
    ⟨{ i with isBlockingVset := true }, c, true⟩
  else if !i.isVset ∧ i.isVector then ⟨{ i with vectorConfig := c }, c, false⟩
  else ⟨i, c, false⟩

/-- The instructions that go through the uop generator. -/
def usesUopGen (i : Inst) : Bool := i.isVector && !i.isVset && i.uopGen != .none

/-- The body of the loop of `decodeInsts_`; `none` when there is nothing left to decode. -/
def decodeOne (m : Mavis) (s : DecodeState) (grp : DecodeGroup) :
    Except Assertion (Option (DecodeState × DecodeGroup)) :=
  if s.vecUopGen.numUopsToGenerate > 0 then do
    let (uop, gen) ← VectorUopGenerator.generateUop m s.vecUopGen
    return some ({ s with vecUopGen := gen }, { grp with insts := grp.insts ++ [uop] })
  else
    match s.fetchQueue with
    | [] => .ok none
    | i :: rest => do
      let cfg := configure s.vectorConfig i
      let s := { s with
        fetchQueue := rest
        vectorConfig := cfg.config
        waitingOnVset := s.waitingOnVset || cfg.blocks }
      if usesUopGen cfg.inst then
        let gen ← VectorUopGenerator.setInst s.vecUopGen cfg.inst
        let (uop, gen) ← VectorUopGenerator.generateUop m gen
        return some ({ s with vecUopGen := gen }, ⟨grp.insts ++ [uop], grp.uids ++ [i.mavisUid]⟩)
      else
        return some (s, ⟨grp.insts ++ [cfg.inst], grp.uids ++ [i.mavisUid]⟩)

/-- The loop of `decodeInsts_`, with the number of places left in the group. -/
def decodeLoop (m : Mavis) : ℕ → DecodeState → DecodeGroup →
    Except Assertion (DecodeState × DecodeGroup)
  | 0, s, grp => .ok (s, grp)
  | n + 1, s, grp =>
    if s.waitingOnVset then .ok (s, grp)
    else do
      match ← decodeOne m s grp with
      | none => return (s, grp)
      | some (s, grp) => decodeLoop m n s grp

/-- The places in the group of the next session. -/
def numToDecode (p : DecodeParams) (s : DecodeState) : ℕ := min s.uopQueueCredits p.numToDecode

/-- With fusion, a session that could only fill a small group is put off for a while. -/
def putsOff (p : DecodeParams) (s : DecodeState) : Bool :=
  p.fusionEnable && numToDecode p s < p.fusionMaxGroupSize && s.latencyCount < p.fusionMaxLatency

/-- `decodeInsts_` and the group it sends to Rename, `none` if the session is put off.  The
credits to Fetch are the size of the group. -/
def decodeInsts (p : DecodeParams) (s : DecodeState) :
    Except Assertion (DecodeState × Option (List Inst)) :=
  if putsOff p s then .ok ({ s with latencyCount := s.latencyCount + 1 }, none)
  else do
    let (s', grp) ← decodeLoop p.mavis (numToDecode p s) { s with latencyCount := 0 } {}
    if p.fusionEnable then p.fuse grp.insts grp.uids
    return ({ s' with uopQueueCredits := u32Sub s'.uopQueueCredits grp.insts.length },
      some grp.insts)

/-! ## Uops beyond the first -/

/-- With `n` places left and an idle generator, decoding the queue gets to a vector instruction
of several uops while there is a place for the second. -/
def splitsWithin : ℕ → VectorConfig → List Inst → Prop
  | 0, _, _ => False
  | _ + 1, _, [] => False
  | n + 1, c, i :: rest =>
    let cfg := configure c i
    cfg.blocks = false ∧
      ((usesUopGen cfg.inst = true ∧ 1 < VectorUopGenerator.numUops cfg.inst ∧ 0 < n) ∨
        splitsWithin n cfg.config rest)

instance decidableSplitsWithin : ∀ (n : ℕ) (c : VectorConfig) (q : List Inst),
    Decidable (splitsWithin n c q)
  | 0, _, _ => inferInstanceAs (Decidable False)
  | _ + 1, _, [] => inferInstanceAs (Decidable False)
  | n + 1, c, i :: rest =>
    let _ := decidableSplitsWithin n (configure c i).config rest
    inferInstanceAs (Decidable (_ = false ∧ (_ ∨ splitsWithin n (configure c i).config rest)))

/-- With `n` places left, the loop emits a uop for which it takes no instruction. -/
def loopSplits (n : ℕ) (s : DecodeState) : Prop :=
  s.waitingOnVset = false ∧
    ((0 < s.vecUopGen.numUopsToGenerate ∧ 0 < n) ∨
      (s.vecUopGen.numUopsToGenerate = 0 ∧ splitsWithin n s.vectorConfig s.fetchQueue))

instance (n : ℕ) (s : DecodeState) : Decidable (loopSplits n s) :=
  inferInstanceAs (Decidable (_ ∧ (_ ∨ _)))

/-- The next session emits a uop for which it takes no instruction: it starts in the middle of
a vector instruction, or it gets to one of several uops with a place to spare. -/
def splits (p : DecodeParams) (s : DecodeState) : Prop :=
  putsOff p s = false ∧ loopSplits (numToDecode p s) s

instance (p : DecodeParams) (s : DecodeState) : Decidable (splits p s) :=
  inferInstanceAs (Decidable (_ ∧ _))

theorem splitsWithin_pos : ∀ {n : ℕ} {c : VectorConfig} {q : List Inst},
    splitsWithin n c q → 0 < n
  | 0, _, _, h => h.elim
  | n + 1, _, _, _ => Nat.succ_pos n

/-- What one pass of the loop does: it takes a uop from the generator, stops at an empty queue,
or takes the first instruction of the queue. -/
theorem decodeOne_cases {m : Mavis} {s : DecodeState} {grp : DecodeGroup}
    {r : Option (DecodeState × DecodeGroup)} (h : decodeOne m s grp = .ok r) :
    (0 < s.vecUopGen.numUopsToGenerate ∧ ∃ s' grp', r = some (s', grp') ∧
        s'.fetchQueue = s.fetchQueue ∧ s'.uopQueueCredits = s.uopQueueCredits ∧
        grp'.insts.length = grp.insts.length + 1) ∨
      (s.vecUopGen.numUopsToGenerate = 0 ∧ s.fetchQueue = [] ∧ r = none) ∨
      (s.vecUopGen.numUopsToGenerate = 0 ∧ ∃ i rest s' grp', s.fetchQueue = i :: rest ∧
        r = some (s', grp') ∧ s'.fetchQueue = rest ∧ s'.uopQueueCredits = s.uopQueueCredits ∧
        s'.vectorConfig = (configure s.vectorConfig i).config ∧
        s'.waitingOnVset = (s.waitingOnVset || (configure s.vectorConfig i).blocks) ∧
        grp'.insts.length = grp.insts.length + 1 ∧
        (0 < s'.vecUopGen.numUopsToGenerate ↔
          usesUopGen (configure s.vectorConfig i).inst = true ∧
          1 < VectorUopGenerator.numUops (configure s.vectorConfig i).inst)) := by
  unfold decodeOne at h
  split at h
  · rename_i hrem
    obtain ⟨⟨uop, gen⟩, -, h⟩ := Run.bind_eq_ok.mp h
    obtain rfl := Except.ok.inj h
    exact .inl ⟨hrem, _, _, rfl, rfl, rfl, by simp⟩
  · rename_i hrem
    have hzero : s.vecUopGen.numUopsToGenerate = 0 := by omega
    rcases hq : s.fetchQueue with _ | ⟨i, rest⟩
    · rw [hq] at h
      obtain rfl := Except.ok.inj h
      exact .inr (.inl ⟨hzero, rfl, rfl⟩)
    · rw [hq] at h
      refine .inr (.inr ⟨hzero, ?_⟩)
      dsimp only at h
      split at h
      · rename_i huses
        obtain ⟨gen, hset, h⟩ := Run.bind_eq_ok.mp h
        obtain ⟨⟨uop, gen'⟩, hgen, h⟩ := Run.bind_eq_ok.mp h
        obtain rfl := Except.ok.inj h
        refine ⟨i, rest, _, _, rfl, rfl, rfl, rfl, rfl, rfl, by simp, ?_⟩
        obtain ⟨-, -, hn, hgen0⟩ := VectorUopGenerator.setInst_spec hset
        obtain ⟨-, -, -, -, hlast, hmore⟩ := VectorUopGenerator.generateUop_spec hgen
        rw [hgen0, hn] at hlast hmore
        by_cases h1 : 0 + 1 = VectorUopGenerator.numUops (configure s.vectorConfig i).inst
        · rw [hlast h1]
          simp [VectorUopGenerator.reset, ← h1]
        · rw [hmore h1]
          simp only [huses, true_and]
          omega
      · rename_i huses
        obtain rfl := Except.ok.inj h
        refine ⟨i, rest, _, _, rfl, rfl, rfl, rfl, rfl, rfl, by simp, ?_⟩
        simp [huses, hzero]

/-- A run of the loop takes a prefix of the queue and emits one uop for each instruction it
takes, and further ones exactly when `loopSplits` holds. -/
theorem decodeLoop_spec {m : Mavis} : ∀ (n : ℕ) {s s' : DecodeState} {grp grp' : DecodeGroup},
    decodeLoop m n s grp = .ok (s', grp') →
    ∃ taken extra, s.fetchQueue = taken ++ s'.fetchQueue ∧
      grp'.insts.length = grp.insts.length + taken.length + extra ∧
      taken.length + extra ≤ n ∧ s'.uopQueueCredits = s.uopQueueCredits ∧
      (0 < extra ↔ loopSplits n s)
  | 0, s, s', grp, grp', h => by
    obtain ⟨rfl, rfl⟩ := Prod.mk.inj (Except.ok.inj h)
    exact ⟨[], 0, rfl, rfl, le_rfl, rfl, by simp [loopSplits, splitsWithin]⟩
  | n + 1, s, s', grp, grp', h => by
    unfold decodeLoop at h
    split at h
    · rename_i hwait
      obtain ⟨rfl, rfl⟩ := Prod.mk.inj (Except.ok.inj h)
      exact ⟨[], 0, rfl, rfl, by simp, rfl, by simp [loopSplits, hwait]⟩
    · rename_i hwait
      have hwait : s.waitingOnVset = false := by simpa using hwait
      obtain ⟨r, hone, h⟩ := Run.bind_eq_ok.mp h
      rcases decodeOne_cases hone with ⟨hrem, s₁, grp₁, rfl, hq, hcred, hlen⟩ |
        ⟨hzero, hq, rfl⟩ |
        ⟨hzero, i, rest, s₁, grp₁, hq, rfl, hq₁, hcred, hcfg, hwait₁, hlen, hmore⟩
      · obtain ⟨taken, extra, hsplit, hlen', hle, hcred', -⟩ := decodeLoop_spec n h
        refine ⟨taken, extra + 1, by rw [← hq, hsplit], by omega, by omega,
          hcred'.trans hcred, ?_⟩
        simp [loopSplits, hwait, hrem]
      · obtain ⟨rfl, rfl⟩ := Prod.mk.inj (Except.ok.inj h)
        refine ⟨[], 0, rfl, rfl, by simp, rfl, ?_⟩
        simp [loopSplits, hzero, hq, splitsWithin]
      · obtain ⟨taken, extra, hsplit, hlen', hle, hcred', hextra⟩ := decodeLoop_spec n h
        refine ⟨i :: taken, extra, by rw [hq, ← hq₁, hsplit]; rfl,
          by rw [List.length_cons]; omega, by rw [List.length_cons]; omega,
          hcred'.trans hcred, ?_⟩
        rw [hextra]
        -- the loop goes on exactly when the instruction does not block
        simp only [loopSplits, hwait, hwait₁, hcfg, hq, hq₁, hzero, splitsWithin,
          Bool.false_or, lt_irrefl, false_and, false_or, true_and]
        refine and_congr_right fun _ => ?_
        constructor
        · rintro (⟨hpos, hn⟩ | ⟨-, hw⟩)
          · exact .inl ⟨(hmore.mp hpos).1, (hmore.mp hpos).2, hn⟩
          · exact .inr hw
        · rintro (⟨huses, htwo, hn⟩ | hw)
          · exact .inl ⟨hmore.mpr ⟨huses, htwo⟩, hn⟩
          · by_cases hpos : 0 < s₁.vecUopGen.numUopsToGenerate
            · exact .inl ⟨hpos, splitsWithin_pos hw⟩
            · exact .inr ⟨by omega, hw⟩

/-- What every pass of the loop keeps, the loop keeps. -/
theorem decodeLoop_induct {m : Mavis} {I : DecodeState → DecodeGroup → Prop}
    (hone : ∀ {s s' grp grp'}, s.waitingOnVset = false → I s grp →
      decodeOne m s grp = .ok (some (s', grp')) → I s' grp') :
    ∀ (n : ℕ) {s s' : DecodeState} {grp grp' : DecodeGroup}, I s grp →
      decodeLoop m n s grp = .ok (s', grp') → I s' grp'
  | 0, s, s', grp, grp', H, h => by
    obtain ⟨rfl, rfl⟩ := Prod.mk.inj (Except.ok.inj h)
    exact H
  | n + 1, s, s', grp, grp', H, h => by
    unfold decodeLoop at h
    split at h
    · obtain ⟨rfl, rfl⟩ := Prod.mk.inj (Except.ok.inj h)
      exact H
    · rename_i hwait
      obtain ⟨r, hr, h⟩ := Run.bind_eq_ok.mp h
      rcases r with _ | ⟨s₁, grp₁⟩
      · obtain ⟨rfl, rfl⟩ := Prod.mk.inj (Except.ok.inj h)
        exact H
      · exact decodeLoop_induct hone n (hone (by simpa using hwait) H hr) h

/-- A session is put off, or it is its loop and pays for the group. -/
theorem decodeInsts_cases {p : DecodeParams} {s s' : DecodeState} {out : Option (List Inst)}
    (h : decodeInsts p s = .ok (s', out)) :
    (putsOff p s = true ∧ s' = { s with latencyCount := s.latencyCount + 1 } ∧ out = none) ∨
      (putsOff p s = false ∧ ∃ s₁ grp,
        decodeLoop p.mavis (numToDecode p s) { s with latencyCount := 0 } {} = .ok (s₁, grp) ∧
        s' = { s₁ with uopQueueCredits := u32Sub s₁.uopQueueCredits grp.insts.length } ∧
        out = some grp.insts) := by
  unfold decodeInsts at h
  split at h
  · rename_i hoff
    obtain ⟨rfl, rfl⟩ := Prod.mk.inj (Except.ok.inj h)
    exact .inl ⟨hoff, rfl, rfl⟩
  · rename_i hoff
    obtain ⟨⟨s₁, grp⟩, hloop, h⟩ := Run.bind_eq_ok.mp h
    refine .inr ⟨by simpa using hoff, s₁, grp, hloop, ?_⟩
    dsimp only at h
    split at h
    · obtain ⟨-, -, h⟩ := Run.bind_eq_ok.mp h
      obtain ⟨rfl, rfl⟩ := Prod.mk.inj (Except.ok.inj h)
      exact ⟨rfl, rfl⟩
    · obtain ⟨rfl, rfl⟩ := Prod.mk.inj (Except.ok.inj h)
      exact ⟨rfl, rfl⟩

/-- A session takes a prefix of the fetch queue, pays one credit for each uop it emits, and
emits more uops than it takes instructions exactly when `splits` holds. -/
theorem decodeInsts_spec {p : DecodeParams} {s s' : DecodeState} {out : Option (List Inst)}
    (hlt : s.uopQueueCredits < 2 ^ 32) (h : decodeInsts p s = .ok (s', out)) :
    ∃ taken extra, s.fetchQueue = taken ++ s'.fetchQueue ∧
      (out.getD []).length = taken.length + extra ∧
      s'.uopQueueCredits + (out.getD []).length = s.uopQueueCredits ∧
      (0 < extra ↔ splits p s) := by
  rcases decodeInsts_cases h with ⟨hoff, rfl, rfl⟩ | ⟨hoff, s₁, grp, hloop, rfl, rfl⟩
  · exact ⟨[], 0, rfl, rfl, rfl, by simp [splits, hoff]⟩
  · obtain ⟨taken, extra, hsplit, hlen, hle, hcred, hextra⟩ := decodeLoop_spec _ hloop
    have hle' : taken.length + extra ≤ s.uopQueueCredits :=
      hle.trans (Nat.min_le_left _ _)
    have hcount : grp.insts.length = taken.length + extra := by
      rw [hlen]
      exact congrArg (· + extra) (Nat.zero_add _)
    refine ⟨taken, extra, hsplit, hcount, ?_, ?_⟩
    · simp only [Option.getD_some]
      rw [hcred, u32Sub_of_le (by rw [hcount]; exact hle') hlt, hcount]
      exact Nat.sub_add_cancel hle'
    · rw [hextra]
      simp [splits, hoff, loopSplits]

end Decode

end Olympia
