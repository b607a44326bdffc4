import Olympia.DecodeCore

/-!
# Program identifiers in Decode and in the ROB

All uops of an instruction have its program identifier, and the ROB compares that of the first one
with `expected_program_id_`.  `firstIds` are the program identifiers of the first uops.

A session of Decode emits one first uop for each instruction that it takes from the fetch queue, and
all its uops are in program order (`Decode.Session`).  What retires leaves the reorder buffer at the
front, and the ROB counts its first uops (`Rob.Expected`).
-/

namespace Olympia

/-- The program identifiers of the first uops. -/
def firstIds (l : List Inst) : List ℕ := (l.filter fun i => i.uopId = 0).map Inst.programId

@[simp] theorem firstIds_nil : firstIds [] = [] := rfl

@[simp] theorem firstIds_append (l l' : List Inst) :
    firstIds (l ++ l') = firstIds l ++ firstIds l' := by
  simp [firstIds]

theorem firstIds_cons (i : Inst) (l : List Inst) :
    firstIds (i :: l) = (if i.uopId = 0 then [i.programId] else []) ++ firstIds l := by
  by_cases hi : i.uopId = 0
  · simp [firstIds, hi]
  · simp [firstIds, hi]

/-- Consecutive numbers from `n` on. -/
def Consecutive (n : ℕ) (l : List ℕ) : Prop := l = List.range' n l.length

namespace Consecutive

variable {n : ℕ} {l l' : List ℕ}

theorem nil (n : ℕ) : Consecutive n [] := rfl

theorem append : Consecutive n (l ++ l') ↔ Consecutive n l ∧ Consecutive (n + l.length) l' := by
  unfold Consecutive
  rw [List.length_append, ← List.range'_append_1]
  constructor
  · intro h
    exact List.append_inj h (by simp)
  · rintro ⟨h, h'⟩
    rw [← h, ← h']

theorem cons {k : ℕ} : Consecutive n (k :: l) ↔ k = n ∧ Consecutive (n + 1) l := by
  unfold Consecutive
  rw [List.length_cons, List.range'_succ, List.cons.injEq]

theorem singleton (n : ℕ) : Consecutive n [n] := rfl

/-- What comes at the last place may be continued. -/
theorem extend {k : ℕ} (h : Consecutive n (l ++ [k])) (h' : Consecutive k l') :
    Consecutive n (l ++ l') := by
  obtain ⟨hl, hk⟩ := append.mp h
  obtain ⟨rfl, -⟩ := cons.mp hk
  exact append.mpr ⟨hl, h'⟩

end Consecutive

theorem inProgramOrder_append : ∀ (last : Option Inst) (l l' : List Inst),
    inProgramOrder last (l ++ l') =
      (inProgramOrder last l && inProgramOrder (l.getLast?.or last) l')
  | _, [], _ => rfl
  | last, i :: l, l' => by
    have hlast : (i :: l).getLast?.or last = l.getLast?.or (some i) := by
      rcases List.eq_nil_or_concat l with rfl | ⟨front, j, rfl⟩
      · rfl
      · rw [List.concat_eq_append, List.getLast?_concat, ← List.cons_append, List.getLast?_concat]
        rfl
    rw [List.cons_append, inProgramOrder, inProgramOrder, inProgramOrder_append (some i) l l',
      hlast, Bool.and_assoc]

/-- What the ROB relies on: the instruction is known by its identifiers, counts for one instruction
if it is a first uop, and only then can cause a flush. -/
structure Inst.Counts (K : ℕ → ℕ → Prop) (i : Inst) : Prop where
  known : K i.uniqueId i.programId
  increment : i.uopId = 0 → i.programIdIncrement = 1
  flush : i.canFlush = true → i.uopId = 0

theorem Inst.Counts.mono {K K' : ℕ → ℕ → Prop} {i : Inst} (hK : ∀ u n, K u n → K' u n)
    (h : i.Counts K) : i.Counts K' :=
  ⟨hK _ _ h.known, h.increment, h.flush⟩

/-- A uop that Mavis makes is a new instruction, and neither a branch nor a CSR instruction. -/
def Mavis.MakesUops (m : Mavis) : Prop :=
  ∀ i srcs dests, Decode.usesUopGen i = true →
    (m.makeInstDirectly i srcs dests).canFlush = false ∧
      (m.makeInstDirectly i srcs dests).programIdIncrement = 1

/-! ## Decode -/

namespace Decode

variable {K : ℕ → ℕ → Prop} {m : Mavis} {s s' : DecodeState} {grp grp' : DecodeGroup}

/-- An instruction as Fetch sends it. -/
structure Whole (K : ℕ → ℕ → Prop) (i : Inst) : Prop where
  known : K i.uniqueId i.programId
  uopId : i.uopId = 0
  increment : i.programIdIncrement = 1

theorem Whole.counts {i : Inst} (h : Whole K i) : i.Counts K :=
  ⟨h.known, fun _ => h.increment, fun _ => h.uopId⟩

theorem Whole.mono {K' : ℕ → ℕ → Prop} {i : Inst} (hK : ∀ u n, K u n → K' u n)
    (h : Whole K i) : Whole K' i :=
  ⟨hK _ _ h.known, h.uopId, h.increment⟩

theorem Whole.configure {i : Inst} (h : Whole K i) (c : VectorConfig) :
    Whole K (configure c i).inst := by
  unfold Decode.configure
  split
  · exact ⟨h.known, h.uopId, h.increment⟩
  · split
    · exact ⟨h.known, h.uopId, h.increment⟩
    · split
      · exact ⟨h.known, h.uopId, h.increment⟩
      · exact h

theorem configure_ids (c : VectorConfig) (i : Inst) :
    (Decode.configure c i).inst.uniqueId = i.uniqueId ∧
      (Decode.configure c i).inst.programId = i.programId := by
  unfold Decode.configure
  split
  · exact ⟨rfl, rfl⟩
  · split
    · exact ⟨rfl, rfl⟩
    · split <;> exact ⟨rfl, rfl⟩

/-- The generator has an instruction of the program, and has begun with it if it is to go on. -/
structure GenKnown (K : ℕ → ℕ → Prop) (g : VecUopGen) : Prop where
  known : ∀ i, g.currentInst = some i → K i.uniqueId i.programId ∧ usesUopGen i = true
  begun : 0 < g.numUopsToGenerate → 0 < g.numUopsGenerated

theorem GenKnown.reset (K : ℕ → ℕ → Prop) : GenKnown K VectorUopGenerator.reset where
  known i hi := by cases hi
  begun h := by cases h

/-- A uop counts as its instruction, if it is the first, and the generator goes on with the next
one. -/
structure Makes (K : ℕ → ℕ → Prop) (g g' : VecUopGen) (i uop : Inst) : Prop where
  counts : uop.Counts K
  uniqueId : uop.uniqueId = i.uniqueId
  programId : uop.programId = i.programId
  uopId : uop.uopId = g.numUopsGenerated
  canFlush : uop.canFlush = false
  known : GenKnown K g'
  next : g' = VectorUopGenerator.reset ∨
    g'.currentInst = some i ∧ g'.numUopsGenerated = g.numUopsGenerated + 1

theorem generateUop_makes {g g' : VecUopGen} {uop : Inst} (hm : m.MakesUops)
    (hg : ∀ i, g.currentInst = some i → K i.uniqueId i.programId ∧ usesUopGen i = true)
    (h : VectorUopGenerator.generateUop m g = .ok (uop, g')) :
    ∃ i, g.currentInst = some i ∧ Makes K g g' i uop := by
  unfold VectorUopGenerator.generateUop at h
  split at h
  · cases h
  · rename_i i hi
    obtain ⟨ops, -, h⟩ := Run.bind_eq_ok.mp h
    obtain ⟨rfl, rfl⟩ := Prod.mk.inj (Except.ok.inj h)
    obtain ⟨hknown, huses⟩ := hg i hi
    obtain ⟨hflush, hincr⟩ := hm i ops.1 ops.2 huses
    have hcan : (VectorUopGenerator.makeUop m i g.numUopsGenerated ops).canFlush = false := hflush
    refine ⟨i, hi, ⟨hknown, fun _ => hincr, fun h => ?_⟩, rfl, rfl, rfl, hcan, ?_, ?_⟩
    · rw [hcan] at h
      cases h
    · split
      · exact .reset K
      · exact ⟨hg, fun _ => Nat.succ_pos _⟩
    · split
      · exact .inl rfl
      · exact .inr ⟨hi, rfl⟩

/-- The program identifiers in Decode. -/
structure Known (K : ℕ → ℕ → Prop) (s : DecodeState) : Prop where
  queue : ∀ i ∈ s.fetchQueue, Whole K i
  gen : GenKnown K s.vecUopGen

theorem Known.mono {K' : ℕ → ℕ → Prop} (hK : ∀ u n, K u n → K' u n) (H : Known K s) :
    Known K' s where
  queue i hi := (H.queue i hi).mono hK
  gen := ⟨fun i hi => (H.gen.known i hi).imp_left (hK _ _), H.gen.begun⟩

/-- A pass of the loop that emits a uop makes it of the current instruction or of the next one of
the queue, which may not need the generator. -/
theorem decodeOne_some (h : decodeOne m s grp = .ok (some (s', grp'))) :
    ∃ u, grp'.insts = grp.insts ++ [u] ∧
      ((0 < s.vecUopGen.numUopsToGenerate ∧ s'.fetchQueue = s.fetchQueue ∧
          VectorUopGenerator.generateUop m s.vecUopGen = .ok (u, s'.vecUopGen)) ∨
        ∃ i rest, s.fetchQueue = i :: rest ∧ s'.fetchQueue = rest ∧
          ((usesUopGen (configure s.vectorConfig i).inst = true ∧ ∃ gen,
              VectorUopGenerator.setInst s.vecUopGen (configure s.vectorConfig i).inst = .ok gen ∧
              VectorUopGenerator.generateUop m gen = .ok (u, s'.vecUopGen)) ∨
            s.vecUopGen.numUopsToGenerate = 0 ∧ u = (configure s.vectorConfig i).inst ∧
              s'.vecUopGen = s.vecUopGen)) := by
  unfold decodeOne at h
  split at h
  · rename_i hmore
    obtain ⟨⟨uop, gen⟩, hgen, h⟩ := Run.bind_eq_ok.mp h
    obtain ⟨rfl, rfl⟩ := Prod.mk.inj (Option.some.inj (Except.ok.inj h))
    exact ⟨uop, rfl, .inl ⟨hmore, rfl, hgen⟩⟩
  · rename_i hzero
    split at h
    · cases h
    · rename_i i rest hq
      dsimp only at h
      split at h
      · rename_i huses
        obtain ⟨gen, hset, h⟩ := Run.bind_eq_ok.mp h
        obtain ⟨⟨uop, gen'⟩, hgen, h⟩ := Run.bind_eq_ok.mp h
        obtain ⟨rfl, rfl⟩ := Prod.mk.inj (Option.some.inj (Except.ok.inj h))
        exact ⟨uop, rfl, .inr ⟨i, rest, hq, rfl, .inl ⟨huses, gen, hset, hgen⟩⟩⟩
      · obtain ⟨rfl, rfl⟩ := Prod.mk.inj (Option.some.inj (Except.ok.inj h))
        exact ⟨_, rfl, .inr ⟨i, rest, hq, rfl, .inr ⟨by omega, rfl, rfl⟩⟩⟩

/-- What Decode has comes after the last uop it has sent, and before what Fetch can still send. -/
structure Ahead (last fetched : Option Inst) (s : DecodeState) : Prop where
  increasing : ((last.toList ++ s.fetchQueue).map Inst.uniqueId).Pairwise (· < ·)
  future : ∀ j, follows fetched j = true → j.uopId = 0 →
    ∀ u ∈ (last.toList ++ s.fetchQueue).map Inst.uniqueId, u < j.uniqueId
  gen : 0 < s.vecUopGen.numUopsToGenerate → ∀ i, s.vecUopGen.currentInst = some i →
    ∃ l, last = some l ∧ l.uniqueId = i.uniqueId ∧ l.uopId < s.vecUopGen.numUopsGenerated ∧
      l.canFlush = false

/-- A session in which the loop has come to `grp`. -/
structure Session (K : ℕ → ℕ → Prop) (last fetched : Option Inst) (ids : List ℕ) (s : DecodeState)
    (grp : List Inst) : Prop where
  known : Known K s
  counts : ∀ u ∈ grp, u.Counts K
  ids : firstIds grp ++ s.fetchQueue.map Inst.programId = ids
  order : inProgramOrder last grp = true
  ahead : Ahead (grp.getLast?.or last) fetched s

/-- What the session has emitted with one more uop. -/
theorem Session.emit {last fetched : Option Inst} {ids : List ℕ} {l : List Inst} {u : Inst}
    (H : Session K last fetched ids s l) (hknown : Known K s') (hcounts : u.Counts K)
    (hids : firstIds [u] ++ s'.fetchQueue.map Inst.programId = s.fetchQueue.map Inst.programId)
    (hfollows : follows (l.getLast?.or last) u = true) (hahead : Ahead (some u) fetched s') :
    Session K last fetched ids s' (l ++ [u]) := by
  have hlast : (l ++ [u]).getLast?.or last = some u := by simp
  refine ⟨hknown, fun v hv => ?_, ?_, ?_, ?_⟩
  · rcases List.mem_append.mp hv with hv | hv
    · exact H.counts v hv
    · obtain rfl := List.mem_singleton.mp hv
      exact hcounts
  · rw [firstIds_append, List.append_assoc, hids]
    exact H.ids
  · rw [inProgramOrder_append, H.order, Bool.true_and]
    exact (Bool.and_true _).trans hfollows
  · rw [hlast]
    exact hahead

/-- A pass of the loop emits one uop, which comes next, and is a first one exactly if an instruction
was taken. -/
theorem Session.decodeOne {last fetched : Option Inst} {ids : List ℕ} (hm : m.MakesUops)
    (H : Session K last fetched ids s grp.insts)
    (h : decodeOne m s grp = .ok (some (s', grp'))) :
    Session K last fetched ids s' grp'.insts := by
  obtain ⟨u, hgrp, hcase⟩ := decodeOne_some h
  rw [hgrp]
  rcases hcase with ⟨hmore, hq, hgen⟩ | ⟨i, rest, hq, hq', hcase⟩
  · -- a further uop of the current instruction, behind the one before it
    obtain ⟨i, hi, M⟩ := generateUop_makes hm H.known.gen.known hgen
    obtain ⟨l, hl, hid, huop, hcan⟩ := H.ahead.gen hmore i hi
    have hsame : (Option.toList (some u) ++ s'.fetchQueue).map Inst.uniqueId =
        ((grp.insts.getLast?.or last).toList ++ s.fetchQueue).map Inst.uniqueId := by
      rw [hq, hl]
      simp [M.uniqueId, hid]
    refine H.emit ⟨by rw [hq]; exact H.known.queue, M.known⟩ M.counts ?_ ?_ ⟨?_, ?_, ?_⟩
    · have hne : u.uopId ≠ 0 := by
        have hpos := H.known.gen.begun hmore
        have hnum := M.uopId
        omega
      rw [firstIds_cons, if_neg hne, hq]
      rfl
    · rw [hl]
      exact Inst.before_iff.mpr (.inr ⟨by rw [hid, M.uniqueId], by rw [M.uopId]; exact huop, hcan⟩)
    · rw [hsame]
      exact H.ahead.increasing
    · rw [hsame]
      exact H.ahead.future
    · intro hpos j hj
      rcases M.next with hreset | ⟨hcur, hnum⟩
      · rw [hreset] at hpos
        cases hpos
      · rw [hcur] at hj
        obtain rfl := Option.some.inj hj
        exact ⟨u, rfl, M.uniqueId, by rw [M.uopId, hnum]; exact Nat.lt_succ_self _, M.canFlush⟩
  · -- the first uop of the next instruction
    have hi := H.known.queue i (by simp [hq])
    have hrest : ∀ j ∈ s'.fetchQueue, Whole K j := by
      rw [hq']
      exact fun j hj => H.known.queue j (by simp [hq, hj])
    have hcfg := hi.configure s.vectorConfig
    obtain ⟨hcid, hcpid⟩ := configure_ids s.vectorConfig i
    have hfirst : u.Counts K ∧ GenKnown K s'.vecUopGen ∧ u.uniqueId = i.uniqueId ∧
        u.programId = i.programId ∧ u.uopId = 0 ∧
        (0 < s'.vecUopGen.numUopsToGenerate → ∀ j, s'.vecUopGen.currentInst = some j →
          u.uniqueId = j.uniqueId ∧ u.uopId < s'.vecUopGen.numUopsGenerated ∧
            u.canFlush = false) := by
      rcases hcase with ⟨huses, gen, hset, hgen⟩ | ⟨hzero, rfl, hsame⟩
      · obtain ⟨-, hcur, -, hnum⟩ := VectorUopGenerator.setInst_spec hset
        have hgenKnown : ∀ j, gen.currentInst = some j →
            K j.uniqueId j.programId ∧ usesUopGen j = true := by
          intro j hj
          rw [hcur] at hj
          obtain rfl := Option.some.inj hj
          exact ⟨hcfg.known, huses⟩
        obtain ⟨j, hj, M⟩ := generateUop_makes hm hgenKnown hgen
        rw [hcur] at hj
        obtain rfl := Option.some.inj hj
        refine ⟨M.counts, M.known, M.uniqueId.trans hcid, M.programId.trans hcpid,
          M.uopId.trans hnum, fun hpos j hj => ?_⟩
        rcases M.next with hreset | ⟨hcur', hnum'⟩
        · rw [hreset] at hpos
          cases hpos
        · rw [hcur'] at hj
          obtain rfl := Option.some.inj hj
          exact ⟨M.uniqueId, by rw [M.uopId, hnum']; exact Nat.lt_succ_self _, M.canFlush⟩
      · rw [hsame]
        refine ⟨hcfg.counts, H.known.gen, hcid, hcpid, hcfg.uopId, fun hpos => ?_⟩
        omega
    obtain ⟨hcounts, hgen, hid, hpid, hzero, hnext⟩ := hfirst
    have hqueue : ((grp.insts.getLast?.or last).toList ++ s.fetchQueue).map Inst.uniqueId =
        (grp.insts.getLast?.or last).toList.map Inst.uniqueId ++
          (Option.toList (some u) ++ s'.fetchQueue).map Inst.uniqueId := by
      rw [hq, hq']
      simp [hid]
    have hincreasing := H.ahead.increasing
    have hfuture := H.ahead.future
    rw [hqueue] at hincreasing hfuture
    rw [List.pairwise_append] at hincreasing
    refine H.emit ⟨hrest, hgen⟩ hcounts ?_ ?_ ⟨hincreasing.2.1, fun j hj hj0 v hv =>
      hfuture j hj hj0 v (List.mem_append_right _ hv), fun hpos j hj => ⟨u, rfl, hnext hpos j hj⟩⟩
    · rw [firstIds_cons, if_pos hzero, hq, hq', hpid]
      rfl
    · cases hl : grp.insts.getLast?.or last with
      | none => rfl
      | some l =>
        rw [hl] at hincreasing
        exact Inst.before_iff.mpr (.inl (hincreasing.2.2 l.uniqueId (by simp) u.uniqueId (by simp)))

/-- A session emits one first uop for each instruction it takes, and all uops in program order. -/
theorem decodeInsts_sends {q : DecodeParams} {out : Option (List Inst)}
    {last fetched : Option Inst} (hm : q.mavis.MakesUops) (H : Known K s)
    (hahead : Ahead last fetched s) (h : decodeInsts q s = .ok (s', out)) :
    Session K last fetched (s.fetchQueue.map Inst.programId) s' (out.getD []) := by
  rcases decodeInsts_cases h with ⟨-, rfl, rfl⟩ | ⟨-, s₁, grp, hloop, rfl, rfl⟩
  · exact ⟨⟨H.queue, H.gen⟩, by simp, rfl, rfl, ⟨hahead.increasing, hahead.future, hahead.gen⟩⟩
  · have hinit : Session K last fetched (s.fetchQueue.map Inst.programId)
        { s with latencyCount := 0 } [] :=
      ⟨⟨H.queue, H.gen⟩, by simp, rfl, rfl, ⟨hahead.increasing, hahead.future, hahead.gen⟩⟩
    have S : Session K last fetched (s.fetchQueue.map Inst.programId) s₁ grp.insts :=
      decodeLoop_induct (I := fun t grp =>
        Session K last fetched (s.fetchQueue.map Inst.programId) t grp.insts)
        (fun _ H hone => H.decodeOne hm hone) _ hinit hloop
    exact ⟨⟨S.known.queue, S.known.gen⟩, S.counts, S.ids, S.order,
      ⟨S.ahead.increasing, S.ahead.future, S.ahead.gen⟩⟩

end Decode

/-! ## The ROB -/

namespace Rob

variable {p : RobParams} {s s' : RobState} {T T' : InstTable} {out out' : RetireOut}

/-- The first uops in the buffer count for one instruction each. -/
def CountsOne (s : RobState) : Prop :=
  ∀ ri ∈ s.reorderBuffer, ri.inst.uopId = 0 → ri.inst.programIdIncrement = 1

/-- What `expected_program_id_` counts. -/
theorem countRetired_expected {i : Inst} (hi : i.uopId = 0 → i.programIdIncrement = 1)
    (h : countRetired s out i = .ok (s', out')) :
    Consecutive s.expectedProgramID (firstIds [i]) ∧
      s'.expectedProgramID = s.expectedProgramID + (firstIds [i]).length := by
  rw [firstIds_cons]
  unfold countRetired at h
  split at h
  · rename_i huop
    obtain ⟨u, hid, h⟩ := Run.bind_eq_ok.mp h
    obtain ⟨rfl, -⟩ := Prod.mk.inj (Except.ok.inj h)
    rw [if_pos huop, of_decide_eq_true (spartaAssert_eq_ok.mp hid), hi huop]
    exact ⟨.singleton _, rfl⟩
  · rename_i huop
    obtain ⟨rfl, -⟩ := Prod.mk.inj (Except.ok.inj h)
    rw [if_neg huop]
    exact ⟨.nil _, rfl⟩

/-- An iteration of the loop retires one entry or none. -/
theorem retireOne_expected {goOn : Bool} (hone : CountsOne s)
    (h : retireOne p s T out = .ok (s', T', out', goOn)) :
    ∃ new, out'.retired = out.retired ++ new ∧ s.reorderBuffer = new ++ s'.reorderBuffer ∧
      Consecutive s.expectedProgramID (firstIds (new.map RenamedInst.inst)) ∧
      s'.expectedProgramID =
        s.expectedProgramID + (firstIds (new.map RenamedInst.inst)).length := by
  unfold retireOne at h
  rcases hbuf : s.reorderBuffer with _ | ⟨ri, rest⟩
  · rw [hbuf] at h
    cases h
  · rw [hbuf] at h
    dsimp only at h
    obtain ⟨-, -, h⟩ := Run.bind_eq_ok.mp h
    split at h
    · obtain ⟨⟨s₁, out₁⟩, hcount, h⟩ := Run.bind_eq_ok.mp h
      obtain ⟨hcons, hexp⟩ := countRetired_expected (hone ri (by simp [hbuf])) hcount
      have hframe : s₁.reorderBuffer = rest ∧ out₁.retired = out.retired ++ [ri] := by
        unfold countRetired at hcount
        split at hcount
        · obtain ⟨-, -, hcount⟩ := Run.bind_eq_ok.mp hcount
          obtain ⟨rfl, rfl⟩ := Prod.mk.inj (Except.ok.inj hcount)
          exact ⟨rfl, rfl⟩
        · obtain ⟨rfl, rfl⟩ := Prod.mk.inj (Except.ok.inj hcount)
          exact ⟨rfl, rfl⟩
      refine ⟨[ri], ?_⟩
      dsimp only at h
      split at h
      · cases Except.ok.inj h
        exact ⟨hframe.2, by rw [hframe.1]; rfl, hcons, hexp⟩
      · split at h
        · obtain ⟨c, -, h⟩ := Run.bind_eq_ok.mp h
          cases Except.ok.inj h
          exact ⟨hframe.2, by rw [hframe.1]; rfl, hcons, hexp⟩
        · cases Except.ok.inj h
          exact ⟨hframe.2, by rw [hframe.1]; rfl, hcons, hexp⟩
    · cases Except.ok.inj h
      exact ⟨[], by simp, by simp [hbuf], .nil _, rfl⟩

/-- What the first uops that retire have as program identifiers. -/
structure Expected (s s' : RobState) (new : List RenamedInst) : Prop where
  buffer : s.reorderBuffer = new ++ s'.reorderBuffer
  ids : Consecutive s.expectedProgramID (firstIds (new.map RenamedInst.inst))
  expected : s'.expectedProgramID =
    s.expectedProgramID + (firstIds (new.map RenamedInst.inst)).length

theorem Expected.countsOne {new : List RenamedInst} (E : Expected s s' new) (h : CountsOne s) :
    CountsOne s' := by
  intro ri hri
  apply h
  rw [E.buffer]
  exact List.mem_append_right _ hri

theorem Expected.trans {s₁ : RobState} {new new' : List RenamedInst} (E : Expected s s₁ new)
    (E' : Expected s₁ s' new') : Expected s s' (new ++ new') where
  buffer := by rw [E.buffer, E'.buffer, List.append_assoc]
  ids := by
    rw [List.map_append, firstIds_append, Consecutive.append, ← E.expected]
    exact ⟨E.ids, E'.ids⟩
  expected := by
    rw [E'.expected, E.expected, List.map_append, firstIds_append, List.length_append,
      Nat.add_assoc]

theorem retireLoop_expected : ∀ (n : ℕ) {s s' : RobState} {T T' : InstTable} {out out' : RetireOut},
    CountsOne s → retireLoop p n s T out = .ok (s', T', out') →
    ∃ new, out'.retired = out.retired ++ new ∧ Expected s s' new
  | 0, s, s', T, T', out, out', hone, h => by
    obtain ⟨rfl, rfl, rfl⟩ : s = s' ∧ T = T' ∧ out = out' := by simpa [retireLoop] using h
    exact ⟨[], by simp, rfl, .nil _, rfl⟩
  | n + 1, s, s', T, T', out, out', hone, h => by
    unfold retireLoop at h
    obtain ⟨⟨s₁, T₁, out₁, goOn⟩, hfirst, h⟩ := Run.bind_eq_ok.mp h
    obtain ⟨new, hret, hbuf, hids, hexp⟩ := retireOne_expected hone hfirst
    have E : Expected s s₁ new := ⟨hbuf, hids, hexp⟩
    dsimp only at h
    split at h
    · obtain ⟨new', hret', E'⟩ := retireLoop_expected n (E.countsOne hone) h
      exact ⟨new ++ new', by rw [hret', hret, List.append_assoc], E.trans E'⟩
    · cases Except.ok.inj h
      exact ⟨new, hret, E⟩

/-- The program identifiers of a retired group go up by one from what the ROB expects. -/
theorem retireInstructions_expected (hone : CountsOne s)
    (h : retireInstructions p s T = .ok (s', T', out)) : Expected s s' out.retired := by
  unfold retireInstructions at h
  split at h
  · obtain ⟨rfl, rfl, rfl⟩ : s = s' ∧ T = T' ∧ ({} : RetireOut) = out := by simpa using h
    exact ⟨rfl, .nil _, rfl⟩
  · obtain ⟨new, hret, E⟩ := retireLoop_expected _ hone h
    rw [hret]
    exact E

/-- The ROB has what it expects. -/
def HasExpected (s : RobState) : Prop :=
  Consecutive s.expectedProgramID (firstIds (s.reorderBuffer.map RenamedInst.inst))

theorem Expected.hasExpected {new : List RenamedInst} (E : Expected s s' new)
    (h : HasExpected s) : HasExpected s' := by
  unfold HasExpected at h ⊢
  rw [E.buffer, List.map_append, firstIds_append, Consecutive.append, ← E.expected] at h
  exact h.2

/-- Then the comparison of the program identifiers does not fail. -/
theorem countRetired_ne {i : Inst} (h : i.uopId = 0 → i.programId = s.expectedProgramID) :
    Run.FailsIn (· ≠ .unexpectedProgramID) (countRetired s out i) := by
  unfold countRetired
  split
  · rename_i huop
    have hid : spartaAssert (i.programId = s.expectedProgramID) .unexpectedProgramID = .ok () :=
      spartaAssert_eq_ok.mpr (decide_eq_true (h huop))
    exact (Run.FailsIn.of_eq_ok hid).bind fun _ => .ok _
  · exact .ok _

theorem retireOne_ne (hids : HasExpected s) :
    Run.FailsIn (· ≠ .unexpectedProgramID) (retireOne p s T out) := by
  have hassert : ∀ b, Run.FailsIn (· ≠ .unexpectedProgramID)
      (spartaAssert b .retiringSpeculative) := fun _ => spartaAssert_failsIn (by simp)
  have hmake : ∀ cause i, Run.FailsIn (· ≠ .unexpectedProgramID)
      (FlushingCriteria.make cause i) := by
    intro cause i
    refine Run.FailsIn.bind ?_ fun _ => .ok _
    cases cause with
    | unknown => exact .error (by simp)
    | _ => exact .ok _
  unfold retireOne
  cases hbuf : s.reorderBuffer with
  | nil => exact .error (by simp)
  | cons ri rest =>
    have hri : ri.inst.uopId = 0 → ri.inst.programId = s.expectedProgramID := by
      intro huop
      unfold HasExpected at hids
      rw [hbuf, List.map_cons, firstIds_cons, if_pos huop] at hids
      exact (Consecutive.cons.mp hids).1
    refine (hassert _).bind fun _ => ?_
    split
    · refine (countRetired_ne (s := { s with reorderBuffer := rest }) hri).bind fun st => ?_
      dsimp only
      split
      · exact .ok _
      · split
        · exact (hmake _ _).bind fun _ => .ok _
        · exact .ok _
    · exact .ok _

theorem retireInstructions_ne (hone : CountsOne s) (hids : HasExpected s) :
    Run.FailsIn (· ≠ .unexpectedProgramID) (retireInstructions p s T) := by
  have hloop : ∀ (n : ℕ) (s : RobState) (T : InstTable) (out : RetireOut), CountsOne s →
      HasExpected s → Run.FailsIn (· ≠ .unexpectedProgramID) (retireLoop p n s T out) := by
    intro n
    induction n with
    | zero => exact fun s T out _ _ => .ok _
    | succ n ih =>
      intro s T out hone hids
      refine (retireOne_ne hids).bind_of_ok fun st hst => ?_
      obtain ⟨new, -, hbuf, hnew, hexp⟩ := retireOne_expected hone hst
      have E : Expected s st.1 new := ⟨hbuf, hnew, hexp⟩
      dsimp only
      split
      · exact ih _ _ _ (E.countsOne hone) (E.hasExpected hids)
      · exact .ok _
  unfold retireInstructions
  split
  · exact .ok _
  · exact hloop _ _ _ _ hone hids

end Rob

end Olympia
