import Olympia.UopGeneration

/-!
# The operands of the uops of an instruction

Decode has the generator make the first uop of an instruction right after `setInst`, and further
ones as long as `getNumUopsRemaining` is positive: `Makes`.  The constructor of the generator
documents a rule for each generator type, which says how far the operands of uop `k` are from those
of the instruction: `ruleOperands`.

The source loop of `generateUops_` has no branch for `SINGLE_DEST`, and one branch for
`WIDENING_MIXED` and `REDUCTION_WIDE`.  So it moves the sources of these types as those of another
type, `treatedAs`, and a uop follows the rule of its type unless that makes a difference:
`uop_operands_follow_rule`.
-/

namespace Olympia

namespace VectorUopGenerator

/-! ## The uops that are made -/

/-- Uop `k` of an instruction is made, and leaves the generator like this.  An idle generator is as
`reset_` leaves it. -/
inductive Makes (m : Mavis) (i : Inst) : ℕ → Inst → VecUopGen → Prop
  | first {g g' : VecUopGen} {uop : Inst} :
      setInst reset i = .ok g → generateUop m g = .ok (uop, g') → Makes m i 0 uop g'
  | next {k : ℕ} {g g' : VecUopGen} {uop uop' : Inst} :
      Makes m i k uop g → 0 < g.numUopsToGenerate → generateUop m g = .ok (uop', g') →
        Makes m i (k + 1) uop' g'

/-- The generator is at uop `k` of an instruction. -/
structure AtUop (g : VecUopGen) (i : Inst) (k : ℕ) : Prop where
  currentInst : g.currentInst = some i
  viext : g.viext = viextOf i
  numUopsToGenerate : g.numUopsToGenerate = uopCount i
  numUopsGenerated : g.numUopsGenerated = k

variable {m : Mavis} {i uop : Inst} {g g' : VecUopGen} {k : ℕ}

theorem atUop_setInst (h : setInst reset i = .ok g) : AtUop g i 0 := by
  obtain ⟨-, hcur, hn, hzero⟩ := setInst_spec h
  refine ⟨hcur, ?_, hn.trans (numUops_eq_uopCount i), hzero⟩
  obtain ⟨-, -, h⟩ := Run.bind_eq_ok.mp h
  obtain ⟨-, -, h⟩ := Run.bind_eq_ok.mp h
  obtain ⟨-, -, h⟩ := Run.bind_eq_ok.mp h
  obtain ⟨-, -, h⟩ := Run.bind_eq_ok.mp h
  obtain ⟨-, -, h⟩ := Run.bind_eq_ok.mp h
  obtain rfl := Except.ok.inj h
  rfl

/-- What `generateUop` makes, and that it goes on to the next uop unless this was the last one. -/
theorem AtUop.generateUop (H : AtUop g i k) (h : generateUop m g = .ok (uop, g')) :
    (∃ ops, uopOperands (viextOf i) (uopCount i) k i = .ok ops ∧ uop = makeUop m i k ops) ∧
      (0 < g'.numUopsToGenerate → AtUop g' i (k + 1) ∧ k + 1 ≠ uopCount i) := by
  unfold VectorUopGenerator.generateUop at h
  split at h
  · cases h
  · rename_i j hj
    obtain rfl := Option.some.inj (H.currentInst.symm.trans hj)
    obtain ⟨ops, hops, h⟩ := Run.bind_eq_ok.mp h
    obtain ⟨rfl, rfl⟩ := Prod.mk.inj (Except.ok.inj h)
    rw [H.viext, H.numUopsToGenerate, H.numUopsGenerated] at hops
    refine ⟨⟨ops, hops, by rw [H.numUopsGenerated]⟩, fun hpos => ?_⟩
    split at hpos
    · exact absurd hpos (lt_irrefl 0)
    · rename_i hmore
      rw [if_neg hmore]
      rw [H.numUopsGenerated, H.numUopsToGenerate] at hmore
      exact ⟨⟨H.currentInst, H.viext, H.numUopsToGenerate, by simp [H.numUopsGenerated]⟩, hmore⟩

theorem AtUop.exists_generateUop (H : AtUop g i k) {ops : List OpInfo × List OpInfo}
    (hops : uopOperands (viextOf i) (uopCount i) k i = .ok ops) :
    ∃ g', VectorUopGenerator.generateUop m g = .ok (makeUop m i k ops, g') ∧
      (k + 1 ≠ uopCount i → g'.numUopsToGenerate = uopCount i) := by
  rw [← H.viext, ← H.numUopsToGenerate, ← H.numUopsGenerated] at hops
  unfold VectorUopGenerator.generateUop
  split
  · rename_i hnone
    rw [H.currentInst] at hnone
    cases hnone
  · rename_i j hj
    obtain rfl := Option.some.inj (H.currentInst.symm.trans hj)
    rw [hops]
    refine ⟨_, by rw [← H.numUopsGenerated]; rfl, fun hmore => ?_⟩
    rw [← H.numUopsGenerated, ← H.numUopsToGenerate] at hmore
    rw [if_neg hmore]
    exact H.numUopsToGenerate

/-- A uop that is made is uop 0 or one of those the instruction has, made of the operands that the
function of its type gives. -/
theorem Makes.spec (h : Makes m i k uop g) :
    (k = 0 ∨ k < uopCount i) ∧
      (∃ ops, uopOperands (viextOf i) (uopCount i) k i = .ok ops ∧ uop = makeUop m i k ops) ∧
      (0 < g.numUopsToGenerate → AtUop g i (k + 1) ∧ k + 1 < uopCount i) := by
  induction h with
  | first hset hgen =>
    obtain ⟨hops, hnext⟩ := (atUop_setInst hset).generateUop hgen
    refine ⟨.inl rfl, hops, fun hpos => ?_⟩
    obtain ⟨hat, hne⟩ := hnext hpos
    have hn := hat.numUopsToGenerate
    exact ⟨hat, by omega⟩
  | next _ hpos hgen ih =>
    obtain ⟨hat, hlt⟩ := ih.2.2 hpos
    obtain ⟨hops, hnext⟩ := hat.generateUop hgen
    refine ⟨.inr hlt, hops, fun hpos' => ?_⟩
    obtain ⟨hat', hne⟩ := hnext hpos'
    exact ⟨hat', by omega⟩

theorem Makes.exists_setInst (h : Makes m i k uop g) : ∃ g₀, setInst reset i = .ok g₀ := by
  induction h with
  | first hset _ => exact ⟨_, hset⟩
  | next _ _ _ ih => exact ih

theorem Makes.lmul_le (h : Makes m i k uop g) (hwide : isWide i.uopGen = true) :
    i.vectorConfig.lmul ≤ 4 := by
  obtain ⟨g₀, hset⟩ := h.exists_setInst
  obtain ⟨-, -, hset⟩ := Run.bind_eq_ok.mp hset
  obtain ⟨-, -, hset⟩ := Run.bind_eq_ok.mp hset
  obtain ⟨-, -, hset⟩ := Run.bind_eq_ok.mp hset
  obtain ⟨u, hlmul, -⟩ := Run.bind_eq_ok.mp hset
  simpa [hwide] using hlmul

theorem Makes.uopCount_le (h : Makes m i k uop g) : uopCount i ≤ nVectorUops := by
  obtain ⟨g₀, hset⟩ := h.exists_setInst
  obtain ⟨-, -, hset⟩ := Run.bind_eq_ok.mp hset
  obtain ⟨-, -, hset⟩ := Run.bind_eq_ok.mp hset
  obtain ⟨-, -, hset⟩ := Run.bind_eq_ok.mp hset
  obtain ⟨-, -, hset⟩ := Run.bind_eq_ok.mp hset
  obtain ⟨u, hcount, -⟩ := Run.bind_eq_ok.mp hset
  rw [← numUops_eq_uopCount]
  simpa using hcount

/-- If neither `setInst` nor a uop stops at an assertion, all uops are made. -/
theorem exists_makes (hset : ∃ g, setInst reset i = .ok g)
    (hops : ∀ j ≤ k, ∃ ops, uopOperands (viextOf i) (uopCount i) j i = .ok ops)
    (hk : k = 0 ∨ k < uopCount i) : ∃ uop g, Makes m i k uop g := by
  suffices h : ∃ uop g, Makes m i k uop g ∧
      (k + 1 ≠ uopCount i → g.numUopsToGenerate = uopCount i) by
    obtain ⟨uop, g, h, -⟩ := h
    exact ⟨uop, g, h⟩
  induction k with
  | zero =>
    obtain ⟨g, hg⟩ := hset
    obtain ⟨ops, hops⟩ := hops 0 le_rfl
    obtain ⟨g', hgen, hmore⟩ := (atUop_setInst hg).exists_generateUop (m := m) hops
    exact ⟨_, g', .first hg hgen, hmore⟩
  | succ k ih =>
    have hlt := hk.resolve_left (Nat.succ_ne_zero k)
    obtain ⟨uop, g, h, hrem⟩ := ih (fun j hj => hops j (by omega)) (by omega)
    have hpos : 0 < g.numUopsToGenerate := by
      rw [hrem (by omega)]
      omega
    obtain ⟨ops, hops⟩ := hops (k + 1) le_rfl
    obtain ⟨g', hgen, hmore⟩ := (h.spec.2.2 hpos).1.exists_generateUop (m := m) hops
    exact ⟨_, g', .next h hpos hgen, hmore⟩

/-! ## The rules -/

/-- How far the rule of a type moves a vector source of uop `k`, for an integer extension by factor
`e`. -/
def sourceStep (t : UopGenType) (e k : ℕ) (o : OpInfo) : ℕ :=
  match t with
  | .elementwise | .singleDest | .mac | .reduction => k
  | .widening | .macWide => k / 2
  | .wideningMixed => if o.fieldId = .rs2 then k else if o.fieldId = .rs1 then k / 2 else 0
  | .narrowing => if o.fieldId = .rs2 then k * 2 else if o.fieldId = .rs1 then k else 0
  | .reductionWide => if o.fieldId = .rs2 then k / 2 else if o.fieldId = .rs1 then k else 0
  | .intExt => k / e
  | _ => 0

/-- A source of uop `k`; scalars stay as they are. -/
def moveSource (t : UopGenType) (e k : ℕ) (o : OpInfo) : OpInfo :=
  if o.regFile = .vector then shift (sourceStep t e k o) o else o

/-- Operands in the source fields from number `n` on. -/
def numberedFrom (n : ℕ) (l : List OpInfo) : List OpInfo :=
  l.mapIdx fun j o => { o with fieldId := rsField (n + j) }

/-- The sources that uop `k` has beyond those of its instruction: what it accumulates into, what
the uop before it has written, or the second half of a wide source. -/
def extraSources (i : Inst) (k : ℕ) : List OpInfo :=
  match i.uopGen with
  | .mac | .macWide => numberedFrom i.srcs.length (i.dests.map (shift k))
  | .reduction | .reductionWide =>
    if k = 0 then [] else numberedFrom i.srcs.length (i.dests.map (shift (k - 1)))
  | .narrowing =>
    (i.srcs.filter fun o => o.regFile = .vector ∧ o.fieldId = .rs2).getLast?.toList.map fun o =>
      { shift (k * 2 + 1) o with fieldId := .rs3 }
  | _ => []

/-- The sources of a slide: the neighbouring register, or the scalar for the uop at the end. -/
def slideSources (i : Inst) (n k : ℕ) (o : OpInfo) : List OpInfo :=
  let atEnd : Bool := if i.uopGen = .slide1up then k = 0 else k + 1 = n
  let neighbour := if i.uopGen = .slide1up then k - 1 else k + 1
  if o.regFile = .vector then
    shift k o :: if atEnd then [] else [{ shift neighbour o with fieldId := .rs3 }]
  else if atEnd then [o] else []

/-- The operands of uop `k` of `n` if its sources are moved as those of type `t`. -/
def operandsAs (t : UopGenType) (i : Inst) (n k : ℕ) : List OpInfo × List OpInfo :=
  (match i.uopGen with
    | .slide1up | .slide1down => i.srcs.flatMap (slideSources i n k)
    | _ => i.srcs.map (moveSource t ((viextOf i).getD 0) k) ++ extraSources i k,
    if i.uopGen = .singleDest then i.dests else i.dests.map (shift k))

/-- The operands of uop `k` of `n` by the rule of its type. -/
def ruleOperands (i : Inst) (n k : ℕ) : List OpInfo × List OpInfo := operandsAs i.uopGen i n k

/-- The type whose rule the source loop follows. -/
def treatedAs : UopGenType → UopGenType
  | .singleDest => .singleSrc
  | .reductionWide => .wideningMixed
  | t => t

/-- The instruction has a vector source that the source loop does not move by its rule: any source
of a `SINGLE_DEST` type, and those of a `REDUCTION_WIDE` type whose steps are exchanged. -/
def Misplaced (i : Inst) : Prop :=
  (i.uopGen = .singleDest ∧ ∃ o ∈ i.srcs, o.regFile = .vector) ∨
    (i.uopGen = .reductionWide ∧
      ∃ o ∈ i.srcs, o.regFile = .vector ∧ (o.fieldId = .rs2 ∨ o.fieldId = .rs1))

@[simp] theorem shift_zero (o : OpInfo) : shift 0 o = o := rfl

@[simp] theorem shift_fieldValue (n : ℕ) (o : OpInfo) :
    (shift n o).fieldValue = o.fieldValue + n := rfl

@[simp] theorem shift_shift (a b : ℕ) (o : OpInfo) : shift a (shift b o) = shift (b + a) o := by
  simp [shift, Nat.add_assoc]

theorem shift_inj {a b : ℕ} {o : OpInfo} : shift a o = shift b o ↔ a = b := by
  simp [shift]

@[simp] theorem moveSource_regFile (t : UopGenType) (e k : ℕ) (o : OpInfo) :
    (moveSource t e k o).regFile = o.regFile := by
  unfold moveSource
  split <;> rfl

@[simp] theorem moveSource_fieldId (t : UopGenType) (e k : ℕ) (o : OpInfo) :
    (moveSource t e k o).fieldId = o.fieldId := by
  unfold moveSource
  split <;> rfl

@[simp] theorem numberedFrom_nil (n : ℕ) : numberedFrom n [] = [] := rfl

@[simp] theorem length_numberedFrom (n : ℕ) (l : List OpInfo) :
    (numberedFrom n l).length = l.length := List.length_mapIdx

theorem numberedFrom_append (n : ℕ) (l l' : List OpInfo) :
    numberedFrom n (l ++ l') = numberedFrom n l ++ numberedFrom (n + l.length) l' := by
  simp [numberedFrom, List.mapIdx_append, Nat.add_assoc, Nat.add_comm l.length]

/-! ## What the loops do -/

/-- The source loop moves the source by the rule of the type it is treated as. -/
theorem shiftSrc_eq {t : UopGenType} {viext : Option ℕ} {o o' : OpInfo}
    (h : shiftSrc t viext k o = .ok o') : o' = moveSource (treatedAs t) (viext.getD 0) k o := by
  unfold shiftSrc at h
  unfold moveSource
  split at h
  · rename_i hstays
    obtain rfl := Except.ok.inj h
    rcases hstays with hfile | rfl
    · rw [if_neg hfile]
    · simp [treatedAs, sourceStep]
  · rename_i hmoves
    rw [if_pos (by simpa using fun hfile => hmoves (.inl hfile))]
    cases t with
    | intExt =>
      cases viext with
      | none => cases h
      | some e => exact (Except.ok.inj h).symm
    | wideningMixed | reductionWide | narrowing =>
      obtain rfl := Except.ok.inj h
      simp only [treatedAs, sourceStep]
      split
      · rfl
      · split <;> rfl
    | _ => exact (Except.ok.inj h).symm

/-- The destination loop moves every destination, and adds the sources `extra` gives. -/
theorem shiftDests_eq {t : UopGenType} {extra : OpInfo → List OpInfo}
    (hone : ∀ {ops ops' o}, shiftDest t k ops o = .ok ops' →
      ops' = (ops.1 ++ numberedFrom ops.1.length (extra o), ops.2 ++ [shift k o])) :
    ∀ {dests : List OpInfo} {ops ops' : List OpInfo × List OpInfo},
      dests.foldlM (shiftDest t k) ops = .ok ops' →
      ops' = (ops.1 ++ numberedFrom ops.1.length (dests.flatMap extra),
        ops.2 ++ dests.map (shift k))
  | [], ops, ops', h => by
    obtain rfl := Except.ok.inj h
    simp
  | o :: dests, ops, ops', h => by
    rw [List.foldlM_cons] at h
    obtain ⟨ops₁, hops₁, h⟩ := Run.bind_eq_ok.mp h
    obtain rfl := hone hops₁
    rw [shiftDests_eq hone h]
    simp [numberedFrom_append]

theorem addDestAsSrc_eq {srcs srcs' : List OpInfo} {dest : OpInfo}
    (h : addDestAsSrc srcs dest = .ok srcs') :
    srcs' = srcs ++ numberedFrom srcs.length [dest] := by
  obtain ⟨-, -, h⟩ := Run.bind_eq_ok.mp h
  exact (Except.ok.inj h).symm

/-- The sources that the destination loop adds for a destination of uop `k`. -/
def destExtra (t : UopGenType) (k : ℕ) (o : OpInfo) : List OpInfo :=
  if t = .mac ∨ t = .macWide then [shift k o]
  else if (t = .reduction ∨ t = .reductionWide) ∧ k ≠ 0 then [shift (k - 1) o]
  else []

theorem shiftDest_eq {t : UopGenType} {ops ops' : List OpInfo × List OpInfo} {o : OpInfo}
    (h : shiftDest t k ops o = .ok ops') :
    ops' = (ops.1 ++ numberedFrom ops.1.length (destExtra t k o), ops.2 ++ [shift k o]) := by
  unfold shiftDest at h
  unfold destExtra
  dsimp only at h
  split at h
  · rename_i hmac
    obtain ⟨srcs, hsrcs, h⟩ := Run.bind_eq_ok.mp h
    obtain rfl := Except.ok.inj h
    rw [addDestAsSrc_eq hsrcs, if_pos hmac]
  · rename_i hmac
    rw [if_neg hmac]
    split at h
    · rename_i hred
      obtain ⟨srcs, hsrcs, h⟩ := Run.bind_eq_ok.mp h
      obtain rfl := Except.ok.inj h
      have hprev : ({ shift k o with fieldValue := (shift k o).fieldValue - 1 } : OpInfo) =
          shift (k - 1) o := by
        have hpos := hred.2
        simp only [shift, OpInfo.mk.injEq, and_true]
        omega
      rw [addDestAsSrc_eq hsrcs, hprev, if_pos hred]
    · rename_i hred
      obtain rfl := Except.ok.inj h
      rw [if_neg hred]
      simp

theorem slideSrc_eq (i : Inst) (n k : ℕ) (ht : i.uopGen = .slide1up ∨ i.uopGen = .slide1down) :
    slideSrc i.uopGen n k = slideSources i n k := by
  funext o
  unfold slideSrc slideSources
  rcases ht with ht | ht
  · simp only [ht]
    by_cases hfile : o.regFile = .vector
    · by_cases hk : k = 0
      · simp [hfile, hk]
      · simp [hfile, hk, shift, Nat.add_sub_assoc (Nat.pos_of_ne_zero hk)]
    · simp [hfile]
  · simp only [ht]
    by_cases hfile : o.regFile = .vector
    · simp [hfile, shift, Nat.add_assoc]
    · simp [hfile]

/-- The sources that the destination loop adds are those of the rule. -/
theorem extraSources_eq (i : Inst) (k : ℕ) (hn : i.uopGen ≠ .narrowing) :
    extraSources i k = numberedFrom i.srcs.length (i.dests.flatMap (destExtra i.uopGen k)) := by
  have hnone : i.dests.flatMap (fun _ => ([] : List OpInfo)) = [] := by simp
  unfold extraSources destExtra
  cases ht : i.uopGen with
  | mac | macWide => simp [List.map_eq_flatMap]
  | reduction | reductionWide =>
    by_cases hk : k = 0
    · simp [hk, hnone]
    · simp [hk, List.map_eq_flatMap]
  | narrowing => exact absurd ht hn
  | _ => simp [hnone]

/-- The second half of a wide source follows the first. -/
theorem narrowing_extra {rs2 : OpInfo} (ht : i.uopGen = .narrowing)
    (h : ((i.srcs.map (moveSource .narrowing ((viextOf i).getD 0) k)).filter fun o =>
      o.regFile = .vector ∧ o.fieldId = .rs2).getLast? = some rs2) :
    extraSources i k = [{ shift 1 rs2 with fieldId := .rs3 }] := by
  rw [List.filter_map, List.getLast?_map] at h
  obtain ⟨o, ho, rfl⟩ := Option.map_eq_some_iff.mp h
  have hlast :
      (i.srcs.filter fun o => o.regFile = .vector ∧ o.fieldId = .rs2).getLast? = some o := by
    simpa [Function.comp_def] using ho
  obtain ⟨hfile, hfield⟩ : o.regFile = .vector ∧ o.fieldId = .rs2 := by
    simpa using (List.mem_filter.mp (List.mem_of_getLast? hlast)).2
  unfold extraSources
  simp only [ht, hlast]
  simp [moveSource, hfile, sourceStep, hfield]

/-- The operands of `generateUops_` are those of the rule its source loop follows. -/
theorem generateUops_eq {n : ℕ} {ops : List OpInfo × List OpInfo}
    (hslide : i.uopGen ≠ .slide1up ∧ i.uopGen ≠ .slide1down)
    (h : generateUops i.uopGen (viextOf i) k i = .ok ops) :
    ops = operandsAs (treatedAs i.uopGen) i n k := by
  have hsources : operandsAs (treatedAs i.uopGen) i n k =
      (i.srcs.map (moveSource (treatedAs i.uopGen) ((viextOf i).getD 0) k) ++ extraSources i k,
        if i.uopGen = .singleDest then i.dests else i.dests.map (shift k)) := by
    unfold operandsAs
    split
    · rename_i ht
      exact absurd ht hslide.1
    · rename_i ht
      exact absurd ht hslide.2
    · rfl
  have hrest : ∀ srcs : List OpInfo, (if i.uopGen = .singleDest then .ok (srcs, i.dests)
      else i.dests.foldlM (shiftDest i.uopGen k) (srcs, [])) = .ok ops →
      ops = (srcs ++ numberedFrom srcs.length (i.dests.flatMap (destExtra i.uopGen k)),
        if i.uopGen = .singleDest then i.dests else i.dests.map (shift k)) := by
    intro srcs h
    split at h
    · rename_i hsingle
      have hadds : i.dests.flatMap (destExtra i.uopGen k) = [] := by simp [hsingle, destExtra]
      obtain rfl := Except.ok.inj h
      rw [hadds]
      simp [hsingle]
    · rename_i hsingle
      rw [if_neg hsingle]
      simpa using shiftDests_eq (fun h => shiftDest_eq h) h
  rw [hsources]
  unfold generateUops at h
  obtain ⟨srcs, hsrcs, h⟩ := Run.bind_eq_ok.mp h
  obtain rfl := Run.mapM_ok_eq_map (fun _ _ => shiftSrc_eq) hsrcs
  dsimp only at h
  split at h
  · rename_i hn
    split at h
    · rename_i rs2 hrs2
      have hadds : i.dests.flatMap (destExtra i.uopGen k) = [] := by simp [hn, destExtra]
      rw [hrest _ h, hadds, narrowing_extra hn (by simpa [hn, treatedAs] using hrs2)]
      simp
    · cases h
  · rename_i hn
    rw [hrest _ h, extraSources_eq i k hn]
    simp

/-- The operands of a uop are those of the rule its source loop follows. -/
theorem uopOperands_eq {n : ℕ} {ops : List OpInfo × List OpInfo}
    (h : uopOperands (viextOf i) n k i = .ok ops) :
    ops = operandsAs (treatedAs i.uopGen) i n k := by
  have hslides : i.uopGen = .slide1up ∨ i.uopGen = .slide1down →
      operandsAs (treatedAs i.uopGen) i n k =
        (i.srcs.flatMap (slideSrc i.uopGen n k), i.dests.map (shift k)) := by
    intro ht
    rw [slideSrc_eq i n k ht]
    rcases ht with ht | ht
    · simp [operandsAs, ht]
    · simp [operandsAs, ht]
  unfold uopOperands at h
  split at h
  · rename_i ht
    obtain rfl := Except.ok.inj h
    rw [hslides (.inl ht), ht]
  · rename_i ht
    obtain rfl := Except.ok.inj h
    rw [hslides (.inr ht), ht]
  · cases h
  · cases h
  · cases h
  · rename_i hup hdown _ _ _
    exact generateUops_eq ⟨hup, hdown⟩ h

/-! ## Uops that follow the rule -/

theorem moveSource_inj {t t' : UopGenType} {e : ℕ} {o : OpInfo} :
    moveSource t e k o = moveSource t' e k o ↔
      (o.regFile = .vector → sourceStep t e k o = sourceStep t' e k o) := by
  unfold moveSource
  split
  · rename_i hfile
    rw [shift_inj]
    simp [hfile]
  · rename_i hfile
    simp [hfile]

/-- Where the two types move a source alike. -/
theorem sourceStep_treatedAs_iff {t : UopGenType} {e : ℕ} {o : OpInfo} :
    sourceStep (treatedAs t) e k o = sourceStep t e k o ↔
      k = 0 ∨
        ¬(t = .singleDest ∨ (t = .reductionWide ∧ (o.fieldId = .rs2 ∨ o.fieldId = .rs1))) := by
  have hhalf : k = k / 2 ↔ k = 0 := by omega
  cases t with
  | singleDest => simp [treatedAs, sourceStep, eq_comm]
  | reductionWide =>
    by_cases h2 : o.fieldId = .rs2
    · simpa [treatedAs, sourceStep, h2] using hhalf
    · by_cases h1 : o.fieldId = .rs1
      · simpa [treatedAs, sourceStep, h1, eq_comm] using hhalf
      · simp [treatedAs, sourceStep, h1, h2]
  | _ => simp [treatedAs]

theorem operandsAs_treatedAs_iff (i : Inst) (n k : ℕ) :
    operandsAs (treatedAs i.uopGen) i n k = ruleOperands i n k ↔ k = 0 ∨ ¬Misplaced i := by
  have hsources : (∀ o ∈ i.srcs, moveSource (treatedAs i.uopGen) ((viextOf i).getD 0) k o =
      moveSource i.uopGen ((viextOf i).getD 0) k o) ↔ k = 0 ∨ ¬Misplaced i := by
    simp only [moveSource_inj, sourceStep_treatedAs_iff]
    unfold Misplaced
    constructor
    · intro h
      refine or_iff_not_imp_left.mpr fun hk => ?_
      rintro (⟨ht, o, ho, hfile⟩ | ⟨ht, o, ho, hfile, hfield⟩)
      · exact (h o ho hfile).resolve_left hk (.inl ht)
      · exact (h o ho hfile).resolve_left hk (.inr ⟨ht, hfield⟩)
    · rintro (hk | hnot) o ho hfile
      · exact .inl hk
      · refine .inr ?_
        rintro (ht | ⟨ht, hfield⟩)
        · exact hnot (.inl ⟨ht, o, ho, hfile⟩)
        · exact hnot (.inr ⟨ht, o, ho, hfile, hfield⟩)
  rw [← hsources]
  unfold ruleOperands operandsAs
  split
  · rename_i ht
    simp [ht, treatedAs]
  · rename_i ht
    simp [ht, treatedAs]
  · simp

/-- A uop has the operands of its type's rule unless it is a further uop of an instruction whose
sources the source loop misplaces. -/
theorem uop_operands_follow_rule (h : Makes m i k uop g) :
    ∃ ops, uopOperands (viextOf i) (uopCount i) k i = .ok ops ∧ uop = makeUop m i k ops ∧
      (ops = ruleOperands i (uopCount i) k ↔ k = 0 ∨ ¬Misplaced i) := by
  obtain ⟨-, ⟨ops, hops, huop⟩, -⟩ := h.spec
  refine ⟨ops, hops, huop, ?_⟩
  rw [uopOperands_eq hops]
  exact operandsAs_treatedAs_iff i (uopCount i) k

/-! ## Uops that do not -/

/-- A Mavis that makes an instruction of the operands if they name registers. -/
def operandMavis : Mavis :=
  ⟨fun i srcs dests =>
    if h : (∀ o ∈ srcs, o.fieldValue < 32) ∧ (∀ o ∈ dests, o.fieldValue < 32) ∧
        ((dests.filter fun o => !o.isX0).map OpInfo.reg).Nodup then
      { i with
        srcs := srcs
        dests := dests
        srcs_lt := h.1
        dests_lt := h.2.1
        dests_distinct := h.2.2 }
    else i⟩

/-- A vector register as operand. -/
def vreg (field : OperandFieldID) (n : ℕ) : OpInfo := ⟨n, field, .vector⟩

/-- `vmseq.vv v12, v4, v8` with an `LMUL` of 4. -/
def vmseqVV : Inst :=
  { uniqueId := 1
    srcs := [vreg .rs2 4, vreg .rs1 8]
    dests := [vreg .rd 12]
    pipe := .vint
    isVector := true
    uopGen := .singleDest
    vectorConfig := { lmul := 4, vl := 512 } }

/-- `vwredsum.vs v20, v12, v4` with an `LMUL` of 4. -/
def vwredsumVS : Inst :=
  { uniqueId := 1
    srcs := [vreg .rs2 12, vreg .rs1 4]
    dests := [vreg .rd 20]
    pipe := .vint
    isVector := true
    uopGen := .reductionWide
    vectorConfig := { lmul := 4, vl := 512 } }

/-- `vadd.vv v12, v4, v8` with an `LMUL` of 4. -/
def vaddVV : Inst := { vmseqVV with uopGen := .elementwise }

/-- The second uop of the first two examples that the constructor documents is not as documented:
of `vmseq.vv v12, v5, v9` the sources are `v4` and `v8`, and of `vredsum.vs v21, v12, v5, v20` they
are `v13`, `v4` and `v20`. -/
theorem second_uop_misplaced :
    (∃ uop g, Makes operandMavis vmseqVV 1 uop g ∧
      uop.srcs = [vreg .rs2 4, vreg .rs1 8] ∧ uop.dests = [vreg .rd 12] ∧
      ruleOperands vmseqVV (uopCount vmseqVV) 1 = ([vreg .rs2 5, vreg .rs1 9], [vreg .rd 12])) ∧
    ∃ uop g, Makes operandMavis vwredsumVS 1 uop g ∧
      uop.srcs = [vreg .rs2 13, vreg .rs1 4, vreg .rs3 20] ∧ uop.dests = [vreg .rd 21] ∧
      ruleOperands vwredsumVS (uopCount vwredsumVS) 1 =
        ([vreg .rs2 12, vreg .rs1 5, vreg .rs3 20], [vreg .rd 21]) := by
  constructor
  · exact ⟨_, _, .next (.first rfl rfl) (by decide) rfl, by decide, by decide, by decide⟩
  · exact ⟨_, _, .next (.first rfl rfl) (by decide) rfl, by decide, by decide, by decide⟩

/-- Uop 3 of `vadd.vv v12, v4, v8` is `vadd.vv v15, v7, v11`. -/
theorem uop_operands_follow_rule_vadd : ∃ uop g, Makes operandMavis vaddVV 3 uop g ∧
    ∃ ops, uopOperands none 4 3 vaddVV = .ok ops ∧ uop = makeUop operandMavis vaddVV 3 ops ∧
      ops = ([vreg .rs2 7, vreg .rs1 11], [vreg .rd 15]) := by
  have h : Makes operandMavis vaddVV 3 _ _ :=
    .next (.next (.next (.first rfl rfl) (by decide) rfl) (by decide) rfl) (by decide) rfl
  obtain ⟨ops, hops, huop, hrule⟩ := uop_operands_follow_rule h
  exact ⟨_, _, h, ops, hops, huop, hrule.mpr (.inr (by simp [Misplaced, vaddVV]))⟩

end VectorUopGenerator

end Olympia
