import Olympia.Lib.Run
import Olympia.FlushManager

/-!
# The vector uop generator

`core/vector/VectorUopGenerator.cpp`: a vector instruction is handed over with `setInst` and
taken out again uop by uop with `generateUop`, each uop with the operands its generator type
prescribes.

The uop itself is made by Mavis from the mnemonic and the immediate of the instruction and the
new operand lists; `Mavis.makeInstDirectly` stands for that call, and its first argument is the
instruction the mnemonic and the immediate are taken from.  The back pointer from a uop to its
instruction is left out.

`getNumUopsRemaining` returns the number of uops of the whole instruction, not of those still
to come.  It is used as a flag only: it is zero when the last uop has been generated.
-/

namespace Olympia

/-- The part of the Mavis facade the generator uses. -/
structure Mavis where
  makeInstDirectly : Inst → List OpInfo → List OpInfo → Inst

/-- `InstArchInfo::N_VECTOR_UOPS`. -/
def nVectorUops : ℕ := 8

theorem VecUopGen.idle_init : (none : Option Inst) = none → 0 = 0 ∧ 0 = 0 := by simp

/-- The state of a `VectorUopGenerator`.  Of the modifiers there is only `viext`. -/
structure VecUopGen where
  currentInst : Option Inst := none
  viext : Option ℕ := none
  numUopsToGenerate : ℕ := 0
  numUopsGenerated : ℕ := 0
  /-- without an instruction the generator is as `reset_` leaves it -/
  idle_eq : currentInst = none → numUopsToGenerate = 0 ∧ numUopsGenerated = 0 := by
    first | exact VecUopGen.idle_init | simp

namespace VectorUopGenerator

/-- `reset_`. -/
def reset : VecUopGen := {}

/-- The types whose uops write a register group twice as large as the sources. -/
def isWide (t : UopGenType) : Bool :=
  t == .widening || t == .wideningMixed || t == .macWide || t == .reductionWide

/-- The modifier that `setInst` adds for an integer extension. -/
def viextOf (i : Inst) : Option ℕ :=
  if i.uopGen = .intExt then
    match i.mavisUid with
    | .vzextvf2 | .vsextvf2 => some 2
    | .vzextvf4 | .vsextvf4 => some 4
    | .vzextvf8 | .vsextvf8 => some 8
    | _ => none
  else none

/-- The number of uops `setInst` computes.  The quotient by the elements of a uop is rounded up
in floating point, which is exact for an `SEW` that divides `VLEN` and a `VL` up to `VLMAX`. -/
def numUops (i : Inst) : ℕ :=
  let numElemsPerUop := VectorConfig.vlen / i.vectorConfig.sew
  let n := (i.vectorConfig.vl + numElemsPerUop - 1) / numElemsPerUop
  if isWide i.uopGen then n * 2
  else if i.isVectorWholeRegister then
    match i.mavisUid with
    | .vmv1r => 1
    | .vmv2r => 2
    | .vmv4r => 4
    | .vmv8r => 8
    | _ => i.nf
  else n

/-- `setInst`. -/
def setInst (g : VecUopGen) (i : Inst) : Except Assertion VecUopGen := do
  spartaAssert g.currentInst.isNone .uopGenBusy
  spartaAssert (i.uopGen ≠ .unknown) .uopGenTypeUnknown
  spartaAssert (i.uopGen ≠ .none) .uopGenTypeNone
  spartaAssert (!isWide i.uopGen || i.vectorConfig.lmul ≤ 4) .lmulTooLarge
  spartaAssert (numUops i ≤ nVectorUops) .tooManyVectorUops
  return {
    currentInst := some i
    viext := g.viext.or (viextOf i)
    numUopsToGenerate := numUops i
    numUopsGenerated := g.numUopsGenerated }

/-! ## The operands of a uop -/

/-- The operand `n` registers further on. -/
def shift (n : ℕ) (o : OpInfo) : OpInfo := { o with fieldValue := o.fieldValue + n }

/-- The source loop of `generateUops_` on one source of uop `k`. -/
def shiftSrc (t : UopGenType) (viext : Option ℕ) (k : ℕ) (o : OpInfo) : Except Assertion OpInfo :=
  if o.regFile ≠ .vector ∨ t = .singleSrc then .ok o
  else match t with
    | .elementwise | .mac | .reduction => .ok (shift k o)
    | .widening | .macWide => .ok (shift (k / 2) o)
    | .wideningMixed | .reductionWide =>
      .ok (if o.fieldId = .rs2 then shift k o
        else if o.fieldId = .rs1 then shift (k / 2) o else o)
    | .narrowing =>
      .ok (if o.fieldId = .rs2 then shift (k * 2) o
        else if o.fieldId = .rs1 then shift k o else o)
    | .intExt =>
      match viext with
      | some ext => .ok (shift (k / ext) o)
      | none => .error .noModifier
    | _ => .ok o

/-- `RS1`, `RS2`, ... by number. -/
def rsField : ℕ → OperandFieldID
  | 0 => .rs1
  | 1 => .rs2
  | 2 => .rs3
  | _ => .rs4

/-- `add_dest_as_src`. -/
def addDestAsSrc (srcs : List OpInfo) (dest : OpInfo) : Except Assertion (List OpInfo) := do
  spartaAssert (srcs.length ≤ 3) .tooManySources
  return srcs ++ [{ dest with fieldId := rsField srcs.length }]

/-- The destination loop of `generateUops_` on one destination of uop `k`, which may add a
source. -/
def shiftDest (t : UopGenType) (k : ℕ) (ops : List OpInfo × List OpInfo) (o : OpInfo) :
    Except Assertion (List OpInfo × List OpInfo) := do
  let dest := shift k o
  let srcs ←
    if t = .mac ∨ t = .macWide then addDestAsSrc ops.1 dest
    else if (t = .reduction ∨ t = .reductionWide) ∧ k ≠ 0 then
      addDestAsSrc ops.1 { dest with fieldValue := dest.fieldValue - 1 }
    else .ok ops.1
  return (srcs, ops.2 ++ [dest])

/-- `generateUops_`: the sources and the destinations of uop `k`. -/
def generateUops (t : UopGenType) (viext : Option ℕ) (k : ℕ) (i : Inst) :
    Except Assertion (List OpInfo × List OpInfo) := do
  let srcs ← i.srcs.mapM (shiftSrc t viext k)
  let srcs ←
    if t = .narrowing then
      match (srcs.filter fun o => o.regFile = .vector ∧ o.fieldId = .rs2).getLast? with
      | some rs2 => .ok (srcs ++ [{ shift 1 rs2 with fieldId := .rs3 }])
      | none => .error .narrowingNoRs3
    else .ok srcs
  if t = .singleDest then return (srcs, i.dests)
  else i.dests.foldlM (shiftDest t k) (srcs, [])

/-- `generateSlideUops_` on one source of uop `k` of `n`: the scalar goes to the uop at one end,
the others also read the neighbouring register. -/
def slideSrc (t : UopGenType) (n k : ℕ) (o : OpInfo) : List OpInfo :=
  let atEnd : Bool := if t = .slide1up then k = 0 else k + 1 = n
  if o.regFile ≠ .vector then
    if atEnd then [o] else []
  else
    let neighbour := if t = .slide1up then o.fieldValue + k - 1 else o.fieldValue + k + 1
    shift k o :: if atEnd then [] else [{ o with fieldId := .rs3, fieldValue := neighbour }]

/-- The operands of uop `k` of `n`. -/
def uopOperands (viext : Option ℕ) (n k : ℕ) (i : Inst) :
    Except Assertion (List OpInfo × List OpInfo) :=
  match i.uopGen with
  | .slide1up | .slide1down => .ok (i.srcs.flatMap (slideSrc i.uopGen n k), i.dests.map (shift k))
  | .permute => .error .permuteNotSupported
  | .none => .error .uopGenTypeNone
  | .unknown => .error .uopGenTypeUnknown
  | t => generateUops t viext k i

/-! ## Generating uops -/

/-- Uop `k` of an instruction: what Mavis makes of the operands, with the identity and the
vector configuration of the instruction. -/
def makeUop (m : Mavis) (i : Inst) (k : ℕ) (ops : List OpInfo × List OpInfo) : Inst :=
  let c := i.vectorConfig
  { m.makeInstDirectly i ops.1 ops.2 with
    uniqueId := i.uniqueId
    programId := i.programId
    vectorConfig := c
    uopId := k
    hasTail := c.vlmax / c.sew * (k + 1) > c.vl }

/-- `generateUop`. -/
def generateUop (m : Mavis) (g : VecUopGen) : Except Assertion (Inst × VecUopGen) :=
  match hi : g.currentInst with
  | none => .error .uopGenNoInst
  | some i => do
    let ops ← uopOperands g.viext g.numUopsToGenerate g.numUopsGenerated i
    let generated := g.numUopsGenerated + 1
    return (makeUop m i g.numUopsGenerated ops,
      if generated = g.numUopsToGenerate then reset
      else { g with numUopsGenerated := generated, idle_eq := by simp [hi] })

/-- `handleFlush`. -/
def handleFlush (g : VecUopGen) (c : FlushingCriteria) : VecUopGen :=
  if g.currentInst.any c.includedInFlush then reset else g

/-! ## What the calls do -/

theorem setInst_spec {g g' : VecUopGen} {i : Inst} (h : setInst g i = .ok g') :
    g.currentInst = none ∧ g'.currentInst = some i ∧ g'.numUopsToGenerate = numUops i ∧
      g'.numUopsGenerated = 0 := by
  obtain ⟨u, hidle, h⟩ := Run.bind_eq_ok.mp h
  obtain ⟨-, -, h⟩ := Run.bind_eq_ok.mp h
  obtain ⟨-, -, h⟩ := Run.bind_eq_ok.mp h
  obtain ⟨-, -, h⟩ := Run.bind_eq_ok.mp h
  obtain ⟨-, -, h⟩ := Run.bind_eq_ok.mp h
  obtain rfl := Except.ok.inj h
  have hnone : g.currentInst = none := by simpa using hidle
  exact ⟨hnone, rfl, rfl, (g.idle_eq hnone).2⟩

/-- A uop has the identity of its instruction and its own number, and the generator is idle
again exactly after the last one. -/
theorem generateUop_spec {m : Mavis} {g g' : VecUopGen} {uop : Inst}
    (h : generateUop m g = .ok (uop, g')) :
    ∃ i, g.currentInst = some i ∧ uop.uniqueId = i.uniqueId ∧
      uop.uopId = g.numUopsGenerated ∧
      (g.numUopsGenerated + 1 = g.numUopsToGenerate → g' = reset) ∧
      (g.numUopsGenerated + 1 ≠ g.numUopsToGenerate →
        g'.numUopsToGenerate = g.numUopsToGenerate) := by
  unfold generateUop at h
  split at h
  · cases h
  · rename_i i hi
    obtain ⟨ops, -, h⟩ := Run.bind_eq_ok.mp h
    cases Except.ok.inj h
    refine ⟨i, hi, rfl, rfl, fun hlast => if_pos hlast, fun hmore => ?_⟩
    rw [if_neg hmore]

end VectorUopGenerator

end Olympia
