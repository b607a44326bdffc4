import Olympia.FlushManager

/-!
# Rename

`core/rename/Rename.cpp`.  The state of the unit is split in two.  `RenameTables` is what
renaming, retiring and flushing act on: `map_table_`, `inst_queue_` and the reference
counters, free lists and scoreboards of `regfile_components_`.  `RenameState` adds the queue
towards Decode, the credits and the stall reason.

A loop of the source over a list is a fold; `renameInstructions_`'s `do ... while` is
`renameLoop`, whose first argument is `num_to_rename`, and the walk of `handleFlush_` from the
back of `inst_queue_` is `flushWalk`, whose first argument is the part of the queue the
reverse iterator has not passed yet.

Not modelled: events only decide when a handler runs, and a run of the model may run any
handler at any time; statistics, logging and `dumpRenameContent_`; `Producer::producer`, which only
the dump reads.  `sanityCheck_`, which is never scheduled, is in `Rename.SanityCheck`.
`Producer::cnt` is a natural number: it is at most 32 plus the number of instructions in flight.
`map_table_[RF_INTEGER][0]` is never written by the constructor, so its initial value is a
parameter.
-/

namespace Olympia

/-! ## State -/

/-- `RenameParameterSet`. -/
structure RenameParams where
  numToRename : ℕ := 4
  renameQueueDepth : ℕ := 10
  numRenames : RegFile → ℕ := fun _ => 128
  partialRename : Bool := true
  moveElimination : Bool := false
  renameQueueDepth_lt : renameQueueDepth < 2 ^ 32 := by first | exact u32_lt (nat_lit 10) | decide
  numRenames_lt : ∀ f, numRenames f < 2 ^ 32 := by intro f; cases f <;> decide

/-- `Rename::Producer`. -/
structure Producer where
  cnt : ℕ
  producerId : ℕ := 0
  producerIsLoad : Bool := false

/-- `Rename::RegfileComponents`. -/
structure RegfileComponents where
  scoreboard : Scoreboard
  referenceCounter : ℕ → Producer
  freelist : List ℕ

structure RenameTables where
  mapTable : ArchReg → ℕ
  instQueue : List RenamedInst
  regfileComponents : RegFile → RegfileComponents

namespace RenameTables

/-- The scoreboards, which the other units see through their views. -/
def scoreboards (t : RenameTables) : Scoreboards := fun f => (t.regfileComponents f).scoreboard

/-- A unit has set bits of the scoreboards. -/
def setScoreboards (t : RenameTables) (sb : Scoreboards) : RenameTables :=
  { t with
    regfileComponents := fun f => { t.regfileComponents f with scoreboard := sb f } }

end RenameTables

/-- `Rename::StallReason`. -/
inductive RenameStall where
  | noDecodeInsts
  | noDispatchCredits
  | noIntegerRenames
  | noFloatRenames
  | noVectorRenames
  | notStalled
  deriving DecidableEq, Repr

structure RenameState extends RenameTables where
  creditsDispatch : ℕ
  uopQueue : List Inst
  /-- `uop_queue_regcount_data_.cumulative_reg_counts` -/
  regCounts : RegFile → ℕ
  currentStall : RenameStall

/-! ## Construction -/

/-- `staring_arf`, which is also the first physical register that is given out. -/
def firstReg : RegFile → ℕ
  | .integer => 1
  | .float => 0
  | .vector => 0

/-- `setup_map`: the registers of a file are numbered through from `regs_reserved`. -/
def setupMap (x0 : ℕ) : ArchReg → ℕ
  | (.integer, 0) => x0
  | (_, a) => a

/-- `setup_freelists`, with the scoreboard bits that `setupRename_` sets. -/
def setupRegfile (p : RenameParams) (f : RegFile) : RegfileComponents where
  scoreboard := fun r => decide (firstReg f ≤ r ∧ r < numRiscvRegs)
  referenceCounter := fun r =>
    ⟨if firstReg f ≤ r ∧ r < numRiscvRegs then 1 else 0, 0, false⟩
  freelist := List.range' numRiscvRegs (p.numRenames f - numRiscvRegs)

/-- The size of `reference_counter`: one counter for each physical register. -/
def numPrfs (p : RenameParams) (f : RegFile) : ℕ := max numRiscvRegs (p.numRenames f)

/-- The constructed unit.  `x0` is what happens to be in `map_table_[RF_INTEGER][0]`. -/
def RenameState.init (p : RenameParams) (x0 : ℕ) : RenameState where
  mapTable := setupMap x0
  instQueue := []
  regfileComponents := setupRegfile p
  creditsDispatch := 0
  uopQueue := []
  regCounts := fun _ => 0
  currentStall := .noDecodeInsts

/-! ## Renaming one instruction -/

/-- The body of the loop of `renameSources_`. -/
def renameSource (t : RenameTables) (ri : RenamedInst) (src : OpInfo) : RenamedInst :=
  let isRs2 := src.fieldId = .rs2
  let isRs3 := src.fieldId = .rs3
  if src.isX0 then
    if isRs2 then ri.setDataRegister { physReg := src.fieldValue, opInfo := src } else ri
  else
    let prf := t.mapTable src.reg
    let producer := (t.regfileComponents src.regFile).referenceCounter prf
    let ri := { ri with
      hasLoadProducer := ri.hasLoadProducer ||
        (ri.inst.isLoadStoreInst && producer.producerIsLoad) }
    if (isRs2 ∨ isRs3) ∧ ri.inst.isLoadStoreInst then
      ri.setDataRegister { physReg := prf, opInfo := src }
    else
      ri.addSrcRegister { physReg := prf, opInfo := src }

def renameSources (t : RenameTables) (ri : RenamedInst) : RenamedInst :=
  ri.inst.srcs.foldl (renameSource t) ri

/-- The source a move is eliminated to: `src_list[0]`, when there is one in the register file
of the destination. -/
def moveSource (p : RenameParams) (ri : RenamedInst) (f : RegFile) : Option Reg :=
  if p.moveElimination && ri.inst.isMove then (ri.getSourceList f).head? else none

/-- The reference counter of a destination: one more reference, and the new producer. -/
def RegfileComponents.reference (c : RegfileComponents) (prf : ℕ) (i : Inst) :
    RegfileComponents :=
  { c with
    referenceCounter := Function.update c.referenceCounter prf
      { cnt := (c.referenceCounter prf).cnt + 1
        producerId := i.uniqueId
        producerIsLoad := i.isLoad } }

/-- The body of the loop of `renameDests_`. -/
def renameDest (p : RenameParams) (st : RenameTables × RenamedInst) (dest : OpInfo) :
    Except Assertion (RenameTables × RenamedInst) :=
  let (t, ri) := st
  if dest.isX0 then .ok (t, ri)
  else
    let f := dest.regFile
    let rcomp := t.regfileComponents f
    match rcomp.freelist with
    | [] => .error .freelistEmpty
    | front :: rest =>
      let prevDest := t.mapTable dest.reg
      match moveSource p ri f with
      | some src =>
        -- eliminated: the source's register is shared and the scoreboard is left alone
        let prf := src.physReg
        if prf = noPrevDest then .error .prfNotAssigned
        else
          .ok ({ t with
                 mapTable := Function.update t.mapTable dest.reg prf
                 regfileComponents :=
                   Function.update t.regfileComponents f (rcomp.reference prf ri.inst) },
               { ri with targetROB := true }.addDestRegister ⟨prf, dest, prevDest⟩)
      | none =>
        let prf := front
        if prf = noPrevDest then .error .prfNotAssigned
        else
          let ri := (ri.setDestRegisterBit ⟨prf, dest, prevDest⟩).addDestRegister
            ⟨prf, dest, prevDest⟩
          let rcomp := { rcomp with freelist := rest }.reference prf ri.inst
          let rcomp := { rcomp with scoreboard := rcomp.scoreboard.clearBits (ri.destMask f) }
          .ok ({ t with
                 mapTable := Function.update t.mapTable dest.reg prf
                 regfileComponents := Function.update t.regfileComponents f rcomp },
               ri)

def renameDests (p : RenameParams) (t : RenameTables) (ri : RenamedInst) :
    Except Assertion (RenameTables × RenamedInst) :=
  ri.inst.dests.foldlM (renameDest p) (t, ri)

/-- What the loop of `renameInstructions_` does to the tables for one instruction. -/
def renameInst (p : RenameParams) (t : RenameTables) (i : Inst) :
    Except Assertion (RenameTables × RenamedInst) := do
  let (t, ri) ← renameDests p t (renameSources t { inst := i })
  return ({ t with instQueue := t.instQueue ++ [ri] }, ri)

/-! ## Giving references back -/

/-- One reference to a physical register less; the last one puts it on the free list. -/
def RegfileComponents.reclaim (c : RegfileComponents) (prf : ℕ) :
    Except Assertion RegfileComponents :=
  let ref := c.referenceCounter prf
  if ref.cnt = 0 then .error .reclaimZeroRef
  else
    .ok { c with
          referenceCounter := Function.update c.referenceCounter prf { ref with cnt := ref.cnt - 1 }
          freelist := if ref.cnt - 1 = 0 then c.freelist ++ [prf] else c.freelist }

/-- `reclaim_rename` of `getAckFromROB_`: the previous mapping of the destination loses the
reference of the instruction. -/
def reclaimRename (t : RenameTables) (dest : Reg) : Except Assertion RenameTables :=
  if dest.opInfo.isX0 then .ok t
  else do
    spartaAssert (dest.prevDest ≠ noPrevDest) .ackNoPrevDest
    let rcomp ← (t.regfileComponents dest.opInfo.regFile).reclaim dest.prevDest
    return { t with
      regfileComponents := Function.update t.regfileComponents dest.opInfo.regFile rcomp }

/-- The body of the loop of `getAckFromROB_`. -/
def retireInst (status : RenamedInst → InstStatus) (t : RenameTables) (ri : RenamedInst) :
    Except Assertion RenameTables := do
  spartaAssert (status ri = .retired) .ackNotRetired
  let t ← ri.destsByFile.foldlM reclaimRename t
  match t.instQueue with
  | [] => .error .renameOutOfSync
  | oldest :: rest => do
    spartaAssert (oldest.uniqueId = ri.uniqueId) .renameOutOfSync
    return { t with instQueue := rest }

/-- The body of the innermost loop of `handleFlush_`: the mapping is restored and the renamed
register loses its reference. -/
def restoreDest (t : RenameTables) (dest : Reg) : Except Assertion RenameTables :=
  if dest.opInfo.isX0 then .ok t
  else do
    let rcomp ← (t.regfileComponents dest.opInfo.regFile).reclaim dest.physReg
    return { t with
      mapTable := Function.update t.mapTable dest.opInfo.reg dest.prevDest
      regfileComponents := Function.update t.regfileComponents dest.opInfo.regFile rcomp }

/-- The walk of `handleFlush_` through `inst_queue_`, from its back. -/
def flushWalk (c : FlushingCriteria) : List RenamedInst → RenameTables →
    Except Assertion RenameTables
  | [], t => .ok t
  | ri :: older, t =>
    if c.includedInFlush ri.inst then do
      let t ← ri.destsByFile.foldlM restoreDest t
      flushWalk c older { t with instQueue := older.reverse }
    else .ok t

/-- The effect of `handleFlush_` on the tables. -/
def flushTables (c : FlushingCriteria) (t : RenameTables) : Except Assertion RenameTables :=
  flushWalk c t.instQueue.reverse t

/-! ## The handlers of the unit -/

/-- The number of destinations of an instruction in a register file that need a rename. -/
def countDests (i : Inst) (f : RegFile) : ℕ :=
  i.dests.countP fun d => !d.isX0 && d.regFile == f

/-- `updateRegcountData_`: with partial rename only the first instruction counts. -/
def updateRegcountData (p : RenameParams) (s : RenameState) : RenameState :=
  let counted := if p.partialRename then s.uopQueue.take 1 else s.uopQueue
  { s with regCounts := fun f => (counted.map fun i => countDests i f).sum }

/-- `stall_reason_map`. -/
def stallReasonMap : RegFile → RenameStall
  | .integer => .noIntegerRenames
  | .float => .noFloatRenames
  | .vector => .noVectorRenames

/-- `enoughRenames_`. -/
def enoughRenames (s : RenameState) : Bool × RenameStall :=
  match RegFile.all.find? fun f => (s.regfileComponents f).freelist.length < s.regCounts f with
  | some f => (false, stallReasonMap f)
  | none => (true, .notStalled)

/-- `decodedInstructions_`.  `push_back` on a full `sparta::Buffer` asserts. -/
def decodedInstructions (p : RenameParams) (s : RenameState) (insts : List Inst) :
    Except Assertion RenameState := do
  spartaAssert (s.uopQueue.length + insts.length ≤ p.renameQueueDepth) .bufferFull
  return updateRegcountData p { s with uopQueue := s.uopQueue ++ insts }

/-- `creditsDispatchQueue_`. -/
def creditsDispatchQueue (s : RenameState) (credits : ℕ) : RenameState :=
  { s with
    creditsDispatch := u32Add s.creditsDispatch credits
    currentStall := if s.uopQueue.length > 0 then s.currentStall else .noDecodeInsts }

/-- `scheduleRenaming_`: the new state and whether it schedules `renameInstructions_`. -/
def scheduleRenaming (p : RenameParams) (s : RenameState) : RenameState × Bool :=
  if s.uopQueue.length = 0 then ({ s with currentStall := .noDecodeInsts }, false)
  else
    let haveDispatchCredits :=
      if p.partialRename then decide (0 < s.creditsDispatch)
      else decide (s.uopQueue.length ≤ s.creditsDispatch)
    if haveDispatchCredits then
      let (enough, stall) := enoughRenames s
      ({ s with currentStall := if enough then .notStalled else stall }, enough)
    else
      ({ s with currentStall := .noDispatchCredits }, false)

/-- The `do ... while` of `renameInstructions_`: the state, the instructions renamed and what
is left of `num_to_rename`. -/
def renameLoop (p : RenameParams) : ℕ → RenameState → List RenamedInst →
    Except Assertion (RenameState × List RenamedInst × ℕ)
  | 0, s, insts => .ok (s, insts, 0)
  | n + 1, s, insts =>
    match s.uopQueue with
    | [] => .error .bufferEmpty
    | i :: rest =>
      if p.partialRename ∧ (enoughRenames s).1 = false then
        .ok ({ s with currentStall := (enoughRenames s).2 }, insts, n + 1)
      else do
        let (t, ri) ← renameInst p s.toRenameTables i
        let s := { s with toRenameTables := t, uopQueue := rest }
        let s := if p.partialRename ∧ rest ≠ [] then updateRegcountData p s else s
        renameLoop p n s (insts ++ [ri])

/-- What a handler of Rename sends: the group to Dispatch and credits to Decode. -/
structure RenameOut where
  dispatchGroup : List RenamedInst := []
  uopCredits : ℕ := 0

/-- `renameInstructions_`. -/
def renameInstructions (p : RenameParams) (s : RenameState) :
    Except Assertion (RenameState × RenameOut) := do
  let numToRename := min s.creditsDispatch (min s.uopQueue.length p.numToRename)
  spartaAssert (0 < numToRename) .nothingToRename
  let (s, insts, left) ← renameLoop p numToRename s []
  if p.partialRename = false then
    spartaAssert (left = 0) .notPartial
    spartaAssert (s.uopQueue = []) .uopQueueNotEmpty
  let s := { s with creditsDispatch := u32Sub s.creditsDispatch insts.length }
  let stall :=
    if s.creditsDispatch > 0 ∧ s.uopQueue.length > 0 then s.currentStall
    else if s.creditsDispatch = 0 then .noDispatchCredits
    else .noDecodeInsts
  return ({ s with currentStall := stall }, ⟨insts, insts.length⟩)

/-- `getAckFromROB_`. -/
def getAckFromROB (status : RenamedInst → InstStatus) (s : RenameState)
    (grp : List RenamedInst) : Except Assertion RenameState := do
  let t ← grp.foldlM (retireInst status) s.toRenameTables
  return { s with toRenameTables := t }

/-- `handleFlush_`: the new state and the credits returned to Decode. -/
def handleFlush (s : RenameState) (c : FlushingCriteria) :
    Except Assertion (RenameState × ℕ) := do
  let t ← flushTables c s.toRenameTables
  return ({ s with toRenameTables := t, currentStall := .noDecodeInsts, uopQueue := [] },
    s.uopQueue.length)

/-! ## Runs of the unit alone -/

/-- What can happen to Rename.  An acknowledgement is for the oldest `n` entries of
`inst_queue_`, in order and with status `RETIRED`. -/
inductive RenameOp where
  | decoded (insts : List Inst)
  | dispatchCredits (credits : ℕ)
  | rename
  | ack (n : ℕ)
  | flush (c : FlushingCriteria)

/-- One step of the unit; `rename` is `scheduleRenaming_`, followed by `renameInstructions_`
when it was scheduled. -/
def RenameState.step (p : RenameParams) (s : RenameState) : RenameOp →
    Except Assertion RenameState
  | .decoded insts => decodedInstructions p s insts
  | .dispatchCredits credits => .ok (creditsDispatchQueue s credits)
  | .rename =>
    let (s, scheduled) := scheduleRenaming p s
    if scheduled then do
      let (s, _) ← renameInstructions p s
      return s
    else .ok s
  | .ack n => getAckFromROB (fun _ => .retired) s (s.instQueue.take n)
  | .flush c => do
    let (s, _) ← handleFlush s c
    return s

end Olympia
