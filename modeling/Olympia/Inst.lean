import Mathlib.Algebra.GroupWithZero.Nat
import Mathlib.Data.Finset.Filter
import Mathlib.Data.Finset.Range
import Mathlib.Data.List.Nodup

/-!
# Instructions, register files and register masks

The data that flows between the units of the core: `core_types::RegFile`
(`core/CoreTypes.hpp`), the operand lists and `RenameData` (`core/rename/RenameData.hpp`),
the static part of `Inst` (`core/Inst.hpp`, `core/InstArchInfo.hpp`) and the part of an
`Inst` that Rename writes.

An instruction object is shared by pointer between many queues and is written by several
units.  The model splits it by who writes what:

* `Inst` is what the decoder fixes: operands, target pipe, instruction types, identifiers.
  It carries the promises of the decoder as fields, so an instruction with an architectural
  register number outside the register file, or with one destination register listed twice,
  cannot be built.
* `RenamedInst` adds what `renameSources_` and `renameDests_` record.  Nothing writes those
  fields after renaming, except the `clear` of a flush, which removes the instruction from
  every queue in the same phase.
* The status is written by every unit; systems of several units keep it in a table from
  `InstKey` to `InstStatus`.

All uops of one vector instruction have its unique identifier, so an instruction object is
identified by the pair of its unique identifier and its uop identifier.
-/

namespace Olympia

/-! ## Unsigned 32-bit counters -/

/-- `a += b` on a `uint32_t`. -/
def u32Add (a b : ℕ) : ℕ := (a + b) % 2 ^ 32

/-- `a -= b` on a `uint32_t`: it wraps when `b` is larger. -/
def u32Sub (a b : ℕ) : ℕ := (a + (2 ^ 32 - b % 2 ^ 32)) % 2 ^ 32

theorem u32Add_of_lt {a b : ℕ} (h : a + b < 2 ^ 32) : u32Add a b = a + b :=
  Nat.mod_eq_of_lt h

/-- The sizes of queues that have a default, or that the samples use, fit into 32 bits.  The number
is given as a literal. -/
theorem u32_lt (n : ℕ) : n % 2 ^ 32 < 2 ^ 32 := Nat.mod_lt n (by decide)

theorem u32Add_lt (a b : ℕ) : u32Add a b < 2 ^ 32 := Nat.mod_lt _ (by decide)

theorem u32Sub_of_le {a b : ℕ} (hb : b ≤ a) (ha : a < 2 ^ 32) : u32Sub a b = a - b := by
  unfold u32Sub
  omega

/-! ## Register files and operands -/

/-- `core_types::RegFile`.  `RF_INVALID` is left out: `determineRegisterFile` asserts on any
operand that would get it. -/
inductive RegFile where
  | integer
  | float
  | vector
  deriving DecidableEq, Repr

/-- The order of the loops `for reg_file = 0; reg_file < N_REGFILES`. -/
def RegFile.all : List RegFile := [.integer, .float, .vector]

theorem RegFile.mem_all (f : RegFile) : f ∈ RegFile.all := by
  cases f <;> simp [RegFile.all]

/-- `mavis::InstMetaData::OperandFieldID`, as far as the core looks at it. -/
inductive OperandFieldID where
  | rs1
  | rs2
  | rs3
  | rs4
  | rd
  | none
  deriving DecidableEq, Repr

/-- `NUM_RISCV_REGS_`. -/
def numRiscvRegs : ℕ := 32

/-- An architectural register: its register file and its number. -/
abbrev ArchReg := RegFile × ℕ

/-- `RenameData::OpInfoWithRegfile`. -/
structure OpInfo where
  fieldValue : ℕ
  fieldId : OperandFieldID
  regFile : RegFile
  deriving DecidableEq, Repr

namespace OpInfo

/-- The architectural register an operand names. -/
def reg (o : OpInfo) : ArchReg := (o.regFile, o.fieldValue)

/-- `is_x0`: register 0 of the integer file. -/
def isX0 (o : OpInfo) : Bool := o.fieldValue == 0 && o.regFile == .integer

end OpInfo

/-- The architectural registers of a file that have a mapping: all 32, but not `x0`. -/
def archRegs (f : RegFile) : Finset ℕ :=
  (Finset.range numRiscvRegs).filter fun a => ¬(f = .integer ∧ a = 0)

theorem mem_archRegs {f : RegFile} {a : ℕ} :
    a ∈ archRegs f ↔ a < 32 ∧ ¬(f = .integer ∧ a = 0) := by
  simp [archRegs, numRiscvRegs]

theorem OpInfo.fieldValue_mem_archRegs {o : OpInfo} (hlt : o.fieldValue < 32)
    (hx0 : o.isX0 = false) : o.fieldValue ∈ archRegs o.regFile := by
  refine mem_archRegs.mpr ⟨hlt, ?_⟩
  rintro ⟨hf, ha⟩
  simp [OpInfo.isX0, hf, ha] at hx0

/-- `InstArchInfo::TargetPipe`. -/
inductive TargetPipe where
  | br | cmov | div | faddsub | float | fmac | i2f | f2i | int | lsu | mul
  | vint | vdiv | vmul | vfixed | vmask | vmv | v2s | vfloat | vfdiv | vfmul | vpermute
  | vload | vstore | vset | rob | sys | unknown
  deriving DecidableEq, Repr

/-- `InstArchInfo::UopGenType`. -/
inductive UopGenType where
  | elementwise | singleDest | singleSrc | widening | wideningMixed | narrowing | mac | macWide
  | reduction | reductionWide | intExt | slide1up | slide1down | permute | none | unknown
  deriving DecidableEq, Repr

/-- `MavisUIDs`, the instructions the core tells apart by their Mavis identifier. -/
inductive MavisUid where
  | nop
  | vsetivli | vsetvli | vsetvl
  | vmv1r | vmv2r | vmv4r | vmv8r
  | vzextvf2 | vsextvf2 | vzextvf4 | vsextvf4 | vzextvf8 | vsextvf8
  | other (uid : ℕ)
  deriving DecidableEq, Repr

/-- `VectorConfig`, with `vlmax_` given by `vlmax_formula_`. -/
structure VectorConfig where
  sew : ℕ := 8
  lmul : ℕ := 1
  vl : ℕ := 16
  vta : Bool := false
  deriving DecidableEq, Repr

/-- `VectorConfig::VLEN`. -/
def VectorConfig.vlen : ℕ := 1024

/-- `vlmax_formula_`. -/
def VectorConfig.vlmax (c : VectorConfig) : ℕ := VectorConfig.vlen / c.sew * c.lmul

/-! ## Instructions -/

/-- An instruction without operands keeps the promises of the decoder. -/
theorem OpInfo.nil_lt : ∀ o ∈ ([] : List OpInfo), o.fieldValue < 32 := by decide

theorem OpInfo.nil_distinct :
    ((([] : List OpInfo).filter fun o => !o.isX0).map OpInfo.reg).Nodup := by decide

/-- So does one with a single integer operand, whose number is given as a literal. -/
theorem OpInfo.single_lt (n : ℕ) (f : OperandFieldID) :
    ∀ o ∈ [(⟨n % 32, f, .integer⟩ : OpInfo)], o.fieldValue < 32 := by
  intro o ho
  obtain rfl := List.mem_singleton.mp ho
  exact Nat.mod_lt n (by decide)

theorem OpInfo.single_distinct (n : ℕ) (f : OperandFieldID) :
    (([(⟨n, f, .integer⟩ : OpInfo)].filter fun o => !o.isX0).map OpInfo.reg).Nodup :=
  (List.nodup_singleton _).sublist (List.filter_sublist.map OpInfo.reg)

/-- What the decoder fixes of an `Inst`. -/
structure Inst where
  uniqueId : ℕ
  uopId : ℕ := 0
  programId : ℕ := 0
  programIdIncrement : ℕ := 1
  /-- `src_opcode_info_with_reg_file_` -/
  srcs : List OpInfo := []
  /-- `dest_opcode_info_with_reg_file_` -/
  dests : List OpInfo := []
  pipe : TargetPipe := .int
  isStore : Bool := false
  isLoad : Bool := false
  isMove : Bool := false
  isBranch : Bool := false
  isCsr : Bool := false
  isVector : Bool := false
  isVectorWholeRegister : Bool := false
  uopGen : UopGenType := .none
  mavisUid : MavisUid := .other 0
  /-- the special field `NF` of the opcode -/
  nf : ℕ := 0
  executeTime : ℕ := 1
  targetVAddr : ℕ := 0
  memAccessSize : ℕ := 0
  isSpeculative : Bool := false
  vectorConfig : VectorConfig := {}
  hasTail : Bool := false
  /-- set by Decode when it waits for this instruction -/
  isBlockingVset : Bool := false
  srcs_lt : ∀ o ∈ srcs, o.fieldValue < 32 := by first | exact OpInfo.nil_lt | decide
  dests_lt : ∀ o ∈ dests, o.fieldValue < 32 := by first | exact OpInfo.nil_lt | decide
  dests_distinct : ((dests.filter fun o => !o.isX0).map OpInfo.reg).Nodup := by
    first | exact OpInfo.nil_distinct | decide

/-- The identity of an instruction object. -/
abbrev InstKey := ℕ × ℕ

instance : LawfulBEq InstKey := inferInstance

namespace Inst

def key (i : Inst) : InstKey := (i.uniqueId, i.uopId)

/-- `setSpeculative`. -/
def setSpeculative (i : Inst) (spec : Bool) : Inst := { i with isSpeculative := spec }

/-- `isLoadStoreInst`: the target pipe is the LSU. -/
def isLoadStoreInst (i : Inst) : Bool := i.pipe == .lsu

/-- `isVset`. -/
def isVset (i : Inst) : Bool := i.pipe == .vset

/-- `hasZeroRegSource`. -/
def hasZeroRegSource (i : Inst) : Bool := i.srcs.any fun o => o.fieldValue == 0

/-- `hasZeroRegDest`. -/
def hasZeroRegDest (i : Inst) : Bool := i.dests.any fun o => o.fieldValue == 0

end Inst

/-- `Inst::Status`, the order of the constructors being the order of the values. -/
inductive InstStatus where
  | beforeFetch
  | fetched
  | decoded
  | renamed
  | dispatched
  | scheduled
  | completed
  | retired
  | flushed
  deriving DecidableEq, Repr

namespace InstStatus

/-- The value of a status in `enum class Status`. -/
def toNat : InstStatus → ℕ
  | beforeFetch => 0
  | fetched => 1
  | decoded => 2
  | renamed => 3
  | dispatched => 4
  | scheduled => 5
  | completed => 6
  | retired => 7
  | flushed => 8

end InstStatus

/-- What changes on an instruction object while it is in flight: its status, and whether it
was found to be mispredicted. -/
structure InstTable where
  status : InstKey → InstStatus
  mispredicted : InstKey → Bool

namespace InstTable

/-- `setStatus`.  Its two assertions, that the status is new and that it does not go backwards, are
left out: where one of them would stop the simulation the model goes on. -/
def setStatus (T : InstTable) (k : InstKey) (st : InstStatus) : InstTable :=
  { T with status := Function.update T.status k st }

theorem setStatus_status (T : InstTable) (k k' : InstKey) (st : InstStatus) :
    (T.setStatus k st).status k' = if k' = k then st else T.status k' :=
  Function.update_apply _ _ _ _

/-- `setStatus` on several instructions. -/
def setStatuses (T : InstTable) (ks : List InstKey) (st : InstStatus) : InstTable :=
  { T with status := fun k => if k ∈ ks then st else T.status k }

end InstTable

/-! ## What Rename records on an instruction -/

/-- The default of `RenameData::Reg::prev_dest`, `numeric_limits<uint32_t>::max()`. -/
def noPrevDest : ℕ := 2 ^ 32 - 1

/-- `RenameData::Reg`. -/
structure Reg where
  physReg : ℕ
  opInfo : OpInfo
  prevDest : ℕ := noPrevDest
  deriving DecidableEq, Repr

/-- `RegisterBitMask`, as the set of its one bits. -/
abbrev RegisterBitMask := Finset ℕ

/-- An instruction with the data Rename records on it: the lists and the data register of
`RenameData`, the three arrays of bit masks, `has_load_producer_` and `rob_targeted_`. -/
structure RenamedInst where
  inst : Inst
  /-- all sources, in the order of the `addSource` calls -/
  src : List Reg := []
  /-- all destinations, in the order of the `addDestination` calls -/
  dest : List Reg := []
  dataReg : Option Reg := none
  srcMask : RegFile → RegisterBitMask := fun _ => ∅
  destMask : RegFile → RegisterBitMask := fun _ => ∅
  dataMask : RegFile → RegisterBitMask := fun _ => ∅
  hasLoadProducer : Bool := false
  targetROB : Bool := inst.pipe == .rob

namespace RenamedInst

def key (ri : RenamedInst) : InstKey := ri.inst.key

def uniqueId (ri : RenamedInst) : ℕ := ri.inst.uniqueId

/-- `RenameData::getSourceList`. -/
def getSourceList (ri : RenamedInst) (f : RegFile) : List Reg :=
  ri.src.filter fun r => r.opInfo.regFile = f

/-- `RenameData::getDestList`. -/
def getDestList (ri : RenamedInst) (f : RegFile) : List Reg :=
  ri.dest.filter fun r => r.opInfo.regFile = f

/-- The destinations in the order in which the loops over the register files visit them. -/
def destsByFile (ri : RenamedInst) : List Reg := RegFile.all.flatMap ri.getDestList

/-- `Inst::setDataRegister`. -/
def setDataRegister (ri : RenamedInst) (r : Reg) : RenamedInst :=
  { ri with
    dataMask :=
      if r.opInfo.isX0 then ri.dataMask
      else Function.update ri.dataMask r.opInfo.regFile
        (insert r.physReg (ri.dataMask r.opInfo.regFile))
    dataReg := some r }

/-- `Inst::addSrcRegister`. -/
def addSrcRegister (ri : RenamedInst) (r : Reg) : RenamedInst :=
  { ri with
    srcMask :=
      if r.opInfo.isX0 then ri.srcMask
      else Function.update ri.srcMask r.opInfo.regFile
        (insert r.physReg (ri.srcMask r.opInfo.regFile))
    src := ri.src ++ [r] }

/-- `Inst::addDestRegister`. -/
def addDestRegister (ri : RenamedInst) (r : Reg) : RenamedInst :=
  { ri with dest := ri.dest ++ [r] }

/-- The mask half of `Inst::setDestRegisterBitWithScoreboardUpdate`. -/
def setDestRegisterBit (ri : RenamedInst) (r : Reg) : RenamedInst :=
  { ri with
    destMask := Function.update ri.destMask r.opInfo.regFile
      (insert r.physReg (ri.destMask r.opInfo.regFile)) }

/-- Sorting the destinations by register file only permutes them. -/
theorem destsByFile_perm (ri : RenamedInst) : ri.destsByFile.Perm ri.dest := by
  rw [List.perm_iff_count]
  intro r
  simp only [destsByFile, RegFile.all, getDestList, List.flatMap_cons, List.flatMap_nil,
    List.append_nil, List.count_append]
  have hcount : ∀ f : RegFile, (ri.dest.filter fun r => r.opInfo.regFile = f).count r =
      if r.opInfo.regFile = f then ri.dest.count r else 0 := by
    intro f
    by_cases hf : r.opInfo.regFile = f
    · rw [if_pos hf, List.count_filter (by simpa using hf)]
    · rw [if_neg hf, List.count_eq_zero]
      simp [hf]
  rw [hcount, hcount, hcount]
  cases r.opInfo.regFile <;> simp

end RenamedInst

/-- `Scoreboard`: one ready bit for each physical register. -/
abbrev Scoreboard := ℕ → Bool

/-- The scoreboards of the register files. -/
abbrev Scoreboards := RegFile → Scoreboard

namespace Scoreboard

/-- `isSet`: all bits of the mask are set. -/
def isSet (sb : Scoreboard) (mask : RegisterBitMask) : Bool := decide (∀ p ∈ mask, sb p = true)

/-- `set` and `setReady`. -/
def setReady (sb : Scoreboard) (mask : RegisterBitMask) : Scoreboard :=
  fun p => if p ∈ mask then true else sb p

/-- `clearBits`. -/
def clearBits (sb : Scoreboard) (mask : RegisterBitMask) : Scoreboard :=
  fun p => if p ∈ mask then false else sb p

end Scoreboard

/-! ## Progress of instructions -/

/-- From `T` to `T'`, instructions have been marked as scheduled, and as completed or
mispredicted only if they satisfy `P`. -/
structure InstTable.Progress (P : RenamedInst → Prop) (T T' : InstTable) : Prop where
  status : ∀ k, T'.status k = T.status k ∨ T'.status k = .scheduled ∨
    (T'.status k = .completed ∧ ∃ ri, P ri ∧ ri.key = k)
  mispredicted : ∀ k, T'.mispredicted k = true → T.mispredicted k = true ∨
    ∃ ri, P ri ∧ ri.key = k ∧ ri.inst.isBranch = true

namespace InstTable.Progress

variable {P P' : RenamedInst → Prop} {T T₁ T' : InstTable}

theorem refl (P : RenamedInst → Prop) (T : InstTable) : Progress P T T :=
  ⟨fun _ => .inl rfl, fun _ => .inl⟩

theorem trans (h : Progress P T T₁) (h' : Progress P T₁ T') : Progress P T T' := by
  refine ⟨fun k => ?_, fun k hk => ?_⟩
  · rcases h'.status k with hk | hk | hk
    · rw [hk]
      exact h.status k
    · exact .inr (.inl hk)
    · exact .inr (.inr hk)
  · rcases h'.mispredicted k hk with hk | hk
    · exact h.mispredicted k hk
    · exact .inr hk

theorem mono (h : Progress P T T') (hP : ∀ ri, P ri → P' ri) : Progress P' T T' := by
  refine ⟨fun k => ?_, fun k hk => ?_⟩
  · rcases h.status k with hk | hk | ⟨hk, ri, hri, hkey⟩
    · exact .inl hk
    · exact .inr (.inl hk)
    · exact .inr (.inr ⟨hk, ri, hP ri hri, hkey⟩)
  · rcases h.mispredicted k hk with hk | ⟨ri, hri, hkey⟩
    · exact .inl hk
    · exact .inr ⟨ri, hP ri hri, hkey⟩

theorem scheduled (P : RenamedInst → Prop) (T : InstTable) (k : InstKey) :
    Progress P T (T.setStatus k .scheduled) := by
  refine ⟨fun k' => ?_, fun _ => .inl⟩
  by_cases hk : k' = k
  · exact .inr (.inl (by simp [setStatus, hk]))
  · exact .inl (by simp [setStatus, hk])

theorem completed {ri : RenamedInst} (hri : P ri) (T : InstTable) :
    Progress P T (T.setStatus ri.key .completed) := by
  refine ⟨fun k' => ?_, fun _ => .inl⟩
  by_cases hk : k' = ri.key
  · exact .inr (.inr ⟨by simp [setStatus, hk], ri, hri, hk.symm⟩)
  · exact .inl (by simp [setStatus, hk])

end InstTable.Progress

end Olympia
