import Olympia.Lib.Run
import Olympia.Inst

/-!
# The flush manager and the assertions of the units

`core/FlushManager.hpp`: the causes of a flush, whether the flush takes the causing
instruction with it, and the test every unit runs on the instructions it holds.

A failed `sparta_assert` stops the simulation.  A modelled function that asserts returns
`Except Assertion`, and `Assertion` lists the assertions of the modelled units.  The text of
each is the constant part of the source's message; the empty text is an assertion without a
message.
-/

namespace Olympia

/-- The assertions of the modelled functions, by unit. -/
inductive Assertion where
  -- FlushManager
  | unknownFlushCause
  | noFlushToForward
  -- sparta::Buffer, sparta::Queue and sparta::Pipeline
  | bufferFull
  | bufferEmpty
  | invalidIterator
  | invalidValue
  | appendedTwice
  -- Rename
  | ackNotRetired
  | ackNoPrevDest
  | reclaimZeroRef
  | renameOutOfSync
  | nothingToRename
  | notPartial
  | uopQueueNotEmpty
  | freelistEmpty
  | prfNotAssigned
  -- SimpleBranchPredictor
  | noBTBEntry
  -- Decode and VectorUopGenerator
  | fusionWatchDog
  | fusionOutOfRange
  | noHashCacheEntry
  | uopGenBusy
  | uopGenTypeUnknown
  | uopGenTypeNone
  | lmulTooLarge
  | tooManyVectorUops
  | uopGenNoInst
  | noModifier
  | narrowingNoRs3
  | tooManySources
  | permuteNotSupported
  -- Dispatch and Dispatcher
  | dispatchQueueFull
  | unknownTargetPipe
  | noDispatcher
  | dispatcherNoCredits
  | dispatcherNoBandwidth
  -- IssueQueue and ExecutePipe
  | badInstStatus
  | readyQueueTooLarge
  | issueQueueOverflow
  | notInIssueQueue
  | pipeBusy
  | tooManyPasses
  | noExecuteTime
  -- LSU
  | ldstQueueOverflow
  | storeBufferOverflow
  | storeNotRetired
  | storeOutOfOrder
  | replayOverflow
  | replayDuplicate
  | ldstNotFound
  | alreadyInReadyQueue
  | arbitrationFails
  | priorityNotInQueue
  | tlbNotInQueue
  | cacheNotInQueue
  | notOneDest
  | loadMiss
  | storeTlbMiss
  | storeCacheMiss
  -- ROB
  | unexpectedFlush
  | retiringSpeculative
  | unexpectedProgramID
  -- InstGenerator
  | rewindOutOfBounds
  | rewindInvalid
  -- DCache
  | mshrOverflow
  -- L2Cache
  | dcacheReqQueueOverflow
  | icacheReqQueueOverflow
  | biuRespQueueOverflow
  | biuRespNotServiced
  | dcacheRespQueueOverflow
  | icacheRespQueueOverflow
  | biuReqQueueOverflow
  | missPendingFull
  | respUnitInvalid
  | reqUnitInvalid
  | requestQueuesEmpty
  -- BIU and MSS
  | biuOverflow
  | mssNotDone
  | mssBusy
  deriving DecidableEq, Repr

/-- The message of an assertion, without the instruction it prints. -/
def Assertion.text : Assertion → String
  | unknownFlushCause => "Unknown flush cause: "
  | noFlushToForward => "no flush to forward onwards?"
  | bufferFull => ""
  | bufferEmpty => ""
  | invalidIterator => ""
  | invalidValue => ""
  | appendedTwice => ""
  | ackNotRetired => "Get ROB Ack, but the inst hasn't retired yet! "
  | ackNoPrevDest => ""
  | reclaimZeroRef => "reclaim had a 0 ref for "
  | renameOutOfSync => "ROB and rename inst_queue out of sync"
  | nothingToRename => "Not sure why we're renaming if there are no credits and/or no insts"
  | notPartial => "Still have instructions to rename, but we're not partial to that. HA!"
  | uopQueueNotEmpty => "How is the uop queue not empty?"
  | freelistEmpty => "Freelist should never be empty"
  | prfNotAssigned => "PRF not assigned neither from the freelist nor move elim (if enabled)"
  | noBTBEntry => ""
  | fusionWatchDog => "Fusion group match watch dog exceeded."
  | fusionOutOfRange => "processMatches inst iterator exceeded range"
  | noHashCacheEntry => ""
  | uopGenBusy => "Cannot start generating uops for a new vector instruction, " ++
      "current instruction has not finished: "
  | uopGenTypeUnknown => " uop gen type is unknown"
  | uopGenTypeNone => " uop gen type is none"
  | lmulTooLarge => "LMUL must be lower or equal to 4.\nThese modes set EMUL = 2 * LMUL <= 8."
  | tooManyVectorUops => "Cannot generate more than "
  | uopGenNoInst => "Cannot generate uops, current instruction is not set"
  | noModifier => "Modifier at current instruction doesnt exist."
  | narrowingNoRs3 => "Vector narrowing instructions need to include an RS3 operand!"
  | tooManySources => "Mavis does not support instructions with more than "
  | permuteNotSupported => "Vector permute uop generation is currently not supported!"
  | dispatchQueueFull => "pushing more instructions into Dispatch Queue than the limit: "
  | unknownTargetPipe => "Have an instruction that doesn't know where to go: "
  | noDispatcher => " doesn't have any execution unit that can handle that target pipe. " ++
      "Did you define it in the yaml properly?"
  | dispatcherNoCredits => " cannot accept the given instruction (not enough credits): "
  | dispatcherNoBandwidth =>
    " cannot accept the given instruction (already accepted an instruction)"
  | badInstStatus => "Bad instruction status: "
  | readyQueueTooLarge => "ready queue greater than issue queue size: "
  | issueQueueOverflow => "Appending issue queue causes overflows!"
  | notInIssueQueue => "Attempt to complete instruction no longer exiting in issue queue!"
  | pipeBusy => "ExecutePipe is receiving a new instruction when it's already busy!!"
  | tooManyPasses => "Instruction with multiple passes incremented for more than the " ++
      "total number of passes needed for instruction: "
  | noExecuteTime => ""
  | ldstQueueOverflow => "Appending issue queue causes overflows!"
  | storeBufferOverflow => "Appending store buffer causes overflows!"
  | storeNotRetired => "Get ROB Ack, but the store inst hasn't retired yet!"
  | storeOutOfOrder => "Attempting to retire store out of order! Expected: "
  | replayOverflow => "Appending load queue causes overflows!"
  | replayDuplicate => "Cannot push duplicate instructions into the replay queue "
  | ldstNotFound => "Instruction not found in the issue queue "
  | alreadyInReadyQueue => "Instruction in ready queue "
  | arbitrationFails => "Arbitration fails: issue is empty!"
  | priorityNotInQueue =>
    "Attempt to update issue priority for instruction not yet in the issue queue!"
  | tlbNotInQueue =>
    "Attempt to rehandle TLB lookup for instruction not yet in the issue queue! "
  | cacheNotInQueue =>
    "Attempt to rehandle cache lookup for instruction not yet in the issue queue! "
  | notOneDest => ""
  | loadMiss => "Load instruction cannot complete when cache is still a miss! "
  | storeTlbMiss => "Store instruction cannot complete when TLB is still a miss!"
  | storeCacheMiss => "Store inst cannot finish when cache is still a miss! "
  | unexpectedFlush => "Received a flush, but didn't expect one"
  | retiringSpeculative => "Uh, oh!  A speculative instruction is being retired: "
  | unexpectedProgramID => "\nUnexpected program ID when retiring instruction"
  | rewindOutOfBounds => "Rewind index "
  | rewindInvalid => "Rewind iterator is no longer valid for instruction uid:"
  | mshrOverflow => "Appending mshr causes overflows!"
  | dcacheReqQueueOverflow => "DCache request queue overflows!"
  | icacheReqQueueOverflow => "ICache request queue overflows!"
  | biuRespQueueOverflow => "BIU resp queue overflows!"
  | biuRespNotServiced => "This request cannot be serviced right now, " ++
      "L2Cache input buffer from DCache is already full!"
  | dcacheRespQueueOverflow => "DCache resp queue overflows!"
  | icacheRespQueueOverflow => "ICache resp queue overflows!"
  | biuReqQueueOverflow => "BIU req queue overflows!"
  | missPendingFull => "No space in miss_pending_buffer_! " ++
      "Why did the frontend issue push the request onto l2cache_pipeline_?"
  | respUnitInvalid => "Resp is being sent to a Unit that is not valid"
  | reqUnitInvalid => "Request is being sent to a Unit that is not valid"
  | requestQueuesEmpty => "Arbitration failed: Reqest queues are empty!"
  | biuOverflow => "BIU request queue overflows!"
  | mssNotDone => "MSS is NOT done!"
  | mssBusy => "MSS can never receive requests from BIU when it's busy!"

/-- `sparta_assert(b, ...)`. -/
def spartaAssert (b : Bool) (a : Assertion) : Except Assertion Unit :=
  if b then .ok () else .error a

@[simp] theorem spartaAssert_eq_ok {b : Bool} {a : Assertion} {u : Unit} :
    spartaAssert b a = .ok u ↔ b = true := by
  cases b <;> simp [spartaAssert]

@[simp] theorem spartaAssert_eq_error {b : Bool} {a e : Assertion} :
    spartaAssert b a = .error e ↔ b = false ∧ a = e := by
  cases b <;> simp [spartaAssert]

theorem spartaAssert_failsIn {E : Assertion → Prop} {b : Bool} {a : Assertion} (ha : E a) :
    Run.FailsIn E (spartaAssert b a) := by
  unfold spartaAssert
  split
  · exact .ok ()
  · exact .error ha

/-- Why a system of units makes no step: an assertion failed, or the step is not enabled. -/
inductive Stop where
  | assertion (a : Assertion)
  | disabled
  deriving DecidableEq, Repr

/-- A handler run as a step of a system. -/
def checked {α : Type} (x : Except Assertion α) : Except Stop α :=
  match x with
  | .ok a => .ok a
  | .error a => .error (.assertion a)

/-- A step that is enabled only under a condition. -/
def enabled (b : Bool) : Except Stop Unit := if b then .ok () else .error .disabled

@[simp] theorem checked_eq_ok {α : Type} {x : Except Assertion α} {a : α} :
    checked x = .ok a ↔ x = .ok a := by
  rcases x with e | a' <;> simp [checked]

@[simp] theorem enabled_eq_ok {b : Bool} {u : Unit} : enabled b = .ok u ↔ b = true := by
  cases b <;> simp [enabled]

theorem enabled_ne_assertion {b : Bool} {a : Assertion} : enabled b ≠ .error (.assertion a) := by
  cases b <;> simp [enabled]

/-- A step that succeeds was enabled, and its handler succeeds. -/
theorem enabled_checked_eq_ok {α : Type} {b : Bool} {x : Except Assertion α} {a : α} :
    (do enabled b; checked x) = .ok a ↔ b = true ∧ x = .ok a := by
  rw [Run.bind_eq_ok]
  constructor
  · rintro ⟨u, hen, h⟩
    exact ⟨enabled_eq_ok.mp hen, checked_eq_ok.mp h⟩
  · rintro ⟨hen, h⟩
    exact ⟨(), enabled_eq_ok.mpr hen, checked_eq_ok.mpr h⟩

/-- A step that stops at an assertion was enabled, and its handler stops at it. -/
theorem enabled_checked_eq_error {α : Type} {b : Bool} {x : Except Assertion α} {a : Assertion}
    (h : (do enabled b; checked x) = .error (.assertion a)) : b = true ∧ x = .error a := by
  cases b with
  | false => cases h
  | true =>
    rcases x with e | y
    · obtain rfl : e = a := by simpa [enabled, checked, bind, Except.bind] using h
      exact ⟨rfl, rfl⟩
    · cases h

/-- A step is not enabled, or stops at an assertion in `E`. -/
def Stop.In (E : Assertion → Prop) : Stop → Prop
  | .assertion a => E a
  | .disabled => True

theorem checked_failsIn {α : Type} {E : Assertion → Prop} {x : Except Assertion α}
    (hx : Run.FailsIn E x) : Run.FailsIn (Stop.In E) (checked x) := by
  rcases x with e | a
  · exact .error (hx e rfl)
  · exact .ok a

theorem enabled_failsIn {E : Assertion → Prop} (b : Bool) :
    Run.FailsIn (Stop.In E) (enabled b) := by
  unfold enabled
  split
  · exact .ok ()
  · exact .error trivial

/-! ## Flushes -/

/-- `FlushManager::FlushCause`. -/
inductive FlushCause where
  | trap
  | misprediction
  | targetMisprediction
  | misfetch
  | postSync
  | unknown
  deriving DecidableEq, Repr

/-- `determineInclusive`. -/
def determineInclusive : FlushCause → Except Assertion Bool
  | .trap => .ok true
  | .misfetch => .ok true
  | .misprediction => .ok false
  | .targetMisprediction => .ok false
  | .postSync => .ok false
  | .unknown => .error .unknownFlushCause

/-- `FlushManager::FlushingCriteria`; of the instruction only the unique identifier is read. -/
structure FlushingCriteria where
  cause : FlushCause
  isInclusive : Bool
  uniqueId : ℕ
  deriving DecidableEq, Repr

namespace FlushingCriteria

/-- The constructor from a cause and an instruction. -/
def make (cause : FlushCause) (i : Inst) : Except Assertion FlushingCriteria := do
  let isInclusive ← determineInclusive cause
  return ⟨cause, isInclusive, i.uniqueId⟩

/-- `isLowerPipeFlush`. -/
def isLowerPipeFlush (c : FlushingCriteria) : Bool := c.cause == .misfetch

/-- `includedInFlush`, by unique identifier. -/
def includesId (c : FlushingCriteria) (uid : ℕ) : Bool :=
  if c.isInclusive then decide (c.uniqueId ≤ uid) else decide (c.uniqueId < uid)

/-- `includedInFlush`. -/
def includedInFlush (c : FlushingCriteria) (other : Inst) : Bool := c.includesId other.uniqueId

/-- A flush takes every instruction younger than one it takes. -/
theorem includedInFlush_mono {c : FlushingCriteria} {i j : Inst}
    (hij : i.uniqueId ≤ j.uniqueId) (hi : c.includedInFlush i = true) :
    c.includedInFlush j = true := by
  unfold includedInFlush includesId at *
  split at hi <;> simp_all <;> omega

end FlushingCriteria

namespace FlushManager

/-- `receiveFlush_`: only the oldest request is kept. -/
def receiveFlush (pending : Option FlushingCriteria) (flushData : FlushingCriteria) :
    Option FlushingCriteria :=
  match pending with
  | some old => if old.includesId flushData.uniqueId then some old else some flushData
  | none => some flushData

/-- `forwardFlush_`, as far as it concerns the upper pipeline: a request of the lower pipeline
reaches only Fetch and Decode. -/
def forwardUpper (pending : Option FlushingCriteria) : Option FlushingCriteria :=
  pending.filter fun c => !c.isLowerPipeFlush

end FlushManager

/-! ## Scheduling phases -/

/-- The phases of a cycle in which the modelled handlers run.  Ports with a delay of one cycle
deliver in `PortUpdate`; flushes run between the two phases, when everything is delivered;
all other handlers run in `Tick`. -/
inductive Phase where
  | portUpdate
  | tick
  deriving DecidableEq, Repr

end Olympia
