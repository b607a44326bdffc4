import Olympia.Decode
import Olympia.Rename.Runs
import Olympia.Execute.Units

/-!
# Overflow assertions

Four queues between Decode and the execution units are filled against credits, and each asserts
when it is full: `uop_queue_` of Rename, which is a `sparta::Buffer`, `dispatch_queue_`,
`issue_queue_` of an issue queue and `ldst_inst_queue_` of the LSU.  Only the four functions that
append to them can stop at one of these assertions.  This file says so of every other handler.
-/

namespace Olympia

/-- The assertions that a queue filled against credits has room. -/
def Assertion.isOverflow : Assertion → Bool
  | bufferFull => true
  | dispatchQueueFull => true
  | issueQueueOverflow => true
  | ldstQueueOverflow => true
  | _ => false

/-- The computation stops at no overflow assertion. -/
abbrev NoOverflow {α : Type} (x : Except Assertion α) : Prop :=
  Run.FailsIn (fun a => a.isOverflow = false) x

theorem noOverflow_of_mem {α : Type} {x : Except Assertion α} {l : List Assertion}
    (hx : Run.FailsIn (· ∈ l) x) (hl : ∀ a ∈ l, a.isOverflow = false) : NoOverflow x :=
  hx.mono hl

theorem noOverflow_assert {b : Bool} {a : Assertion} (ha : a.isOverflow = false) :
    NoOverflow (spartaAssert b a) :=
  spartaAssert_failsIn ha

/-! ## Decode -/

namespace VectorUopGenerator

theorem shiftSrc_noOverflow (t : UopGenType) (viext : Option ℕ) (k : ℕ) (o : OpInfo) :
    NoOverflow (shiftSrc t viext k o) := by
  unfold shiftSrc
  split
  · exact .ok _
  · split
    case h_9 =>
      split
      · exact .ok _
      · exact .error rfl
    all_goals exact .ok _

theorem addDestAsSrc_noOverflow (srcs : List OpInfo) (dest : OpInfo) :
    NoOverflow (addDestAsSrc srcs dest) :=
  .bind (noOverflow_assert rfl) fun _ => .ok _

theorem shiftDest_noOverflow (t : UopGenType) (k : ℕ) (ops : List OpInfo × List OpInfo)
    (o : OpInfo) : NoOverflow (shiftDest t k ops o) := by
  unfold shiftDest
  dsimp only
  split
  · exact (addDestAsSrc_noOverflow _ _).bind fun _ => .ok _
  · split
    · exact (addDestAsSrc_noOverflow _ _).bind fun _ => .ok _
    · exact .ok _

theorem generateUops_noOverflow (t : UopGenType) (viext : Option ℕ) (k : ℕ) (i : Inst) :
    NoOverflow (generateUops t viext k i) := by
  have hdests : ∀ srcs, NoOverflow (if t = .singleDest then pure (srcs, i.dests)
      else i.dests.foldlM (shiftDest t k) (srcs, [])) := by
    intro srcs
    split
    · exact .ok _
    · exact .foldlM (shiftDest_noOverflow t k) _ _
  unfold generateUops
  refine .bind (.mapM (shiftSrc_noOverflow t viext k) _) fun srcs => ?_
  dsimp only
  split
  · split
    · exact hdests _
    · exact .error rfl
  · exact hdests _

theorem uopOperands_noOverflow (viext : Option ℕ) (n k : ℕ) (i : Inst) :
    NoOverflow (uopOperands viext n k i) := by
  unfold uopOperands
  split
  case h_3 => exact .error rfl
  case h_4 => exact .error rfl
  case h_5 => exact .error rfl
  case h_6 => exact generateUops_noOverflow _ _ _ _
  all_goals exact .ok _

theorem setInst_noOverflow (g : VecUopGen) (i : Inst) : NoOverflow (setInst g i) := by
  unfold setInst
  refine .bind (noOverflow_assert rfl) fun _ => ?_
  refine .bind (noOverflow_assert rfl) fun _ => ?_
  refine .bind (noOverflow_assert rfl) fun _ => ?_
  refine .bind (noOverflow_assert rfl) fun _ => ?_
  exact .bind (noOverflow_assert rfl) fun _ => .ok _

theorem generateUop_noOverflow (m : Mavis) (g : VecUopGen) : NoOverflow (generateUop m g) := by
  unfold generateUop
  split
  · exact .error rfl
  · exact (uopOperands_noOverflow _ _ _ _).bind fun _ => .ok _

end VectorUopGenerator

namespace Decode

theorem decodeOne_noOverflow (m : Mavis) (s : DecodeState) (grp : DecodeGroup) :
    NoOverflow (decodeOne m s grp) := by
  unfold decodeOne
  split
  · exact (VectorUopGenerator.generateUop_noOverflow m _).bind fun _ => .ok _
  · split
    · exact .ok _
    · dsimp only
      split
      · refine (VectorUopGenerator.setInst_noOverflow _ _).bind fun gen => ?_
        exact (VectorUopGenerator.generateUop_noOverflow m _).bind fun _ => .ok _
      · exact .ok _

theorem decodeInsts_noOverflow (p : DecodeParams) (s : DecodeState) :
    NoOverflow (decodeInsts p s) := by
  have hloop : ∀ (n : ℕ) (s : DecodeState) (grp : DecodeGroup),
      NoOverflow (decodeLoop p.mavis n s grp) := by
    intro n
    induction n with
    | zero => exact fun s grp => .ok _
    | succ n ih =>
      intro s grp
      unfold decodeLoop
      split
      · exact .ok _
      · refine (decodeOne_noOverflow _ s grp).bind fun r => ?_
        rcases r with _ | ⟨s', grp'⟩
        · exact .ok _
        · exact ih s' grp'
  unfold decodeInsts
  split
  · exact .ok _
  · refine (hloop _ _ _).bind fun r => ?_
    dsimp only
    split
    · have hfuse := noOverflow_of_mem (p.fuse_failsIn r.2.insts r.2.uids) (by decide)
      exact hfuse.bind fun _ => .ok _
    · exact .ok _

end Decode

/-! ## Rename -/

theorem renameInstructions_noOverflow (p : RenameParams) (s : RenameState) :
    NoOverflow (renameInstructions p s) :=
  noOverflow_of_mem (renameInstructions_failsIn s) (by decide)

theorem reclaim_noOverflow (c : RegfileComponents) (prf : ℕ) : NoOverflow (c.reclaim prf) := by
  unfold RegfileComponents.reclaim
  dsimp only
  split
  · exact .error rfl
  · exact .ok _

theorem getAckFromROB_noOverflow (status : RenamedInst → InstStatus) (s : RenameState)
    (grp : List RenamedInst) : NoOverflow (getAckFromROB status s grp) := by
  have hdest : ∀ t d, NoOverflow (reclaimRename t d) := by
    intro t d
    unfold reclaimRename
    split
    · exact .ok _
    · refine .bind (noOverflow_assert rfl) fun _ => ?_
      exact (reclaim_noOverflow _ _).bind fun _ => .ok _
  refine .bind (.foldlM (fun t ri => ?_) _ _) fun _ => .ok _
  unfold retireInst
  refine .bind (noOverflow_assert rfl) fun _ => ?_
  refine .bind (.foldlM hdest _ _) fun t' => ?_
  split
  · exact .error rfl
  · exact .bind (noOverflow_assert rfl) fun _ => .ok _

theorem handleFlush_noOverflow (s : RenameState) (c : FlushingCriteria) :
    NoOverflow (handleFlush s c) := by
  have hdest : ∀ t d, NoOverflow (restoreDest t d) := by
    intro t d
    unfold restoreDest
    split
    · exact .ok _
    · exact (reclaim_noOverflow _ _).bind fun _ => .ok _
  have hwalk : ∀ (q : List RenamedInst) (t : RenameTables), NoOverflow (flushWalk c q t) := by
    intro q
    induction q with
    | nil => exact fun t => .ok _
    | cons ri older ih =>
      intro t
      unfold flushWalk
      split
      · exact .bind (.foldlM hdest _ _) fun t' => ih _
      · exact .ok _
  exact .bind (hwalk _ _) fun _ => .ok _

/-! ## Dispatch -/

theorem dispatchInstructions_noOverflow (p : DispatchParams) (s : DispatchState) (T : InstTable) :
    NoOverflow (Dispatch.dispatchInstructions p s T) :=
  noOverflow_of_mem (Dispatch.dispatchInstructions_failsIn s T) (by decide)

/-! ## Issue queues and execution pipes -/

theorem insertInst_noOverflow (p : ExecutePipeParams) (s : ExecutePipeState) (T : InstTable)
    (ri : RenamedInst) : NoOverflow (ExecutePipe.insertInst p s T ri) := by
  unfold ExecutePipe.insertInst
  refine .bind (noOverflow_assert rfl) fun _ => ?_
  refine .bind ?_ fun s' => .bind (noOverflow_assert rfl) fun _ => .ok _
  unfold ExecutePipe.countPasses
  split
  · split
    · split
      · exact .ok _
      · exact .ok _
    · exact .bind (noOverflow_assert rfl) fun _ => .ok _
  · exact .ok _

theorem sendReadyInsts_noOverflow (p : IssueQueueParams) (pe : PipeId → ExecutePipeParams)
    (s : IssueQueueState) (pipes : PipeId → ExecutePipeState) (T : InstTable) :
    NoOverflow (IssueQueue.sendReadyInsts p pe s pipes T) := by
  unfold IssueQueue.sendReadyInsts
  refine .bind (noOverflow_assert rfl) fun _ => ?_
  refine .bind (.foldlM (fun st ri => ?_) _ _) fun _ => .ok _
  unfold IssueQueue.sendOne
  split
  · refine (insertInst_noOverflow _ _ _ _).bind fun _ => .bind ?_ fun _ => .ok _
    unfold IssueQueue.popIssueQueue
    split
    · exact .ok _
    · exact .error rfl
  · exact .ok _

/-! ## The LSU -/

namespace Lsu

theorem appendToReadyQueue_noOverflow (w : LsuWork) (ri : RenamedInst) :
    NoOverflow (appendToReadyQueue w ri) :=
  .bind (noOverflow_assert rfl) fun _ => .ok _

theorem makeReady_noOverflow (q : List RenamedInst) (w : LsuWork) (T : InstTable)
    (ri : RenamedInst) : NoOverflow (makeReady q w T ri) := by
  unfold makeReady
  refine .bind (.bind (noOverflow_assert rfl) fun _ => .ok _) fun _ => ?_
  refine .bind (noOverflow_assert rfl) fun _ => ?_
  exact (appendToReadyQueue_noOverflow _ _).bind fun _ => .ok _

theorem handleOperandIssueCheck_noOverflow (p : LsuParams) (sb : Scoreboards)
    (q : List RenamedInst) (w : LsuWork) (T : InstTable) (ri : RenamedInst) :
    NoOverflow (handleOperandIssueCheck p sb q w T ri) := by
  unfold handleOperandIssueCheck
  split
  · exact .ok _
  · split
    · exact .ok _
    · split
      · split
        · exact makeReady_noOverflow _ _ _ _
        · exact .ok _
      · split
        · exact makeReady_noOverflow _ _ _ _
        · exact .ok _

theorem bounce_noOverflow (w : LsuWork) (stage : ℕ) (ri : RenamedInst) :
    NoOverflow (bounce w stage ri) := by
  unfold bounce
  dsimp only
  split
  · exact (appendToReadyQueue_noOverflow _ _).bind fun _ => .ok _
  · exact .ok _

theorem issueInst_noOverflow (p : LsuParams) (w : LsuWork) : NoOverflow (issueInst p w) := by
  unfold issueInst
  split
  · exact .error rfl
  · refine .bind (noOverflow_assert rfl) fun _ => ?_
    dsimp only
    split
    · refine .bind ?_ fun _ => .ok _
      refine .bind (noOverflow_assert rfl) fun _ => ?_
      exact .bind (noOverflow_assert rfl) fun _ => .ok _
    · exact .ok _

theorem getAckFromROB_noOverflow (s : LsuState) (T : InstTable) (ri : RenamedInst) :
    NoOverflow (getAckFromROB s T ri) := by
  unfold getAckFromROB
  refine .bind (noOverflow_assert rfl) fun _ => ?_
  refine .bind (noOverflow_assert rfl) fun _ => ?_
  exact .bind (noOverflow_assert rfl) fun _ => .ok _

theorem handleMMULookupReq_noOverflow (p : LsuParams) (sb : Scoreboards) (q : List RenamedInst)
    (w : LsuWork) (T : InstTable) : NoOverflow (handleMMULookupReq p sb q w T) := by
  unfold handleMMULookupReq
  split
  · exact .ok _
  · split
    · exact .ok _
    · dsimp only
      split
      · refine .bind (.foldlM (fun st e => ?_) _ _) fun _ => .ok _
        unfold readyDependentLoad
        split
        · exact makeReady_noOverflow _ _ _ _
        · exact .ok _
      · exact .ok _

theorem abortYoungerLoads_noOverflow (p : LsuParams) (w : LsuWork) (ri : RenamedInst) :
    NoOverflow (abortYoungerLoads p w ri) := by
  unfold abortYoungerLoads
  split
  · exact .ok _
  · exact .foldlM (fun w e => (appendToReadyQueue_noOverflow _ _).bind fun _ => .ok _) _ _

theorem handleCacheLookupReq_noOverflow (p : LsuParams) (q storeBuffer : List RenamedInst)
    (w : LsuWork) (T : InstTable) : NoOverflow (handleCacheLookupReq p q storeBuffer w T) := by
  unfold handleCacheLookupReq
  split
  · exact .ok _
  · dsimp only
    split
    · exact (bounce_noOverflow _ _ _).bind fun _ => .ok _
    · split_ifs
      all_goals exact .ok _

theorem handleCacheRead_noOverflow (p : LsuParams) (w : LsuWork) :
    NoOverflow (handleCacheRead p w) := by
  unfold handleCacheRead
  split
  · exact .ok _
  · split_ifs
    · exact bounce_noOverflow _ _ _
    · exact .ok _
    · exact .ok _

theorem completeInst_noOverflow (p : LsuParams) (s : LsuState) (T : InstTable)
    (sb : Scoreboards) : NoOverflow (completeInst p s T sb) := by
  have hfinish : ∀ T sb ri, NoOverflow (finish p s T sb ri) := by
    intro T sb ri
    refine .bind ?_ fun _ => .ok _
    unfold popIssueQueue
    split
    · exact .ok _
    · exact .error rfl
  unfold completeInst
  split
  · exact .ok _
  · dsimp only
    split
    · exact .ok _
    · refine .bind ?_ fun sb' => ?_
      · unfold writeback
        split
        · exact .ok _
        · exact .ok _
        · exact .error rfl
      · split
        · refine .bind (noOverflow_assert rfl) fun _ => ?_
          split
          · exact .ok _
          · exact hfinish _ _ _
        · split
          · exact .bind (noOverflow_assert rfl) fun _ => .ok _
          · refine .bind (noOverflow_assert rfl) fun _ => ?_
            split
            · exact .ok _
            · exact hfinish _ _ _

/-- A handler of the LSU that leaves the queue alone stops at no overflow assertion. -/
theorem workStep_noOverflow (p : LsuParams) (s : LsuState) (T : InstTable) (sb : Scoreboards)
    (op : LsuOp) :
    Run.FailsIn (Stop.In fun a => a.isOverflow = false) (workStep p s T sb op) := by
  have hmap : ∀ {α β : Type} {x : Option α} {g : α → Except Assertion β},
      (∀ a, NoOverflow (g a)) →
      Run.FailsIn (Stop.In fun a => a.isOverflow = false) (outstanding (x.map g)) := by
    intro α β x g hg
    refine outstanding_failsIn fun y hy => ?_
    obtain ⟨a, -, rfl⟩ := Option.map_eq_some_iff.mp hy
    exact hg a
  rcases op with i | _ | _ | ⟨i, hit⟩ | _ | _ | ⟨i, cs⟩ | i | _ | i | i
  case callback =>
    refine outstanding_failsIn fun y hy => ?_
    unfold readyCallback at hy
    split at hy
    · cases hy
    · split at hy
      · obtain rfl := Option.some.inj hy
        exact handleOperandIssueCheck_noOverflow _ _ _ _ _ _
      · cases hy
  case advance => exact .ok _
  case mmuLookup => exact checked_failsIn (handleMMULookupReq_noOverflow _ _ _ _ _)
  case mmuAck =>
    refine .bind (hmap fun ri => ?_) fun _ => .ok _
    exact .ite (abortYoungerLoads_noOverflow _ _ _) (.ok _)
  case mmuReady =>
    refine .bind (hmap fun ri => ?_) fun _ => .ok _
    refine .bind (noOverflow_assert rfl) fun _ => ?_
    split
    · exact .ok _
    · exact .ok _
  case cacheLookup => exact checked_failsIn (handleCacheLookupReq_noOverflow _ _ _ _ _)
  case cacheAck => exact .bind (hmap fun w => .ok w) fun _ => .ok _
  case cacheReady =>
    refine .bind (hmap fun ri => ?_) fun _ => .ok _
    split
    · exact .ok _
    · exact .bind (noOverflow_assert rfl) fun _ => .ok _
  case cacheRead => exact .bind (checked_failsIn (handleCacheRead_noOverflow _ _)) fun _ => .ok _
  case replayReady => exact .bind (hmap fun w => .ok w) fun _ => .ok _
  case appendReady =>
    refine .bind (hmap fun ri => ?_) fun _ => .ok _
    dsimp only
    split
    · exact appendToReadyQueue_noOverflow _ _
    · exact .ok _

end Lsu

/-- No handler of the units other than the arrival of an instruction stops at an overflow
assertion. -/
theorem Units.step_noOverflow (p : UnitsParams) (u : Units) (T : InstTable) (sb : Scoreboards)
    (op : UnitsOp) :
    Run.FailsIn (Stop.In fun a => a.isOverflow = false) (u.step p T sb op) := by
  have hevent : ∀ {α : Type} {x : Option α}, Run.FailsIn (Stop.In fun a => a.isOverflow = false)
      (outstanding (x.map (Except.ok (ε := Assertion)))) := by
    intro α x
    refine outstanding_failsIn fun y hy => ?_
    obtain ⟨a, -, rfl⟩ := Option.map_eq_some_iff.mp hy
    exact .ok a
  rcases op with ⟨n, i⟩ | n | ⟨e, i, random⟩ | ⟨e, i⟩ | ⟨e, i⟩ | _ | _ | op
  case iqCallback => exact hevent.bind fun _ => .ok _
  case sendReadyInsts =>
    exact .bind (checked_failsIn (sendReadyInsts_noOverflow _ _ _ _ _)) fun _ => .ok _
  case executeInst => exact hevent.bind fun _ => .ok _
  case reissueInst =>
    refine .bind (outstanding_failsIn fun y hy => ?_) fun _ => .ok _
    obtain ⟨ri, -, rfl⟩ := Option.map_eq_some_iff.mp hy
    exact insertInst_noOverflow _ _ _ _
  case completePipe => exact hevent.bind fun _ => .ok _
  case issueInst => exact .bind (checked_failsIn (Lsu.issueInst_noOverflow _ _)) fun _ => .ok _
  case completeLsu =>
    exact .bind (checked_failsIn (Lsu.completeInst_noOverflow _ _ _ _)) fun _ => .ok _
  case lsu => exact .bind (Lsu.workStep_noOverflow _ _ _ _ _) fun _ => .ok _

end Olympia
