import Olympia.Rename.Runs
import Olympia.Rob
import Olympia.Dispatch

/-!
# Rename, Dispatch and the ROB in step

The three units joined by their one-cycle ports, with Decode, the execution units and the
arrival of credits left open.  A cycle delivers what was sent in the last one (`PortUpdate`),
runs the flush handlers of all three units when the ROB asked for a flush in the last cycle,
and then runs any handlers in any order (`Tick`).

Decode sends instructions in program order: the unique identifier grows, the uops of one vector
instruction have the same one and growing uop identifiers, and an instruction that can cause a
flush has its identifier for itself.  `Inst.before` is that order.

`InStep.Inv` is the invariant.  Its main part is that `inst_queue_` is the concatenation of what
is on its way to Rename, in the reorder buffer, on its way to it, in the dispatch queue and on
its way to that.  While a flush is pending, everything younger than its cause is included in it,
so each unit throws away all it has, each by its own rule.
-/

namespace Olympia

/-! ## Program order -/

namespace Inst

/-- The instruction can make the ROB ask for a flush: only branches are mispredicted, and
`retireSysInst_` flushes after CSR instructions. -/
def canFlush (i : Inst) : Bool := i.isBranch || (i.pipe == .sys && i.isCsr)

/-- The instruction `i` is older than `j`. -/
def before (i j : Inst) : Bool :=
  decide (i.uniqueId < j.uniqueId) ||
    (decide (i.uniqueId = j.uniqueId) && decide (i.uopId < j.uopId) && !i.canFlush)

theorem before_iff {i j : Inst} : i.before j = true ↔
    i.uniqueId < j.uniqueId ∨
      (i.uniqueId = j.uniqueId ∧ i.uopId < j.uopId ∧ i.canFlush = false) := by
  simp [before, and_assoc]

theorem before_trans {i j k : Inst} (hij : i.before j = true) (hjk : j.before k = true) :
    i.before k = true := by
  rw [before_iff] at *
  rcases hij with hij | ⟨hid, huop, hflush⟩
  · rcases hjk with hjk | ⟨hid', -, -⟩
    · exact .inl (hij.trans hjk)
    · exact .inl (hid' ▸ hij)
  · rcases hjk with hjk | ⟨hid', huop', -⟩
    · exact .inl (hid ▸ hjk)
    · exact .inr ⟨hid.trans hid', huop.trans huop', hflush⟩

theorem key_ne_of_before {i j : Inst} (h : i.before j = true) : i.key ≠ j.key := by
  rw [before_iff] at h
  intro heq
  obtain ⟨hid, huop⟩ := Prod.mk.inj heq
  omega

/-- What can flush is strictly older than everything after it. -/
theorem uniqueId_lt_of_before {i j : Inst} (h : i.before j = true) (hi : i.canFlush = true) :
    i.uniqueId < j.uniqueId := by
  rcases before_iff.mp h with h | ⟨-, -, hflush⟩
  · exact h
  · rw [hi] at hflush
    cases hflush

end Inst

/-- The instruction comes after the last one that was sent. -/
def follows (last : Option Inst) (i : Inst) : Bool := last.all fun l => l.before i

/-- The instructions continue the program after `last`. -/
def inProgramOrder (last : Option Inst) : List Inst → Bool
  | [] => true
  | i :: rest => follows last i && inProgramOrder (some i) rest

theorem inProgramOrder_spec {last : Option Inst} {insts : List Inst}
    (h : inProgramOrder last insts = true) :
    insts.Pairwise (fun i j => i.before j = true) ∧
      (∀ i ∈ insts, follows last i = true) ∧
      ∀ j, follows (insts.getLast?.or last) j = true →
        (∀ i ∈ insts, i.before j = true) ∧ follows last j = true := by
  induction insts generalizing last with
  | nil => exact ⟨.nil, by simp, fun j hj => ⟨by simp, by simpa using hj⟩⟩
  | cons i rest ih =>
    obtain ⟨hi, hrest⟩ := (Bool.and_eq_true _ _).mp h
    obtain ⟨hpair, hfol, hlast⟩ := ih hrest
    have hfirst : ∀ j, follows (some i) j = true → follows last j = true := by
      intro j hj
      rcases last with _ | l
      · rfl
      · exact Inst.before_trans hi hj
    refine ⟨List.pairwise_cons.mpr ⟨hfol, hpair⟩, fun j hj => ?_, fun j hj => ?_⟩
    · rcases List.mem_cons.mp hj with rfl | hj
      · exact hi
      · exact hfirst j (hfol j hj)
    · have hj' : follows (rest.getLast?.or (some i)) j = true := by
        rcases rest with _ | ⟨r, rest⟩
        · simpa using hj
        · obtain ⟨x, hx⟩ : ∃ x, (r :: rest).getLast? = some x :=
            ⟨_, List.getLast?_eq_some_getLast (by simp)⟩
          rw [List.getLast?_cons_cons, hx] at hj
          rw [hx]
          exact hj
      obtain ⟨hall, hij⟩ := hlast j hj'
      refine ⟨fun k hk => ?_, hfirst j hij⟩
      rcases List.mem_cons.mp hk with rfl | hk
      · exact hij
      · exact hall k hk

/-! ## The system -/

structure InStep where
  phase : Phase := .tick
  rename : RenameState
  dispatch : DispatchState := {}
  rob : RobState := {}
  table : InstTable := ⟨fun _ => .beforeFetch, fun _ => false⟩
  /-- the group on the port from Rename to Dispatch -/
  toDispatch : List RenamedInst := []
  /-- the group on the port from Dispatch to the ROB -/
  toRob : List RenamedInst := []
  /-- the retired group on the port from the ROB to Rename -/
  retireAck : List RenamedInst := []
  pendingFlush : Option FlushingCriteria := none
  /-- the youngest instruction Decode has sent -/
  lastDecoded : Option Inst := none

inductive InStepOp where
  /-- a group from Decode arrives at Rename -/
  | decoded (insts : List Inst)
  | deliverAck
  | deliverRenamed
  | deliverDispatched
  | flush
  | rename
  | dispatch
  | retire
  | dispatchCredits (credits : ℕ)
  | robCredits (credits : ℕ)
  | unitCredits (d : UnitId) (credits : ℕ)
  /-- an execution unit completes an instruction -/
  | complete (k : InstKey) (mispredicted : Bool)
  | nextCycle

namespace InStep

variable {p : RenameParams} {x0 : ℕ} {pd : DispatchParams} {pr : RobParams}

def init (p : RenameParams) (x0 : ℕ) : InStep := { rename := RenameState.init p x0 }

/-- An execution unit may complete an instruction it was given, and only finds branches
mispredicted. -/
def canComplete (s : InStep) (k : InstKey) (mispredicted : Bool) : Bool :=
  (s.rename.instQueue.find? fun ri => ri.key = k).any fun ri =>
    (s.table.status k = .dispatched ∨ s.table.status k = .scheduled) &&
      (!mispredicted || ri.inst.isBranch)

def step (p : RenameParams) (pd : DispatchParams) (pr : RobParams) (s : InStep) :
    InStepOp → Except Stop InStep
  | .decoded insts => do
    enabled (s.phase = .portUpdate ∧ inProgramOrder s.lastDecoded insts)
    let rename ← checked (decodedInstructions p s.rename insts)
    return { s with
      rename := rename
      table :=
        ⟨fun k => if k ∈ insts.map Inst.key then .decoded else s.table.status k,
         fun k => if k ∈ insts.map Inst.key then false else s.table.mispredicted k⟩
      lastDecoded := insts.getLast?.or s.lastDecoded }
  | .deliverAck => do
    enabled (s.phase = .portUpdate)
    let rename ← checked
      (getAckFromROB (fun ri => s.table.status ri.key) s.rename s.retireAck)
    return { s with rename := rename, retireAck := [] }
  | .deliverRenamed => do
    enabled (s.phase = .portUpdate)
    let dispatch ← checked (Dispatch.dispatchQueueAppended pd s.dispatch s.toDispatch)
    return { s with dispatch := dispatch, toDispatch := [] }
  | .deliverDispatched => do
    enabled (s.phase = .portUpdate)
    let rob ← checked (Rob.robAppended pr s.rob s.toRob)
    return { s with rob := rob, toRob := [] }
  | .flush => do
    enabled (s.phase = .portUpdate ∧ s.toDispatch = [] ∧ s.toRob = [] ∧ s.retireAck = [])
    match FlushManager.forwardUpper s.pendingFlush with
    | none => return { s with phase := .tick, pendingFlush := none }
    | some c => do
      let (rename, _) ← checked (handleFlush s.rename c)
      let (rob, table, _) ← checked (Rob.handleFlush s.rob s.table c)
      return { s with
        phase := .tick
        rename := rename
        dispatch := (Dispatch.handleFlush s.dispatch).1
        rob := rob
        table := table
        toRob := []
        pendingFlush := none }
  | .rename => do
    enabled (s.phase = .tick)
    let (rename, scheduled) := scheduleRenaming p s.rename
    if scheduled then do
      let (rename, out) ← checked (renameInstructions p rename)
      return { s with
        rename := rename
        table := s.table.setStatuses (out.dispatchGroup.map RenamedInst.key) .renamed
        toDispatch := s.toDispatch ++ out.dispatchGroup }
    else return { s with rename := rename }
  | .dispatch => do
    enabled (s.phase = .tick)
    let (dispatch, table, out) ← checked (Dispatch.dispatchInstructions pd s.dispatch s.table)
    return { s with dispatch := dispatch, table := table, toRob := s.toRob ++ out.toRob }
  | .retire => do
    enabled (s.phase = .tick)
    let (rob, table, out) ← checked (Rob.retireInstructions pr s.rob s.table)
    return { s with
      rob := rob
      table := table
      retireAck := s.retireAck ++ out.retired
      pendingFlush := match out.flush with
        | some c => FlushManager.receiveFlush s.pendingFlush c
        | none => s.pendingFlush }
  | .dispatchCredits n => do
    enabled (s.phase = .tick)
    return { s with rename := creditsDispatchQueue s.rename n }
  | .robCredits n => do
    enabled (s.phase = .tick)
    return { s with dispatch := Dispatch.robCredits pd s.dispatch n }
  | .unitCredits d n => do
    enabled (s.phase = .tick)
    return { s with dispatch := Dispatch.receiveCredits pd s.dispatch d n }
  | .complete k mispredicted => do
    enabled (s.phase = .tick ∧ s.canComplete k mispredicted)
    return { s with table :=
      ⟨Function.update s.table.status k .completed,
       Function.update s.table.mispredicted k mispredicted⟩ }
  | .nextCycle => do
    enabled (s.phase = .tick)
    return { s with phase := .portUpdate }

/-! ## What a step does -/

/-- What a step has done, and what it needed.  What a unit has computed is said by its own
lemmas. -/
inductive Stepped (p : RenameParams) (pd : DispatchParams) (pr : RobParams) (s : InStep) :
    InStepOp → InStep → Prop where
  | decoded {insts : List Inst} (hphase : s.phase = .portUpdate)
      (horder : inProgramOrder s.lastDecoded insts = true) :
    Stepped p pd pr s (.decoded insts) { s with
      rename := updateRegcountData p { s.rename with uopQueue := s.rename.uopQueue ++ insts }
      table :=
        ⟨fun k => if k ∈ insts.map Inst.key then .decoded else s.table.status k,
         fun k => if k ∈ insts.map Inst.key then false else s.table.mispredicted k⟩
      lastDecoded := insts.getLast?.or s.lastDecoded }
  | deliverAck {t : RenameTables} (hphase : s.phase = .portUpdate)
      (hack : s.retireAck.foldlM (retireInst fun ri => s.table.status ri.key)
        s.rename.toRenameTables = .ok t) :
    Stepped p pd pr s .deliverAck
      { s with rename := { s.rename with toRenameTables := t }, retireAck := [] }
  | deliverRenamed (hphase : s.phase = .portUpdate) :
    Stepped p pd pr s .deliverRenamed { s with
      dispatch := Dispatch.scheduleDispatchSession pd
        { s.dispatch with dispatchQueue := s.dispatch.dispatchQueue ++ s.toDispatch }
      toDispatch := [] }
  | deliverDispatched (hphase : s.phase = .portUpdate) :
    Stepped p pd pr s .deliverDispatched { s with
      rob := { s.rob with reorderBuffer := s.rob.reorderBuffer ++ s.toRob }
      toRob := [] }
  | noFlush (hphase : s.phase = .portUpdate)
      (hports : s.toDispatch = [] ∧ s.toRob = [] ∧ s.retireAck = [])
      (hforward : FlushManager.forwardUpper s.pendingFlush = none) :
    Stepped p pd pr s .flush { s with phase := .tick, pendingFlush := none }
  | flush {c : FlushingCriteria} {t : RenameTables} {rob : RobState} {T : InstTable}
      {credits : ℕ} (hphase : s.phase = .portUpdate)
      (hports : s.toDispatch = [] ∧ s.toRob = [] ∧ s.retireAck = [])
      (hforward : FlushManager.forwardUpper s.pendingFlush = some c)
      (htables : flushTables c s.rename.toRenameTables = .ok t)
      (hrob : Rob.handleFlush s.rob s.table c = .ok (rob, T, credits)) :
    Stepped p pd pr s .flush { s with
      phase := .tick
      rename := { s.rename with
        toRenameTables := t, currentStall := .noDecodeInsts, uopQueue := [] }
      dispatch := (Dispatch.handleFlush s.dispatch).1
      rob := rob
      table := T
      toRob := []
      pendingFlush := none }
  | rename {stall : RenameStall} {r : RenameState} {out : RenameOut} (hphase : s.phase = .tick)
      (hsched : scheduleRenaming p s.rename = ({ s.rename with currentStall := stall }, true))
      (hren : renameInstructions p { s.rename with currentStall := stall } = .ok (r, out)) :
    Stepped p pd pr s .rename { s with
      rename := r
      table := s.table.setStatuses (out.dispatchGroup.map RenamedInst.key) .renamed
      toDispatch := s.toDispatch ++ out.dispatchGroup }
  | noRename {stall : RenameStall} (hphase : s.phase = .tick)
      (hsched : scheduleRenaming p s.rename =
        ({ s.rename with currentStall := stall }, false)) :
    Stepped p pd pr s .rename { s with rename := { s.rename with currentStall := stall } }
  | dispatch {d : DispatchState} {T : InstTable} {out : DispatchOut} (hphase : s.phase = .tick)
      (hdisp : Dispatch.dispatchInstructions pd s.dispatch s.table = .ok (d, T, out)) :
    Stepped p pd pr s .dispatch
      { s with dispatch := d, table := T, toRob := s.toRob ++ out.toRob }
  | retire {rob : RobState} {T : InstTable} {out : RetireOut} (hphase : s.phase = .tick)
      (hret : Rob.retireInstructions pr s.rob s.table = .ok (rob, T, out)) :
    Stepped p pd pr s .retire { s with
      rob := rob
      table := T
      retireAck := s.retireAck ++ out.retired
      pendingFlush := match out.flush with
        | some c => FlushManager.receiveFlush s.pendingFlush c
        | none => s.pendingFlush }
  | dispatchCredits {n : ℕ} (hphase : s.phase = .tick) :
    Stepped p pd pr s (.dispatchCredits n)
      { s with rename := creditsDispatchQueue s.rename n }
  | robCredits {n : ℕ} (hphase : s.phase = .tick) :
    Stepped p pd pr s (.robCredits n) { s with dispatch := Dispatch.robCredits pd s.dispatch n }
  | unitCredits {d : UnitId} {n : ℕ} (hphase : s.phase = .tick) :
    Stepped p pd pr s (.unitCredits d n)
      { s with dispatch := Dispatch.receiveCredits pd s.dispatch d n }
  | complete {k : InstKey} {mispredicted : Bool} (hphase : s.phase = .tick)
      (hcan : s.canComplete k mispredicted = true) :
    Stepped p pd pr s (.complete k mispredicted) { s with table :=
      ⟨Function.update s.table.status k .completed,
       Function.update s.table.mispredicted k mispredicted⟩ }
  | nextCycle (hphase : s.phase = .tick) :
    Stepped p pd pr s .nextCycle { s with phase := .portUpdate }

theorem step_stepped {s s' : InStep} {op : InStepOp} (h : s.step p pd pr op = .ok s') :
    Stepped p pd pr s op s' := by
  cases op with
  | decoded insts =>
    obtain ⟨u, hen, h⟩ := Run.bind_eq_ok.mp h
    obtain ⟨rename, hrename, h⟩ := Run.bind_eq_ok.mp h
    obtain rfl := Except.ok.inj h
    obtain ⟨-, -, hrename⟩ := Run.bind_eq_ok.mp (checked_eq_ok.mp hrename)
    obtain rfl := Except.ok.inj hrename
    obtain ⟨hphase, horder⟩ := of_decide_eq_true (enabled_eq_ok.mp hen)
    exact .decoded hphase horder
  | deliverAck =>
    obtain ⟨u, hen, h⟩ := Run.bind_eq_ok.mp h
    obtain ⟨rename, hrename, h⟩ := Run.bind_eq_ok.mp h
    obtain rfl := Except.ok.inj h
    obtain ⟨t, hack, hrename⟩ := Run.bind_eq_ok.mp (checked_eq_ok.mp hrename)
    obtain rfl := Except.ok.inj hrename
    exact .deliverAck (of_decide_eq_true (enabled_eq_ok.mp hen)) hack
  | deliverRenamed =>
    obtain ⟨u, hen, h⟩ := Run.bind_eq_ok.mp h
    obtain ⟨dispatch, hdispatch, h⟩ := Run.bind_eq_ok.mp h
    obtain rfl := Except.ok.inj h
    obtain ⟨-, -, hdispatch⟩ := Run.bind_eq_ok.mp (checked_eq_ok.mp hdispatch)
    obtain rfl := Except.ok.inj hdispatch
    exact .deliverRenamed (of_decide_eq_true (enabled_eq_ok.mp hen))
  | deliverDispatched =>
    obtain ⟨u, hen, h⟩ := Run.bind_eq_ok.mp h
    obtain ⟨rob, hrob, h⟩ := Run.bind_eq_ok.mp h
    obtain rfl := Except.ok.inj h
    obtain ⟨-, -, hrob⟩ := Run.bind_eq_ok.mp (checked_eq_ok.mp hrob)
    obtain rfl := Except.ok.inj hrob
    exact .deliverDispatched (of_decide_eq_true (enabled_eq_ok.mp hen))
  | flush =>
    obtain ⟨u, hen, h⟩ := Run.bind_eq_ok.mp h
    obtain ⟨hphase, hports⟩ := of_decide_eq_true (enabled_eq_ok.mp hen)
    rcases hforward : FlushManager.forwardUpper s.pendingFlush with _ | c
    · simp only [hforward] at h
      obtain rfl := Except.ok.inj h
      exact .noFlush hphase hports hforward
    · simp only [hforward] at h
      obtain ⟨⟨rename, renameCredits⟩, hrename, h⟩ := Run.bind_eq_ok.mp h
      obtain ⟨⟨rob, T, robCredits⟩, hrob, h⟩ := Run.bind_eq_ok.mp h
      obtain rfl := Except.ok.inj h
      obtain ⟨t, htables, hrename⟩ := Run.bind_eq_ok.mp (checked_eq_ok.mp hrename)
      obtain ⟨rfl, -⟩ := Prod.mk.inj (Except.ok.inj hrename)
      exact .flush hphase hports hforward htables (checked_eq_ok.mp hrob)
  | rename =>
    obtain ⟨u, hen, h⟩ := Run.bind_eq_ok.mp h
    have hphase := of_decide_eq_true (enabled_eq_ok.mp hen)
    obtain ⟨stall, hstall⟩ := scheduleRenaming_fst (p := p) s.rename
    rcases hsched : scheduleRenaming p s.rename with ⟨rename, scheduled⟩
    obtain rfl : rename = { s.rename with currentStall := stall } := by
      rw [← hstall, hsched]
    rw [hsched] at h
    cases scheduled with
    | true =>
      obtain ⟨⟨r, out⟩, hren, h⟩ := Run.bind_eq_ok.mp h
      obtain rfl := Except.ok.inj h
      exact .rename hphase hsched (checked_eq_ok.mp hren)
    | false =>
      obtain rfl := Except.ok.inj h
      exact .noRename hphase hsched
  | dispatch =>
    obtain ⟨u, hen, h⟩ := Run.bind_eq_ok.mp h
    obtain ⟨⟨d, T, out⟩, hdisp, h⟩ := Run.bind_eq_ok.mp h
    obtain rfl := Except.ok.inj h
    exact .dispatch (of_decide_eq_true (enabled_eq_ok.mp hen)) (checked_eq_ok.mp hdisp)
  | retire =>
    obtain ⟨u, hen, h⟩ := Run.bind_eq_ok.mp h
    obtain ⟨⟨rob, T, out⟩, hret, h⟩ := Run.bind_eq_ok.mp h
    obtain rfl := Except.ok.inj h
    exact .retire (of_decide_eq_true (enabled_eq_ok.mp hen)) (checked_eq_ok.mp hret)
  | dispatchCredits n =>
    obtain ⟨u, hen, h⟩ := Run.bind_eq_ok.mp h
    obtain rfl := Except.ok.inj h
    exact .dispatchCredits (of_decide_eq_true (enabled_eq_ok.mp hen))
  | robCredits n =>
    obtain ⟨u, hen, h⟩ := Run.bind_eq_ok.mp h
    obtain rfl := Except.ok.inj h
    exact .robCredits (of_decide_eq_true (enabled_eq_ok.mp hen))
  | unitCredits d n =>
    obtain ⟨u, hen, h⟩ := Run.bind_eq_ok.mp h
    obtain rfl := Except.ok.inj h
    exact .unitCredits (of_decide_eq_true (enabled_eq_ok.mp hen))
  | complete k mispredicted =>
    obtain ⟨u, hen, h⟩ := Run.bind_eq_ok.mp h
    obtain rfl := Except.ok.inj h
    obtain ⟨hphase, hcan⟩ := of_decide_eq_true (enabled_eq_ok.mp hen)
    exact .complete hphase hcan
  | nextCycle =>
    obtain ⟨u, hen, h⟩ := Run.bind_eq_ok.mp h
    obtain rfl := Except.ok.inj h
    exact .nextCycle (of_decide_eq_true (enabled_eq_ok.mp hen))

/-! ## The invariant -/

/-- All instructions that Rename has, oldest first. -/
def insts (s : InStep) : List Inst :=
  s.rename.instQueue.map RenamedInst.inst ++ s.rename.uopQueue

/-- The renamed instructions beyond those that have retired. -/
def unretired (s : InStep) : List RenamedInst :=
  s.rob.reorderBuffer ++ s.toRob ++ s.dispatch.dispatchQueue ++ s.toDispatch

/-- A flush that is pending is expected, and takes everything that has not retired and
everything that Decode can still send. -/
def FlushCovers (s : InStep) : Prop :=
  match s.pendingFlush with
  | none => s.rob.expectFlush = false
  | some c => s.rob.expectFlush = true ∧ c.isLowerPipeFlush = false ∧
    (∀ ri ∈ s.unretired, c.includedInFlush ri.inst = true) ∧
    (∀ i ∈ s.rename.uopQueue, c.includedInFlush i = true) ∧
    ∀ j, follows s.lastDecoded j = true → c.includedInFlush j = true

/-- The part of the invariant that does not need to know who writes the statuses. -/
structure Ordered (p : RenameParams) (x0 : ℕ) (s : InStep) : Prop where
  tables : ∃ h, TablesInv p x0 h s.rename.toRenameTables
  queue : s.rename.instQueue = s.retireAck ++ s.unretired
  order : s.insts.Pairwise fun i j => i.before j = true
  youngest : ∀ i ∈ s.insts, ∀ j, follows s.lastDecoded j = true → i.before j = true
  branches : ∀ i ∈ s.insts, s.table.mispredicted i.key = true → i.isBranch = true
  covers : s.FlushCovers
  rob_lt : s.dispatch.creditsRob < 2 ^ 32
  unit_lt : ∀ d, (s.dispatch.dispatchers d).unitCredits < 2 ^ 32

structure Inv (p : RenameParams) (x0 : ℕ) (s : InStep) : Prop extends Ordered p x0 s where
  acked : ∀ ri ∈ s.retireAck, s.table.status ri.key = .retired

theorem ordered_init (p : RenameParams) (x0 : ℕ) : Ordered p x0 (init p x0) where
  tables := ⟨[], tablesInv_init p x0⟩
  queue := rfl
  order := .nil
  youngest := by simp [insts, init, RenameState.init]
  branches := by simp [insts, init, RenameState.init]
  covers := rfl
  rob_lt := by simp [init]
  unit_lt := by simp [init]

theorem inv_init (p : RenameParams) (x0 : ℕ) : Inv p x0 (init p x0) :=
  { ordered_init p x0 with acked := by simp [init] }

namespace Ordered

variable {s s' : InStep}

/-- Distinct instructions have distinct keys. -/
theorem eq_of_key (H : Ordered p x0 s) {i j : Inst} (hi : i ∈ s.insts) (hj : j ∈ s.insts)
    (hkey : i.key = j.key) : i = j := by
  have hnodup : (s.insts.map Inst.key).Nodup :=
    List.pairwise_map.mpr (H.order.imp Inst.key_ne_of_before)
  exact List.inj_on_of_nodup_map hnodup hi hj hkey

theorem mem_insts_of_queue {ri : RenamedInst} (hri : ri ∈ s.rename.instQueue) :
    ri.inst ∈ s.insts :=
  List.mem_append_left _ (List.mem_map_of_mem hri)

/-- An acknowledged instruction is older than every other instruction in flight. -/
theorem key_ne_acked (H : Ordered p x0 s) {ra ri : RenamedInst} (ha : ra ∈ s.retireAck)
    (hri : ri ∈ s.unretired) : ra.key ≠ ri.key := by
  have horder := H.order
  unfold insts at horder
  rw [H.queue, List.map_append, List.append_assoc, List.pairwise_append] at horder
  exact Inst.key_ne_of_before (horder.2.2 _ (List.mem_map_of_mem ha) _
    (List.mem_append_left _ (List.mem_map_of_mem hri)))

/-! ## Deliveries -/

theorem decoded {insts : List Inst} (H : Ordered p x0 s)
    (hstep : s.step p pd pr (.decoded insts) = .ok s') : Ordered p x0 s' := by
  cases step_stepped hstep with
  | decoded _ horder =>
    obtain ⟨hpair, hfol, hlast⟩ := inProgramOrder_spec horder
    have hfresh : ∀ i ∈ s.insts, i.key ∉ insts.map Inst.key := by
      intro i hi hmem
      obtain ⟨j, hj, hkey⟩ := List.mem_map.mp hmem
      exact Inst.key_ne_of_before (H.youngest i hi j (hfol j hj)) hkey.symm
    have hinsts : InStep.insts { s with
        rename := updateRegcountData p { s.rename with uopQueue := s.rename.uopQueue ++ insts } }
        = s.insts ++ insts := by
      simp [InStep.insts, updateRegcountData]
    refine ⟨H.tables, H.queue, ?_, ?_, ?_, ?_, H.rob_lt, H.unit_lt⟩
    · show (InStep.insts { s with rename := _ }).Pairwise _
      rw [hinsts, List.pairwise_append]
      exact ⟨H.order, hpair, fun i hi j hj => H.youngest i hi j (hfol j hj)⟩
    · intro i hi j hj
      obtain ⟨hnew, hold⟩ := hlast j hj
      have hi' : i ∈ s.insts ++ insts := by
        rw [← hinsts]
        exact hi
      rcases List.mem_append.mp hi' with hi | hi
      · exact H.youngest i hi j hold
      · exact hnew i hi
    · intro i hi hmis
      have hi' : i ∈ s.insts ++ insts := by
        rw [← hinsts]
        exact hi
      have hmis' : (if i.key ∈ insts.map Inst.key then false else s.table.mispredicted i.key)
          = true := hmis
      rcases List.mem_append.mp hi' with hi | hi
      · rw [if_neg (hfresh i hi)] at hmis'
        exact H.branches i hi hmis'
      · rw [if_pos (List.mem_map_of_mem hi)] at hmis'
        cases hmis'
    · have hcov := H.covers
      unfold FlushCovers at hcov ⊢
      rcases hpend : s.pendingFlush with _ | c
      · simpa [hpend] using hcov
      · simp only [hpend] at hcov ⊢
        obtain ⟨hexp, hupper, hun, huop, hfut⟩ := hcov
        refine ⟨hexp, hupper, hun, fun i hi => ?_, fun j hj => hfut j (hlast j hj).2⟩
        rcases List.mem_append.mp hi with hi | hi
        · exact huop i hi
        · exact hfut i (hfol i hi)

theorem deliverAck (H : Ordered p x0 s) (hstep : s.step p pd pr .deliverAck = .ok s') :
    Ordered p x0 s' := by
  cases step_stepped hstep with
  | @deliverAck t _ hack =>
    obtain ⟨h, Ht⟩ := H.tables
    obtain ⟨t', ht', H', hq, -⟩ := TablesInv.retireMany_spec (fun ri => s.table.status ri.key)
      s.retireAck Ht H.queue (retireMany_status hack)
    obtain rfl : t = t' := Except.ok.inj (hack.symm.trans ht')
    have hsub : (t.instQueue.map RenamedInst.inst ++ s.rename.uopQueue).Sublist s.insts := by
      unfold InStep.insts
      rw [hq, H.queue, List.map_append]
      exact (List.sublist_append_right _ _).append_right _
    refine ⟨⟨_, H'⟩, ?_, H.order.sublist hsub, fun i hi => H.youngest i (hsub.subset hi),
      fun i hi => H.branches i (hsub.subset hi), H.covers, H.rob_lt, H.unit_lt⟩
    simpa [unretired] using hq

theorem deliverRenamed (H : Ordered p x0 s) (hstep : s.step p pd pr .deliverRenamed = .ok s') :
    Ordered p x0 s' := by
  cases step_stepped hstep
  have hun : ∀ d : DispatchState, d.dispatchQueue = s.dispatch.dispatchQueue ++ s.toDispatch →
      unretired { s with dispatch := d, toDispatch := [] } = s.unretired := by
    intro d hd
    simp [unretired, hd]
  refine ⟨H.tables, ?_, H.order, H.youngest, H.branches, ?_, by simpa using H.rob_lt,
    by simpa using H.unit_lt⟩
  · rw [hun _ (by simp)]
    exact H.queue
  · have hcov := H.covers
    unfold FlushCovers at hcov ⊢
    rw [hun _ (by simp)]
    exact hcov

theorem deliverDispatched (H : Ordered p x0 s)
    (hstep : s.step p pd pr .deliverDispatched = .ok s') : Ordered p x0 s' := by
  cases step_stepped hstep
  have hun : unretired { s with
      rob := { s.rob with reorderBuffer := s.rob.reorderBuffer ++ s.toRob }
      toRob := [] } = s.unretired := by
    simp [unretired]
  refine ⟨H.tables, ?_, H.order, H.youngest, H.branches, ?_, H.rob_lt, H.unit_lt⟩
  · rw [hun]
    exact H.queue
  · have hcov := H.covers
    unfold FlushCovers at hcov ⊢
    rw [hun]
    exact hcov

/-! ## Flushes -/

/-- No flush of the lower pipe is pending, so a pending one goes to the upper pipe. -/
theorem forwardUpper_eq (H : Ordered p x0 s) :
    FlushManager.forwardUpper s.pendingFlush = s.pendingFlush := by
  have hcov := H.covers
  unfold FlushCovers at hcov
  rcases hpend : s.pendingFlush with _ | c
  · rfl
  · simp only [hpend] at hcov
    simp [FlushManager.forwardUpper, hcov.2.1]

/-- When a flush runs, every unit throws away all it has. -/
theorem flush (H : Ordered p x0 s) (hstep : s.step p pd pr .flush = .ok s') : Ordered p x0 s' := by
  have hcov := H.covers
  unfold FlushCovers at hcov
  cases step_stepped hstep with
  | noFlush _ _ hforward =>
    rw [H.forwardUpper_eq] at hforward
    rw [hforward] at hcov
    exact ⟨H.tables, H.queue, H.order, H.youngest, H.branches, hcov, H.rob_lt,
      H.unit_lt⟩
  | @flush c t rb T _ _ hports hforward htables hrob =>
    obtain ⟨hport, hrobPort, hack⟩ := hports
    rw [H.forwardUpper_eq] at hforward
    rw [hforward] at hcov
    obtain ⟨hexp, hupper, hun, -, -⟩ := hcov
    obtain ⟨h, Ht⟩ := H.tables
    obtain ⟨t', ht', Ht', hq, -⟩ := Ht.flushTables_spec c
    obtain rfl : t = t' := Except.ok.inj (htables.symm.trans ht')
    obtain ⟨hexp', hbuf, -, hmis⟩ := Rob.handleFlush_spec hrob
    have hqueue : t.instQueue = [] := by
      rw [hq, H.queue, hack, List.nil_append, List.rdropWhile_eq_nil_iff]
      exact hun
    have hbuffer : rb.reorderBuffer = [] := by
      rw [hbuf, List.rdropWhile_eq_nil_iff]
      exact fun ri hri => hun ri (by simp [unretired, hri])
    refine ⟨⟨h, Ht'⟩, ?_, ?_, ?_, ?_, hexp', H.rob_lt, H.unit_lt⟩
    · simp [hqueue, hbuffer, unretired, Dispatch.handleFlush, hport, hack]
    · simp [InStep.insts, hqueue]
    · simp [InStep.insts, hqueue]
    · simp [InStep.insts, hqueue]

/-! ## Renaming, dispatching and retiring -/

theorem rename (H : Ordered p x0 s) (hstep : s.step p pd pr .rename = .ok s') :
    Ordered p x0 s' := by
  cases step_stepped hstep with
  | noRename _ _ =>
    exact ⟨H.tables, H.queue, H.order, H.youngest, H.branches, H.covers, H.rob_lt,
      H.unit_lt⟩
  | @rename stall r out _ _ hren =>
    obtain ⟨h, Ht⟩ := H.tables
    obtain ⟨Ht', hq, huop, -⟩ := renameInstructions_spec
      (s := { s.rename with currentStall := stall }) Ht hren
    have hq' : r.instQueue = s.rename.instQueue ++ out.dispatchGroup := hq
    have huop' : s.rename.uopQueue = out.dispatchGroup.map RenamedInst.inst ++ r.uopQueue := huop
    have hinsts : r.instQueue.map RenamedInst.inst ++ r.uopQueue = s.insts := by
      unfold InStep.insts
      rw [hq', huop']
      simp
    refine ⟨⟨h, Ht'⟩, ?_, ?_, ?_, ?_, ?_, H.rob_lt, H.unit_lt⟩
    · rw [hq', H.queue]
      simp [unretired]
    · show (r.instQueue.map RenamedInst.inst ++ r.uopQueue).Pairwise _
      rw [hinsts]
      exact H.order
    · intro i hi
      exact H.youngest i (by rw [← hinsts]; exact hi)
    · intro i hi
      exact H.branches i (by rw [← hinsts]; exact hi)
    · have hcov := H.covers
      unfold FlushCovers at hcov ⊢
      rcases hpend : s.pendingFlush with _ | c
      · simpa [hpend] using hcov
      · simp only [hpend] at hcov ⊢
        obtain ⟨hexp, hupper, hun, huopc, hfut⟩ := hcov
        refine ⟨hexp, hupper, fun ri hri => ?_, fun i hi => ?_, hfut⟩
        · simp only [unretired, List.mem_append, ← or_assoc] at hri
          rcases hri with hri | hri
          · exact hun ri (by simpa [unretired, or_assoc] using hri)
          · exact huopc ri.inst (by
              rw [huop']
              exact List.mem_append_left _ (List.mem_map_of_mem hri))
        · exact huopc i (by rw [huop']; exact List.mem_append_right _ hi)

theorem dispatch (H : Ordered p x0 s) (hstep : s.step p pd pr .dispatch = .ok s') :
    Ordered p x0 s' := by
  cases step_stepped hstep with
  | @dispatch d T out _ hdisp =>
    have D := Dispatch.dispatchInstructions_spec H.rob_lt H.unit_lt hdisp
    have hun : unretired { s with dispatch := d, table := T, toRob := s.toRob ++ out.toRob }
        = s.unretired := by
      simp [unretired, D.queue]
    refine ⟨H.tables, ?_, H.order, H.youngest, ?_, ?_, ?_, fun e => ?_⟩
    · rw [hun]
      exact H.queue
    · intro i hi hmis
      refine H.branches i hi ?_
      rw [← D.mispredicted]
      exact hmis
    · have hcov := H.covers
      unfold FlushCovers at hcov ⊢
      rw [hun]
      exact hcov
    · have := D.creditsRob
      have := H.rob_lt
      show d.creditsRob < _
      omega
    · have := D.unitCredits e
      have := H.unit_lt e
      show (d.dispatchers e).unitCredits < _
      omega

/-- An instruction that makes the ROB ask for a flush is one that can. -/
theorem canFlush_of_flushCause (H : Ordered p x0 s) {ri : RenamedInst} {cause : FlushCause}
    (hri : ri ∈ s.rename.instQueue) (hcause : Rob.flushCause s.table ri = some cause) :
    ri.inst.canFlush = true ∧ (cause = .misprediction ∨ cause = .postSync) := by
  unfold Rob.flushCause at hcause
  split at hcause
  · rename_i hmis
    have hbranch := H.branches ri.inst (mem_insts_of_queue hri) hmis
    exact ⟨by simp [Inst.canFlush, hbranch], .inl (Option.some.inj hcause).symm⟩
  · split at hcause
    · rename_i hsys
      exact ⟨by simp [Inst.canFlush, hsys], .inr (Option.some.inj hcause).symm⟩
    · cases hcause

/-- The flush that a retired instruction asks for is exclusive and goes to all units. -/
theorem criteria_of_flushCause (H : Ordered p x0 s) {ri : RenamedInst} {cause : FlushCause}
    {c : FlushingCriteria} (hri : ri ∈ s.rename.instQueue)
    (hcause : Rob.flushCause s.table ri = some cause)
    (hmake : FlushingCriteria.make cause ri.inst = .ok c) :
    c.isInclusive = false ∧ c.uniqueId = ri.inst.uniqueId ∧ c.isLowerPipeFlush = false := by
  rcases (H.canFlush_of_flushCause hri hcause).2 with rfl | rfl
  · cases Except.ok.inj hmake
    exact ⟨rfl, rfl, rfl⟩
  · cases Except.ok.inj hmake
    exact ⟨rfl, rfl, rfl⟩

theorem retire (H : Ordered p x0 s) (hstep : s.step p pd pr .retire = .ok s') :
    Ordered p x0 s' := by
  cases step_stepped hstep with
  | @retire r T out _ hret =>
    obtain ⟨R, hidle⟩ := Rob.retireInstructions_spec hret
    have hun : s.unretired = out.retired ++
        (r.reorderBuffer ++ s.toRob ++ s.dispatch.dispatchQueue ++ s.toDispatch) := by
      simp [unretired, R.buffer]
    refine ⟨H.tables, ?_, H.order, H.youngest, ?_, ?_, H.rob_lt, H.unit_lt⟩
    · rw [H.queue, hun, ← List.append_assoc]
      rfl
    · intro i hi hmis
      refine H.branches i hi ?_
      rw [← R.mispredicted]
      exact hmis
    · have hcov := H.covers
      unfold FlushCovers at hcov
      rcases hpend : s.pendingFlush with _ | c
      · simp only [hpend] at hcov
        rcases R.flush with ⟨hexp, hfl⟩ | ⟨front, ri, cause, c, hnew, hcause, hmake, hexp, hfl⟩
        · have hnone : out.flush = none := hfl
          simp only [FlushCovers, hnone]
          exact hexp.trans hcov
        · -- the cause of the flush is the last entry of the group, and older than all that stay
          have hri : ri ∈ s.rename.instQueue := by
            rw [H.queue, hun, hnew]
            simp
          obtain ⟨hcan, -⟩ := H.canFlush_of_flushCause hri hcause
          have hc := H.criteria_of_flushCause hri hcause hmake
          have hincl : ∀ j, ri.inst.before j = true → c.includedInFlush j = true := by
            intro j hj
            simp only [FlushingCriteria.includedInFlush, FlushingCriteria.includesId, hc.1, hc.2.1]
            simpa using Inst.uniqueId_lt_of_before hj hcan
          have horder := H.order
          unfold InStep.insts at horder
          rw [H.queue, hun, hnew] at horder
          have hlater : ∀ j, j ∈ (r.reorderBuffer ++ s.toRob ++ s.dispatch.dispatchQueue ++
              s.toDispatch).map RenamedInst.inst ++ s.rename.uopQueue →
              ri.inst.before j = true := by
            have hsplit : (s.retireAck ++ (front ++ [ri] ++ (r.reorderBuffer ++ s.toRob ++
                s.dispatch.dispatchQueue ++ s.toDispatch))).map RenamedInst.inst ++
                s.rename.uopQueue
                = (s.retireAck ++ front).map RenamedInst.inst ++ ri.inst ::
                  ((r.reorderBuffer ++ s.toRob ++ s.dispatch.dispatchQueue ++
                    s.toDispatch).map RenamedInst.inst ++ s.rename.uopQueue) := by
              simp
            rw [hsplit, List.pairwise_append, List.pairwise_cons] at horder
            exact horder.2.1.1
          simp only [FlushCovers, hfl, FlushManager.receiveFlush]
          refine ⟨hexp, hc.2.2, fun rj hrj => ?_, fun i hi => ?_, fun j hj => ?_⟩
          · exact hincl rj.inst
              (hlater rj.inst (List.mem_append_left _ (List.mem_map_of_mem hrj)))
          · exact hincl i (hlater i (List.mem_append_right _ hi))
          · exact hincl j (H.youngest ri.inst (mem_insts_of_queue hri) j hj)
      · simp only [hpend] at hcov
        obtain ⟨rfl, rfl, rfl⟩ := hidle hcov.1
        exact hcov

/-! ## Everything else -/

theorem complete {k : InstKey} {mispredicted : Bool} (H : Ordered p x0 s)
    (hstep : s.step p pd pr (.complete k mispredicted) = .ok s') : Ordered p x0 s' := by
  cases step_stepped hstep with
  | complete _ hcan =>
    unfold canComplete at hcan
    rcases hfind : s.rename.instQueue.find? fun ri => ri.key = k with _ | ri
    · rw [hfind] at hcan
      cases hcan
    · rw [hfind] at hcan
      have hkey : ri.key = k := by simpa using List.find?_some hfind
      have hmem : ri ∈ s.rename.instQueue := List.mem_of_find?_eq_some hfind
      obtain ⟨-, hmis⟩ := (Bool.and_eq_true _ _).mp hcan
      refine ⟨H.tables, H.queue, H.order, H.youngest, ?_, H.covers, H.rob_lt, H.unit_lt⟩
      intro i hi hbr
      by_cases hik : i.key = k
      · have heq : i = ri.inst :=
          H.eq_of_key hi (mem_insts_of_queue hmem) (hik.trans hkey.symm)
        have hbr' : Function.update s.table.mispredicted k mispredicted i.key = true := hbr
        rw [hik, Function.update_self] at hbr'
        rw [heq]
        simpa [hbr'] using hmis
      · refine H.branches i hi ?_
        have hbr' : Function.update s.table.mispredicted k mispredicted i.key = true := hbr
        rwa [Function.update_of_ne hik] at hbr'

theorem step {op : InStepOp} (H : Ordered p x0 s) (hstep : s.step p pd pr op = .ok s') :
    Ordered p x0 s' := by
  cases op with
  | decoded insts => exact H.decoded hstep
  | deliverAck => exact H.deliverAck hstep
  | deliverRenamed => exact H.deliverRenamed hstep
  | deliverDispatched => exact H.deliverDispatched hstep
  | flush => exact H.flush hstep
  | rename => exact H.rename hstep
  | dispatch => exact H.dispatch hstep
  | retire => exact H.retire hstep
  | complete k mispredicted => exact H.complete hstep
  | dispatchCredits n =>
    cases step_stepped hstep
    exact ⟨H.tables, H.queue, H.order, H.youngest, H.branches, H.covers, H.rob_lt,
      H.unit_lt⟩
  | robCredits n =>
    cases step_stepped hstep
    have hun : unretired { s with dispatch := Dispatch.robCredits pd s.dispatch n }
        = s.unretired := by
      simp [unretired, Dispatch.robCredits]
    refine ⟨H.tables, by rw [hun]; exact H.queue, H.order, H.youngest, H.branches, ?_,
      by simpa [Dispatch.robCredits] using u32Add_lt _ _,
      by simpa [Dispatch.robCredits] using H.unit_lt⟩
    have hcov := H.covers
    unfold FlushCovers at hcov ⊢
    rw [hun]
    exact hcov
  | unitCredits d n =>
    cases step_stepped hstep
    have hun : unretired { s with dispatch := Dispatch.receiveCredits pd s.dispatch d n }
        = s.unretired := by
      simp [unretired, Dispatch.receiveCredits]
    refine ⟨H.tables, by rw [hun]; exact H.queue, H.order, H.youngest, H.branches, ?_,
      by simpa [Dispatch.receiveCredits] using H.rob_lt, fun e => ?_⟩
    · have hcov := H.covers
      unfold FlushCovers at hcov ⊢
      rw [hun]
      exact hcov
    · by_cases he : e = d
      · subst he
        simpa [Dispatch.receiveCredits] using u32Add_lt _ _
      · simpa [Dispatch.receiveCredits, he] using H.unit_lt e
  | nextCycle =>
    cases step_stepped hstep
    exact ⟨H.tables, H.queue, H.order, H.youngest, H.branches, H.covers, H.rob_lt,
      H.unit_lt⟩

end Ordered

/-! ## Acknowledged instructions -/

namespace Inv

variable {s s' : InStep}

/-- Statuses of unretired instructions can change without touching the acknowledged ones. -/
theorem acked_of_status (H : Inv p x0 s) {new : List RenamedInst} {st : InstStatus}
    {T : InstTable} (hnew : ∀ ri ∈ new, ri ∈ s.unretired)
    (hT : T.status = fun k => if k ∈ new.map RenamedInst.key then st else s.table.status k) :
    ∀ ri ∈ s.retireAck, T.status ri.key = .retired := by
  intro ra ha
  have hnot : ra.key ∉ new.map RenamedInst.key := by
    intro hmem
    obtain ⟨ri, hri, hkey⟩ := List.mem_map.mp hmem
    exact H.key_ne_acked ha (hnew ri hri) hkey.symm
  rw [hT]
  simp only [hnot, if_false]
  exact H.acked ra ha

theorem deliverAck_ok (H : Inv p x0 s) :
    ∃ t, getAckFromROB (fun ri => s.table.status ri.key) s.rename s.retireAck = .ok t := by
  obtain ⟨h, Ht⟩ := H.tables
  obtain ⟨t, ht, -⟩ := TablesInv.retireMany_spec (fun ri => s.table.status ri.key)
    s.retireAck Ht H.queue H.acked
  exact ⟨_, Run.bind_eq_ok.mpr ⟨t, ht, rfl⟩⟩

/-- An instruction on its way to Rename stays marked as retired. -/
theorem acked_step {op : InStepOp} (H : Inv p x0 s) (hstep : s.step p pd pr op = .ok s') :
    ∀ ri ∈ s'.retireAck, s'.table.status ri.key = .retired := by
  have hmem : ∀ ra ∈ s.retireAck, ra.inst ∈ s.rename.instQueue.map RenamedInst.inst :=
    fun ra ha => List.mem_map_of_mem (by rw [H.queue]; simp [ha])
  cases step_stepped hstep with
  | @decoded insts _ horder =>
    obtain ⟨-, hfol, -⟩ := inProgramOrder_spec horder
    intro ra ha
    have hfresh : ra.inst.key ∉ insts.map Inst.key := by
      intro hin
      obtain ⟨j, hj, hkey⟩ := List.mem_map.mp hin
      have hbefore := H.youngest ra.inst (List.mem_append_left _ (hmem ra ha)) j (hfol j hj)
      exact Inst.key_ne_of_before hbefore hkey.symm
    show (if ra.inst.key ∈ insts.map Inst.key then _ else _) = _
    rw [if_neg hfresh]
    exact H.acked ra ha
  | deliverAck _ _ => simp
  | flush _ hports _ _ _ => simp [hports.2.2]
  | @rename stall r out _ _ hren =>
    obtain ⟨h, Ht⟩ := H.tables
    obtain ⟨-, -, huop, -⟩ := renameInstructions_spec
      (s := { s.rename with currentStall := stall }) Ht hren
    have huop' : s.rename.uopQueue = out.dispatchGroup.map RenamedInst.inst ++ r.uopQueue :=
      huop
    intro ra ha
    have hnot : ra.key ∉ out.dispatchGroup.map RenamedInst.key := by
      intro hin
      obtain ⟨ri, hri, hkey⟩ := List.mem_map.mp hin
      have horder := H.order
      unfold InStep.insts at horder
      rw [huop', List.pairwise_append] at horder
      exact Inst.key_ne_of_before (horder.2.2 _ (hmem ra ha) ri.inst
        (List.mem_append_left _ (List.mem_map_of_mem hri))) hkey.symm
    show (if ra.key ∈ out.dispatchGroup.map RenamedInst.key then _ else _) = _
    rw [if_neg hnot]
    exact H.acked ra ha
  | dispatch _ hdisp =>
    have D := Dispatch.dispatchInstructions_spec H.rob_lt H.unit_lt hdisp
    exact H.acked_of_status (fun ri hri => by simp [unretired, D.queue, hri]) D.status
  | @retire rob T out _ hret =>
    obtain ⟨R, -⟩ := Rob.retireInstructions_spec hret
    intro ri hri
    rcases List.mem_append.mp hri with hri | hri
    · exact H.acked_of_status (fun rj hrj => by simp [unretired, R.buffer, hrj]) R.status ri hri
    · show T.status ri.key = _
      rw [R.status]
      simp only [List.mem_map_of_mem hri, if_true]
  | @complete k mispredicted _ hcan =>
    obtain ⟨rj, -, hcan⟩ := (Option.any_eq_true _ _).mp hcan
    obtain ⟨hstatus, -⟩ := (Bool.and_eq_true _ _).mp hcan
    intro ra ha
    have hne : ra.key ≠ k := by
      intro heq
      have hret := H.acked ra ha
      rw [heq] at hret
      simp [hret] at hstatus
    show Function.update s.table.status k _ ra.key = _
    rw [Function.update_of_ne hne]
    exact H.acked ra ha
  | _ => exact H.acked

theorem step {op : InStepOp} (H : Inv p x0 s) (hstep : s.step p pd pr op = .ok s') :
    Inv p x0 s' :=
  { H.toOrdered.step hstep with acked := H.acked_step hstep }

end Inv

theorem reachable_inv {s : InStep}
    (hs : Run.Reachable (InStep.step p pd pr) (InStep.init p x0) s) : Inv p x0 s :=
  hs.invariant (inv_init p x0) fun _ _ _ H hstep => H.step hstep

/-! ## Assertions that cannot fail -/

/-- Every assertion but the two about units that are out of step. -/
def InSync (a : Assertion) : Prop := a ≠ .renameOutOfSync ∧ a ≠ .unexpectedFlush

theorem Inv.flush_failsIn {s : InStep} (H : Inv p x0 s) :
    Run.FailsIn (Stop.In InSync) (s.step p pd pr .flush) := by
  refine .bind (enabled_failsIn _) fun _ => ?_
  have hcov := H.covers
  unfold FlushCovers at hcov
  rcases hpend : s.pendingFlush with _ | c
  · exact .ok _
  · simp only [hpend] at hcov
    obtain ⟨hexp, hupper, -⟩ := hcov
    have hforward : FlushManager.forwardUpper (some c) = some c := by
      simp [FlushManager.forwardUpper, hupper]
    simp only [hforward]
    obtain ⟨h, Ht⟩ := H.tables
    obtain ⟨t, ht, -⟩ := Ht.flushTables_spec c
    have hren : handleFlush s.rename c = .ok
        ({ s.rename with
            toRenameTables := t, currentStall := .noDecodeInsts, uopQueue := [] },
          s.rename.uopQueue.length) := Run.bind_eq_ok.mpr ⟨t, ht, rfl⟩
    have hrob : Run.FailsIn InSync (Rob.handleFlush s.rob s.table c) := by
      unfold Rob.handleFlush
      rw [hexp]
      exact .bind (.ok ()) fun _ => .ok _
    refine .bind (checked_failsIn (.of_eq_ok hren)) fun _ => ?_
    exact (checked_failsIn hrob).bind fun _ => .ok _

theorem Inv.step_failsIn {s : InStep} (H : Inv p x0 s) (op : InStepOp) :
    Run.FailsIn (Stop.In InSync) (s.step p pd pr op) := by
  have hmem : ∀ {L : List Assertion} {α : Type} {x : Except Assertion α},
      Run.FailsIn (· ∈ L) x → .renameOutOfSync ∉ L → .unexpectedFlush ∉ L →
      Run.FailsIn (Stop.In InSync) (checked x) := by
    intro L α x hx h1 h2
    refine checked_failsIn (hx.mono fun a ha => ⟨?_, ?_⟩)
    · rintro rfl
      exact h1 ha
    · rintro rfl
      exact h2 ha
  have hfull : ∀ {b : Bool} {a : Assertion}, InSync a →
      Run.FailsIn InSync (spartaAssert b a) := fun ha => spartaAssert_failsIn ha
  cases op with
  | decoded insts =>
    refine .bind (enabled_failsIn _) fun _ => .bind (checked_failsIn ?_) fun _ => .ok _
    exact .bind (hfull ⟨by decide, by decide⟩) fun _ => .ok _
  | deliverAck =>
    obtain ⟨t, hack⟩ := H.deliverAck_ok
    exact .bind (enabled_failsIn _) fun _ => .bind (checked_failsIn (.of_eq_ok hack)) fun _ => .ok _
  | deliverRenamed =>
    refine .bind (enabled_failsIn _) fun _ => .bind (checked_failsIn ?_) fun _ => .ok _
    exact .bind (hfull ⟨by decide, by decide⟩) fun _ => .ok _
  | deliverDispatched =>
    refine .bind (enabled_failsIn _) fun _ => .bind (checked_failsIn ?_) fun _ => .ok _
    exact .bind (hfull ⟨by decide, by decide⟩) fun _ => .ok _
  | flush => exact H.flush_failsIn
  | rename =>
    refine .bind (enabled_failsIn _) fun _ => ?_
    dsimp only
    split
    · exact .bind (hmem (renameInstructions_failsIn _) (by decide) (by decide)) fun _ => .ok _
    · exact .ok _
  | dispatch =>
    refine .bind (enabled_failsIn _) fun _ => ?_
    exact .bind (hmem (Dispatch.dispatchInstructions_failsIn _ _) (by decide) (by decide))
      fun _ => .ok _
  | retire =>
    refine .bind (enabled_failsIn _) fun _ => ?_
    exact .bind (hmem (Rob.retireInstructions_failsIn _ _) (by decide) (by decide))
      fun _ => .ok _
  | dispatchCredits n => exact .bind (enabled_failsIn _) fun _ => .ok _
  | robCredits n => exact .bind (enabled_failsIn _) fun _ => .ok _
  | unitCredits d n => exact .bind (enabled_failsIn _) fun _ => .ok _
  | complete k mispredicted => exact .bind (enabled_failsIn _) fun _ => .ok _
  | nextCycle => exact .bind (enabled_failsIn _) fun _ => .ok _

end InStep

/-- In every reachable state, so at the end of every cycle, Rename's queue of instructions in
flight is, in order: the retired group on its way to Rename, the reorder buffer, the group on
its way there, the dispatch queue and the group on its way to that.  No step fails because
Rename and the ROB are out of sync, or because the ROB did not expect a flush. -/
theorem units_in_step (p : RenameParams) (x0 : ℕ) (pd : DispatchParams) (pr : RobParams)
    {s : InStep} (hs : Run.Reachable (InStep.step p pd pr) (InStep.init p x0) s) :
    s.rename.instQueue = s.retireAck ++ s.rob.reorderBuffer ++ s.toRob ++
        s.dispatch.dispatchQueue ++ s.toDispatch ∧
      (∀ op, s.step p pd pr op ≠ .error (.assertion .renameOutOfSync)) ∧
      ∀ op, s.step p pd pr op ≠ .error (.assertion .unexpectedFlush) := by
  have H := InStep.reachable_inv hs
  refine ⟨?_, fun op => ?_, fun op => ?_⟩
  · rw [H.queue]
    simp [InStep.unretired]
  · exact (H.step_failsIn op).ne fun h => h.1 rfl
  · exact (H.step_failsIn op).ne fun h => h.2 rfl

/-- A branch and a younger instruction are renamed and dispatched; the branch completes as
mispredicted and retires, and the flush it asks for is pending. -/
def mispredictOps : List InStepOp :=
  [.dispatchCredits 10, .robCredits 30, .unitCredits (.iq 0) 8, .unitCredits (.iq 1) 8,
   .nextCycle,
   .decoded [{ uniqueId := 1, programId := 1, pipe := .br, isBranch := true },
             { uniqueId := 2, programId := 2, dests := [⟨3, .rd, .integer⟩]
               dests_lt := OpInfo.single_lt (nat_lit 3) .rd
               dests_distinct := OpInfo.single_distinct (nat_lit 3) .rd }],
   .flush, .rename, .nextCycle, .deliverRenamed, .flush, .dispatch, .nextCycle,
   .deliverDispatched, .flush, .complete (1, 0) true, .retire, .nextCycle, .deliverAck]

theorem units_in_step_sample :
    ∃ s, Run.Reachable
        (InStep.step {} { dispatchers := fun _ => [.iq 0, .iq 1] } {}) (InStep.init {} 0) s ∧
      s.pendingFlush.isSome = true ∧ s.rename.instQueue.length = 1 ∧
      s.rename.instQueue = s.retireAck ++ s.rob.reorderBuffer ++ s.toRob ++
        s.dispatch.dispatchQueue ++ s.toDispatch := by
  have heval : (mispredictOps.foldlM
      (InStep.step {} { dispatchers := fun _ => [.iq 0, .iq 1] } {})
      (InStep.init {} 0)).toOption.map
        (fun s => (s.pendingFlush.isSome, s.rename.instQueue.length)) = some (true, 1) := by
    decide +kernel
  obtain ⟨s, hs, hval⟩ := Run.ok_of_eval heval
  obtain ⟨hpend, hlen⟩ := Prod.mk.inj hval
  exact ⟨s, ⟨_, hs⟩, hpend, hlen, (units_in_step {} 0 _ {} ⟨_, hs⟩).1⟩

end Olympia
