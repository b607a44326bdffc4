import Olympia.Lib.Credit
import Olympia.Overflow

/-!
# The credits from Decode to the execution units

Decode, Rename, Dispatch, the issue queues with their execution pipes, and the LSU, joined by the
ports that carry instructions down and credits up.  Fetch, the ROB and the data cache are left
open: any instructions may be fetched, any acknowledgement and any flush may arrive, and the
status of any instruction may change at any time.

There is a credit loop between each unit and the next, and one for each execution unit.  All
have the same shape, and in all of them the receiver returns one credit for each entry that
leaves its queue: Rename when it renames, Dispatch when it dispatches, an issue queue when it
issues, the LSU when a load completes or a retired store has been written, and each of them for
the entries a flush removes.
-/

namespace Olympia

structure UnitFlow where
  phase : Phase := .tick
  decode : DecodeState := {}
  rename : RenameState
  dispatch : DispatchState := {}
  units : Units := {}
  table : InstTable := ⟨fun _ => .beforeFetch, fun _ => false⟩
  /-- the group on the port from Decode to Rename -/
  toRename : List Inst := []
  /-- the credit messages from Rename to Decode -/
  uopCredits : List ℕ
  /-- the group on the port from Rename to Dispatch -/
  toDispatch : List RenamedInst := []
  /-- the credit messages from Dispatch to Rename -/
  dispatchCredits : List ℕ
  /-- the instructions on the ports from the dispatchers to their units -/
  toUnit : List (UnitId × RenamedInst) := []
  /-- the credit messages from the units to their dispatchers -/
  unitCredits : List (UnitId × ℕ)

/-- What happens in the units, and what comes from outside.  A number `i` picks one of the
messages on a port. -/
inductive UnitFlowOp where
  | fetched (insts : List Inst)
  /-- a vset that Decode waits for has executed -/
  | vset (i : Inst)
  /-- the group of Decode arrives at Rename -/
  | deliverDecoded
  /-- the group of Rename arrives at Dispatch -/
  | deliverRenamed
  /-- a dispatched instruction arrives at its unit -/
  | deliverDispatched (i : ℕ)
  /-- the ROB acknowledges a retired group to Rename -/
  | retireAck (grp : List RenamedInst)
  /-- the ROB acknowledges a retired store to the LSU -/
  | storeAck (ri : RenamedInst)
  /-- the flush phase of a cycle, with or without a flush -/
  | flush (c : Option FlushingCriteria)
  | decode
  | rename
  | dispatch
  | units (op : UnitsOp)
  /-- the oldest credit message arrives at Decode -/
  | uopCredit
  /-- the oldest credit message arrives at Rename -/
  | dispatchCredit
  | unitCredit (i : ℕ)
  | robCredits (credits : ℕ)
  /-- another unit writes the status of an instruction -/
  | status (k : InstKey) (st : InstStatus)
  | nextCycle

namespace UnitFlow

/-- After startup each unit has sent the size of its queue. -/
def init (p : RenameParams) (x0 : ℕ) (pd : DispatchParams) (pu : UnitsParams) : UnitFlow where
  rename := RenameState.init p x0
  uopCredits := [p.renameQueueDepth]
  dispatchCredits := [pd.dispatchQueueDepth]
  unitCredits := pu.units.map fun d => (d, pu.capacity d)

/-- The flush handlers of the units below Decode. -/
def flushUnits (pu : UnitsParams) (s : UnitFlow) (c : FlushingCriteria) :
    Except Assertion UnitFlow := do
  let (rename, uopCredits) ← handleFlush s.rename c
  let (dispatch, dispatchCredits) := Dispatch.handleFlush s.dispatch
  return { s with
    rename := rename
    dispatch := dispatch
    units := s.units.flush c
    uopCredits := s.uopCredits ++ creditMessage uopCredits
    dispatchCredits := s.dispatchCredits ++ [dispatchCredits]
    unitCredits := s.unitCredits ++
      ((pu.units.map fun d => (d, s.units.flushCredits c d)).filter fun m => m.2 ≠ 0) }

def step (q : DecodeParams) (p : RenameParams) (pd : DispatchParams) (pu : UnitsParams)
    (s : UnitFlow) : UnitFlowOp → Except Stop UnitFlow
  | .fetched insts => do
    enabled (s.phase = .portUpdate)
    return { s with decode := Decode.fetchBufferAppended s.decode insts }
  | .vset i => do
    enabled (s.phase = .portUpdate)
    return { s with decode := Decode.processVset s.decode i }
  | .deliverDecoded => do
    enabled (s.phase = .portUpdate)
    let rename ← checked (decodedInstructions p s.rename s.toRename)
    return { s with rename := rename, toRename := [] }
  | .deliverRenamed => do
    enabled (s.phase = .portUpdate)
    let dispatch ← checked (Dispatch.dispatchQueueAppended pd s.dispatch s.toDispatch)
    return { s with dispatch := dispatch, toDispatch := [] }
  | .deliverDispatched i =>
    match s.toUnit[i]? with
    | none => .error .disabled
    | some (d, ri) => do
      enabled (s.phase = .portUpdate)
      let (units, table) ← checked (s.units.receive pu s.table s.rename.scoreboards d ri)
      return { s with units := units, table := table, toUnit := s.toUnit.eraseIdx i }
  | .retireAck grp => do
    enabled (s.phase = .portUpdate)
    let rename ← checked (getAckFromROB (fun ri => s.table.status ri.key) s.rename grp)
    return { s with rename := rename }
  | .storeAck ri => do
    enabled (s.phase = .portUpdate)
    let lsu ← checked (Lsu.getAckFromROB s.units.lsu s.table ri)
    return { s with units := { s.units with lsu := lsu } }
  | .flush c => do
    -- flushes come after everything sent in the last cycle has arrived
    enabled (s.phase = .portUpdate ∧ s.toRename = [] ∧ s.toDispatch = [] ∧ s.toUnit = [])
    match c with
    | none => return { s with phase := .tick }
    | some c => do
      let s := { s with phase := .tick, decode := (Decode.handleFlush s.decode c).1 }
      match FlushManager.forwardUpper (some c) with
      | none => return s
      | some c => checked (flushUnits pu s c)
  | .decode => do
    enabled (s.phase = .tick)
    let (decode, out) ← checked (Decode.decodeInsts q s.decode)
    let insts := out.getD []
    return { s with
      decode := decode
      table := s.table.setStatuses (insts.map Inst.key) .decoded
      toRename := s.toRename ++ insts }
  | .rename => do
    enabled (s.phase = .tick)
    let (rename, scheduled) := scheduleRenaming p s.rename
    if scheduled then do
      let (rename, out) ← checked (renameInstructions p rename)
      return { s with
        rename := rename
        table := s.table.setStatuses (out.dispatchGroup.map RenamedInst.key) .renamed
        toDispatch := s.toDispatch ++ out.dispatchGroup
        uopCredits := s.uopCredits ++ creditMessage out.uopCredits }
    else return { s with rename := rename }
  | .dispatch => do
    enabled (s.phase = .tick)
    let (dispatch, table, out) ← checked (Dispatch.dispatchInstructions pd s.dispatch s.table)
    return { s with
      dispatch := dispatch
      table := table
      toUnit := s.toUnit ++ out.sends
      dispatchCredits := s.dispatchCredits ++ creditMessage out.toRob.length }
  | .units op => do
    let out ← s.units.step pu s.table s.rename.scoreboards op
    return { s with
      units := out.units
      table := out.table
      rename := { s.rename with
        toRenameTables := s.rename.toRenameTables.setScoreboards out.scoreboards }
      unitCredits := s.unitCredits ++ out.credits }
  | .uopCredit =>
    match s.uopCredits with
    | [] => .error .disabled
    | n :: rest => .ok { s with
        decode := Decode.receiveUopQueueCredits s.decode n
        uopCredits := rest }
  | .dispatchCredit =>
    match s.dispatchCredits with
    | [] => .error .disabled
    | n :: rest => .ok { s with
        rename := creditsDispatchQueue s.rename n
        dispatchCredits := rest }
  | .unitCredit i =>
    match s.unitCredits[i]? with
    | none => .error .disabled
    | some (d, n) => .ok { s with
        dispatch := Dispatch.receiveCredits pd s.dispatch d n
        unitCredits := s.unitCredits.eraseIdx i }
  | .robCredits n => .ok { s with dispatch := Dispatch.robCredits pd s.dispatch n }
  | .status k st => .ok { s with table := s.table.setStatus k st }
  | .nextCycle => do
    enabled (s.phase = .tick)
    return { s with phase := .portUpdate }

/-! ## The credit loops -/

/-- The instructions on their way to one unit. -/
def sentTo (msgs : List (UnitId × RenamedInst)) (d : UnitId) : ℕ :=
  (msgs.filter fun x => x.1 = d).length

/-- The loop of Rename's `uop_queue_`. -/
def uopLoop (s : UnitFlow) : CreditLoop :=
  ⟨s.decode.uopQueueCredits, s.uopCredits.sum, s.rename.uopQueue.length, s.toRename.length⟩

/-- The loop of the dispatch queue. -/
def dispatchLoop (s : UnitFlow) : CreditLoop :=
  ⟨s.rename.creditsDispatch, s.dispatchCredits.sum, s.dispatch.dispatchQueue.length,
    s.toDispatch.length⟩

/-- The loop of the queue of an execution unit. -/
def unitLoop (s : UnitFlow) (d : UnitId) : CreditLoop :=
  ⟨(s.dispatch.dispatchers d).unitCredits, creditsFor s.unitCredits d, s.units.stored d,
    sentTo s.toUnit d⟩

/-- The capacity of a unit, zero for one that does not exist. -/
def unitCapacity (pu : UnitsParams) (d : UnitId) : ℕ := if d ∈ pu.units then pu.capacity d else 0

theorem unitCapacity_le (pu : UnitsParams) (d : UnitId) : unitCapacity pu d ≤ pu.capacity d := by
  unfold unitCapacity
  split
  · exact le_rfl
  · exact Nat.zero_le _

structure Inv (p : RenameParams) (pd : DispatchParams) (pu : UnitsParams) (s : UnitFlow) :
    Prop where
  uop : s.uopLoop.Balance p.renameQueueDepth 0
  dispatch : s.dispatchLoop.Balance pd.dispatchQueueDepth 0
  unit : ∀ d, (s.unitLoop d).Balance (unitCapacity pu d) 0
  rob_lt : s.dispatch.creditsRob < 2 ^ 32

theorem init_inv (p : RenameParams) (x0 : ℕ) (pd : DispatchParams) (pu : UnitsParams) :
    Inv p pd pu (init p x0 pd pu) := by
  refine ⟨?_, ?_, fun d => ?_, ?_⟩
  · simp [CreditLoop.Balance, CreditLoop.total, uopLoop, init, RenameState.init]
  · simp [CreditLoop.Balance, CreditLoop.total, dispatchLoop, init, RenameState.init]
  · have hstored : Units.stored {} d = 0 := by
      rcases d with n | _
      · rfl
      · rfl
    have hcred : creditsFor (pu.units.map fun e => (e, pu.capacity e)) d = unitCapacity pu d :=
      creditsFor_map pu.units_nodup pu.capacity d
    simp [CreditLoop.Balance, CreditLoop.total, unitLoop, init, hstored, hcred, sentTo]
  · show 0 < 2 ^ 32
    omega

theorem sentTo_append (a b : List (UnitId × RenamedInst)) (d : UnitId) :
    sentTo (a ++ b) d = sentTo a d + sentTo b d := by
  simp [sentTo]

theorem sentTo_eraseIdx {msgs : List (UnitId × RenamedInst)} {i : ℕ} {d : UnitId}
    {ri : RenamedInst} (hi : msgs[i]? = some (d, ri)) (e : UnitId) :
    sentTo msgs e = sentTo (msgs.eraseIdx i) e + if e = d then 1 else 0 := by
  obtain ⟨hlt, hget⟩ := List.getElem?_eq_some_iff.mp hi
  have hperm := List.getElem_cons_eraseIdx_perm hlt
  rw [hget] at hperm
  have hlen := (hperm.filter fun x => x.1 = e).length_eq
  unfold sentTo
  rw [← hlen]
  by_cases he : e = d
  · simp [he]
  · simp [he, Ne.symm he]

theorem creditsFor_eraseIdx {msgs : List (UnitId × ℕ)} {i : ℕ} {d : UnitId} {n : ℕ}
    (hi : msgs[i]? = some (d, n)) (e : UnitId) :
    creditsFor msgs e = creditsFor (msgs.eraseIdx i) e + if e = d then n else 0 := by
  obtain ⟨hlt, hget⟩ := List.getElem?_eq_some_iff.mp hi
  have hperm := List.getElem_cons_eraseIdx_perm hlt
  rw [hget] at hperm
  have hsum : creditsFor ((d, n) :: msgs.eraseIdx i) e = creditsFor msgs e :=
    ((hperm.filter fun x : UnitId × ℕ => x.1 = e).map Prod.snd).sum_eq
  rw [← hsum, creditsFor_cons, Nat.add_comm]
  by_cases he : e = d
  · simp [he]
  · simp [he, Ne.symm he]

namespace Inv

variable {q : DecodeParams} {p : RenameParams} {pd : DispatchParams} {pu : UnitsParams}
variable {s s' : UnitFlow}

theorem uop_lt (H : Inv p pd pu s) {k : ℕ} (hk : k ≤ s.uopCredits.sum) :
    s.decode.uopQueueCredits + k < 2 ^ 32 :=
  lt_of_le_of_lt (H.uop.held_add_le le_rfl hk) p.renameQueueDepth_lt

theorem dispatch_lt (H : Inv p pd pu s) {k : ℕ} (hk : k ≤ s.dispatchCredits.sum) :
    s.rename.creditsDispatch + k < 2 ^ 32 :=
  lt_of_le_of_lt (H.dispatch.held_add_le le_rfl hk) pd.dispatchQueueDepth_lt

theorem unit_lt (H : Inv p pd pu s) {d : UnitId} {k : ℕ} (hk : k ≤ creditsFor s.unitCredits d) :
    (s.dispatch.dispatchers d).unitCredits + k < 2 ^ 32 := by
  have hle := (H.unit d).held_add_le le_rfl hk
  exact lt_of_le_of_lt (hle.trans (unitCapacity_le pu d)) (pu.capacity_lt d)

/-! ## Deliveries -/

theorem deliverDecoded (H : Inv p pd pu s)
    (hstep : s.step q p pd pu .deliverDecoded = .ok s') : Inv p pd pu s' := by
  obtain ⟨-, -, hstep⟩ := Run.bind_eq_ok.mp hstep
  obtain ⟨r, hr, hstep⟩ := Run.bind_eq_ok.mp hstep
  obtain ⟨-, -, hr⟩ := Run.bind_eq_ok.mp (checked_eq_ok.mp hr)
  obtain rfl := Except.ok.inj hr
  obtain rfl := Except.ok.inj hstep
  refine ⟨?_, H.dispatch, H.unit, H.rob_lt⟩
  have hmove := H.uop.step_zero (.deliver (k := s.toRename.length) le_rfl)
  simpa [uopLoop, updateRegcountData] using hmove

theorem deliverRenamed (H : Inv p pd pu s)
    (hstep : s.step q p pd pu .deliverRenamed = .ok s') : Inv p pd pu s' := by
  obtain ⟨-, -, hstep⟩ := Run.bind_eq_ok.mp hstep
  obtain ⟨d, hd, hstep⟩ := Run.bind_eq_ok.mp hstep
  obtain ⟨-, -, hd⟩ := Run.bind_eq_ok.mp (checked_eq_ok.mp hd)
  obtain rfl := Except.ok.inj hd
  obtain rfl := Except.ok.inj hstep
  refine ⟨H.uop, ?_, fun e => ?_, ?_⟩
  · have hmove := H.dispatch.step_zero (.deliver (k := s.toDispatch.length) le_rfl)
    simpa [dispatchLoop] using hmove
  · simpa [unitLoop] using H.unit e
  · simpa using H.rob_lt

theorem deliverDispatched {i : ℕ} (H : Inv p pd pu s)
    (hstep : s.step q p pd pu (.deliverDispatched i) = .ok s') : Inv p pd pu s' := by
  unfold UnitFlow.step at hstep
  rcases hi : s.toUnit[i]? with _ | ⟨d, ri⟩
  · simp [hi] at hstep
  · simp only [hi] at hstep
    obtain ⟨-, -, hstep⟩ := Run.bind_eq_ok.mp hstep
    obtain ⟨⟨u, T⟩, hu, hstep⟩ := Run.bind_eq_ok.mp hstep
    obtain rfl := Except.ok.inj hstep
    refine ⟨H.uop, H.dispatch, fun e => ?_, H.rob_lt⟩
    have hsent := sentTo_eraseIdx hi e
    have hstored := Units.receive_stored (checked_eq_ok.mp hu) e
    have hmove := (H.unit e).step_zero (.deliver (k := if e = d then 1 else 0)
      (show (if e = d then 1 else 0) ≤ sentTo s.toUnit e by omega))
    have hsub : sentTo s.toUnit e - (if e = d then 1 else 0) = sentTo (s.toUnit.eraseIdx i) e := by
      omega
    simpa only [unitLoop, hstored, hsub] using hmove

/-! ## Acknowledgements and flushes -/

theorem retireAck {grp : List RenamedInst} (H : Inv p pd pu s)
    (hstep : s.step q p pd pu (.retireAck grp) = .ok s') : Inv p pd pu s' := by
  obtain ⟨-, -, hstep⟩ := Run.bind_eq_ok.mp hstep
  obtain ⟨r, hr, hstep⟩ := Run.bind_eq_ok.mp hstep
  obtain ⟨t, -, hr⟩ := Run.bind_eq_ok.mp (checked_eq_ok.mp hr)
  obtain rfl := Except.ok.inj hr
  obtain rfl := Except.ok.inj hstep
  exact ⟨H.uop, H.dispatch, H.unit, H.rob_lt⟩

theorem storeAck {ri : RenamedInst} (H : Inv p pd pu s)
    (hstep : s.step q p pd pu (.storeAck ri) = .ok s') : Inv p pd pu s' := by
  obtain ⟨-, -, hstep⟩ := Run.bind_eq_ok.mp hstep
  obtain ⟨lsu, hlsu, hstep⟩ := Run.bind_eq_ok.mp hstep
  obtain ⟨-, -, hlsu⟩ := Run.bind_eq_ok.mp (checked_eq_ok.mp hlsu)
  obtain ⟨-, -, hlsu⟩ := Run.bind_eq_ok.mp hlsu
  obtain ⟨-, -, hlsu⟩ := Run.bind_eq_ok.mp hlsu
  obtain rfl := Except.ok.inj hlsu
  obtain rfl := Except.ok.inj hstep
  refine ⟨H.uop, H.dispatch, fun d => ?_, H.rob_lt⟩
  rcases d with n | _
  · exact H.unit (.iq n)
  · exact H.unit .lsu

/-- Every unit returns a credit for each entry the flush removes. -/
theorem flushUnits {c : FlushingCriteria} (H : Inv p pd pu s)
    (hflush : UnitFlow.flushUnits pu s c = .ok s') : Inv p pd pu s' := by
  obtain ⟨⟨r, n⟩, hr, hflush⟩ := Run.bind_eq_ok.mp hflush
  obtain ⟨t, -, hr⟩ := Run.bind_eq_ok.mp hr
  obtain ⟨rfl, rfl⟩ := Prod.mk.inj (Except.ok.inj hr)
  obtain rfl := Except.ok.inj hflush
  refine ⟨?_, ?_, fun d => ?_, H.rob_lt⟩
  · have hmove := H.uop.step (.remove (k := s.rename.uopQueue.length)
      (j := s.rename.uopQueue.length) le_rfl)
    simpa [uopLoop] using hmove
  · have hmove := H.dispatch.step (.remove (k := s.dispatch.dispatchQueue.length)
      (j := s.dispatch.dispatchQueue.length) le_rfl)
    simpa [dispatchLoop, Dispatch.handleFlush] using hmove
  · have hstored := s.units.flush_stored c d
    have hcred := creditsFor_map pu.units_nodup (s.units.flushCredits c) d
    have hbal := H.unit d
    -- a unit that does not exist has nothing to flush
    have hnone : d ∉ pu.units → s.units.stored d = 0 := by
      intro hd
      have hle := hbal.stored_add_le le_rfl (k := 0) (Nat.zero_le _)
      rw [unitCapacity, if_neg hd] at hle
      exact Nat.le_zero.mp hle
    have hmsgs : creditsFor ((pu.units.map fun d => (d, s.units.flushCredits c d)).filter
        fun m => m.2 ≠ 0) d = s.units.flushCredits c d := by
      rw [creditsFor_filter, hcred]
      split
      · rfl
      · rename_i hd
        have := hnone hd
        omega
    have hmove := hbal.step (.remove (k := s.units.flushCredits c d)
      (j := s.units.flushCredits c d)
      (show s.units.flushCredits c d ≤ s.units.stored d by omega))
    have hsub : s.units.stored d - s.units.flushCredits c d = (s.units.flush c).stored d := by
      omega
    simp only [unitLoop, hsub, sub_self, add_zero] at hmove
    simpa only [unitLoop, Dispatch.handleFlush, creditsFor_append, hmsgs] using hmove

theorem flush {c : Option FlushingCriteria} (H : Inv p pd pu s)
    (hstep : s.step q p pd pu (.flush c) = .ok s') : Inv p pd pu s' := by
  obtain ⟨-, -, hstep⟩ := Run.bind_eq_ok.mp hstep
  rcases c with _ | c
  · obtain rfl := Except.ok.inj hstep
    exact ⟨H.uop, H.dispatch, H.unit, H.rob_lt⟩
  · have H₁ : Inv p pd pu
        { s with phase := .tick, decode := (Decode.handleFlush s.decode c).1 } :=
      ⟨H.uop, H.dispatch, H.unit, H.rob_lt⟩
    dsimp only at hstep
    split at hstep
    · obtain rfl := Except.ok.inj hstep
      exact H₁
    · exact H₁.flushUnits (checked_eq_ok.mp hstep)

/-! ## The sessions of the units -/

/-- What Decode sends it has paid for. -/
theorem decode_spec (H : Inv p pd pu s) (hstep : s.step q p pd pu .decode = .ok s') :
    ∃ d T insts, s' = { s with decode := d, table := T, toRename := s.toRename ++ insts } ∧
      d.uopQueueCredits + insts.length = s.decode.uopQueueCredits := by
  obtain ⟨-, -, hstep⟩ := Run.bind_eq_ok.mp hstep
  obtain ⟨⟨d, out⟩, hd, hstep⟩ := Run.bind_eq_ok.mp hstep
  obtain rfl := Except.ok.inj hstep
  obtain ⟨-, -, -, -, hcred, -⟩ :=
    Decode.decodeInsts_spec (H.uop_lt (k := 0) (Nat.zero_le _)) (checked_eq_ok.mp hd)
  exact ⟨d, _, out.getD [], rfl, hcred⟩

theorem decode (H : Inv p pd pu s) (hstep : s.step q p pd pu .decode = .ok s') :
    Inv p pd pu s' := by
  obtain ⟨d, T, insts, rfl, hcred⟩ := H.decode_spec hstep
  refine ⟨?_, H.dispatch, H.unit, H.rob_lt⟩
  have hmove := H.uop.step_zero (.send (k := insts.length)
    (show insts.length ≤ s.decode.uopQueueCredits by omega))
  have hsub : s.decode.uopQueueCredits - insts.length = d.uopQueueCredits := by omega
  simpa [uopLoop, hsub] using hmove

/-- What Rename sends has left its queue, for a credit to Decode, and it has paid for it. -/
theorem rename_spec (H : Inv p pd pu s) (hstep : s.step q p pd pu .rename = .ok s') :
    ∃ r T grp msgs, s' = { s with
        rename := r
        table := T
        toDispatch := s.toDispatch ++ grp
        uopCredits := s.uopCredits ++ msgs } ∧
      grp.length + r.uopQueue.length = s.rename.uopQueue.length ∧
      r.creditsDispatch + grp.length = s.rename.creditsDispatch ∧ msgs.sum = grp.length := by
  obtain ⟨-, -, hstep⟩ := Run.bind_eq_ok.mp hstep
  obtain ⟨stall, hsched⟩ := scheduleRenaming_fst (p := p) s.rename
  dsimp only at hstep
  split at hstep
  · obtain ⟨⟨r, out⟩, hr, hstep⟩ := Run.bind_eq_ok.mp hstep
    obtain rfl := Except.ok.inj hstep
    rw [hsched] at hr
    obtain ⟨hlen, hcred, huop⟩ := renameInstructions_length
      (s := { s.rename with currentStall := stall }) (H.dispatch_lt (k := 0) (Nat.zero_le _))
      (checked_eq_ok.mp hr)
    refine ⟨r, _, out.dispatchGroup, creditMessage out.uopCredits, rfl, hlen, hcred, ?_⟩
    rw [creditMessage_sum, huop]
  · obtain rfl := Except.ok.inj hstep
    refine ⟨(scheduleRenaming p s.rename).1, s.table, [], [], by simp, ?_, ?_, rfl⟩
    · rw [hsched]
      simp
    · rw [hsched]
      rfl

theorem rename (H : Inv p pd pu s) (hstep : s.step q p pd pu .rename = .ok s') :
    Inv p pd pu s' := by
  obtain ⟨r, T, grp, msgs, rfl, hlen, hcred, hmsgs⟩ := H.rename_spec hstep
  refine ⟨?_, ?_, H.unit, H.rob_lt⟩
  · have hmove := H.uop.step (.remove (k := grp.length) (j := grp.length)
      (show grp.length ≤ s.rename.uopQueue.length by omega))
    have hsub : s.rename.uopQueue.length - grp.length = r.uopQueue.length := by omega
    simpa [uopLoop, hsub, hmsgs] using hmove
  · have hmove := H.dispatch.step_zero (.send (k := grp.length)
      (show grp.length ≤ s.rename.creditsDispatch by omega))
    have hsub : s.rename.creditsDispatch - grp.length = r.creditsDispatch := by omega
    simpa [dispatchLoop, hsub] using hmove

theorem dispatch_spec (H : Inv p pd pu s) (hstep : s.step q p pd pu .dispatch = .ok s') :
    ∃ d T out, Dispatch.DispatchSpec pd s.dispatch d s.table T {} out out.toRob out.sends ∧
      s' = { s with
        dispatch := d
        table := T
        toUnit := s.toUnit ++ out.sends
        dispatchCredits := s.dispatchCredits ++ creditMessage out.toRob.length } := by
  obtain ⟨-, -, hstep⟩ := Run.bind_eq_ok.mp hstep
  obtain ⟨⟨d, T, out⟩, hd, hstep⟩ := Run.bind_eq_ok.mp hstep
  obtain rfl := Except.ok.inj hstep
  exact ⟨d, T, out, Dispatch.dispatchInstructions_spec H.rob_lt
    (fun e => H.unit_lt (k := 0) (Nat.zero_le _)) (checked_eq_ok.mp hd), rfl⟩

theorem dispatchSession (H : Inv p pd pu s) (hstep : s.step q p pd pu .dispatch = .ok s') :
    Inv p pd pu s' := by
  obtain ⟨d, T, out, D, rfl⟩ := H.dispatch_spec hstep
  have hlen : s.dispatch.dispatchQueue.length = out.toRob.length + d.dispatchQueue.length := by
    rw [D.queue, List.length_append]
  refine ⟨H.uop, ?_, fun e => ?_, ?_⟩
  · have hmove := H.dispatch.step (.remove (k := out.toRob.length) (j := out.toRob.length)
      (show out.toRob.length ≤ s.dispatch.dispatchQueue.length by omega))
    have hsub : s.dispatch.dispatchQueue.length - out.toRob.length = d.dispatchQueue.length := by
      omega
    simpa [dispatchLoop, hsub] using hmove
  · have hcred : (d.dispatchers e).unitCredits + sentTo out.sends e =
        (s.dispatch.dispatchers e).unitCredits := D.unitCredits e
    have hmove := (H.unit e).step_zero (.send (k := sentTo out.sends e)
      (show sentTo out.sends e ≤ (s.dispatch.dispatchers e).unitCredits by omega))
    have hsub : (s.dispatch.dispatchers e).unitCredits - sentTo out.sends e =
        (d.dispatchers e).unitCredits := by omega
    simpa only [unitLoop, sentTo_append, hsub] using hmove
  · have hrob := D.creditsRob
    have := H.rob_lt
    show d.creditsRob < 2 ^ 32
    omega

/-- A handler of an execution unit. -/
theorem units {op : UnitsOp} (H : Inv p pd pu s)
    (hstep : s.step q p pd pu (.units op) = .ok s') : Inv p pd pu s' := by
  obtain ⟨out, hout, hstep⟩ := Run.bind_eq_ok.mp hstep
  obtain rfl := Except.ok.inj hstep
  refine ⟨H.uop, H.dispatch, fun d => ?_, H.rob_lt⟩
  have hstored := Units.step_stored hout d
  have hmove := (H.unit d).step (.remove (k := creditsFor out.credits d)
    (j := creditsFor out.credits d)
    (show creditsFor out.credits d ≤ s.units.stored d by omega))
  have hsub : s.units.stored d - creditsFor out.credits d = out.units.stored d := by omega
  simp only [unitLoop, hsub, sub_self, add_zero] at hmove
  simpa only [unitLoop, creditsFor_append] using hmove

/-! ## Credits -/

theorem uopCredit (H : Inv p pd pu s) (hstep : s.step q p pd pu .uopCredit = .ok s') :
    Inv p pd pu s' := by
  unfold UnitFlow.step at hstep
  rcases hmsg : s.uopCredits with _ | ⟨n, rest⟩
  · simp [hmsg] at hstep
  · simp only [hmsg] at hstep
    obtain rfl := Except.ok.inj hstep
    refine ⟨?_, H.dispatch, H.unit, H.rob_lt⟩
    have hle : n ≤ s.uopCredits.sum := by simp [hmsg]
    have hmove := H.uop.step_zero (.credit (k := n) hle)
    have hadd := u32Add_of_lt (H.uop_lt hle)
    simpa [uopLoop, Decode.receiveUopQueueCredits, hadd, hmsg] using hmove

theorem dispatchCredit (H : Inv p pd pu s)
    (hstep : s.step q p pd pu .dispatchCredit = .ok s') : Inv p pd pu s' := by
  unfold UnitFlow.step at hstep
  rcases hmsg : s.dispatchCredits with _ | ⟨n, rest⟩
  · simp [hmsg] at hstep
  · simp only [hmsg] at hstep
    obtain rfl := Except.ok.inj hstep
    refine ⟨H.uop, ?_, H.unit, H.rob_lt⟩
    have hle : n ≤ s.dispatchCredits.sum := by simp [hmsg]
    have hmove := H.dispatch.step_zero (.credit (k := n) hle)
    have hadd := u32Add_of_lt (H.dispatch_lt hle)
    simpa [dispatchLoop, creditsDispatchQueue, hadd, hmsg] using hmove

theorem unitCredit {i : ℕ} (H : Inv p pd pu s)
    (hstep : s.step q p pd pu (.unitCredit i) = .ok s') : Inv p pd pu s' := by
  unfold UnitFlow.step at hstep
  rcases hmsg : s.unitCredits[i]? with _ | ⟨d, n⟩
  · simp [hmsg] at hstep
  · simp only [hmsg] at hstep
    obtain rfl := Except.ok.inj hstep
    refine ⟨H.uop, ?_, fun e => ?_, ?_⟩
    · simpa [dispatchLoop, Dispatch.receiveCredits] using H.dispatch
    · have hcred := creditsFor_eraseIdx hmsg e
      have hle : (if e = d then n else 0) ≤ creditsFor s.unitCredits e := by omega
      have hmove := (H.unit e).step_zero (.credit (k := if e = d then n else 0) hle)
      have hadd := u32Add_of_lt (H.unit_lt hle)
      have hsub : creditsFor s.unitCredits e - (if e = d then n else 0) =
          creditsFor (s.unitCredits.eraseIdx i) e := by omega
      simp only [unitLoop, hsub] at hmove
      by_cases he : e = d
      · subst he
        rw [if_pos rfl] at hadd
        simpa [unitLoop, Dispatch.receiveCredits, hadd] using hmove
      · simpa [unitLoop, Dispatch.receiveCredits, he] using hmove
    · simpa [Dispatch.receiveCredits] using H.rob_lt

theorem robCredits {n : ℕ} (H : Inv p pd pu s)
    (hstep : s.step q p pd pu (.robCredits n) = .ok s') : Inv p pd pu s' := by
  obtain rfl := Except.ok.inj hstep
  refine ⟨H.uop, ?_, fun d => ?_, ?_⟩
  · simpa [dispatchLoop, Dispatch.robCredits] using H.dispatch
  · simpa [unitLoop, Dispatch.robCredits] using H.unit d
  · simpa [Dispatch.robCredits] using u32Add_lt _ _

theorem step {op : UnitFlowOp} (H : Inv p pd pu s) (hstep : s.step q p pd pu op = .ok s') :
    Inv p pd pu s' := by
  rcases op with insts | i | _ | _ | i | grp | ri | c | _ | _ | _ | op | _ | _ | i | n |
    ⟨k, st⟩ | _
  case fetched =>
    obtain ⟨-, -, hstep⟩ := Run.bind_eq_ok.mp hstep
    obtain rfl := Except.ok.inj hstep
    exact ⟨H.uop, H.dispatch, H.unit, H.rob_lt⟩
  case vset =>
    obtain ⟨-, -, hstep⟩ := Run.bind_eq_ok.mp hstep
    obtain rfl := Except.ok.inj hstep
    exact ⟨H.uop, H.dispatch, H.unit, H.rob_lt⟩
  case deliverDecoded => exact H.deliverDecoded hstep
  case deliverRenamed => exact H.deliverRenamed hstep
  case deliverDispatched => exact H.deliverDispatched hstep
  case retireAck => exact H.retireAck hstep
  case storeAck => exact H.storeAck hstep
  case flush => exact H.flush hstep
  case decode => exact H.decode hstep
  case rename => exact H.rename hstep
  case dispatch => exact H.dispatchSession hstep
  case units => exact H.units hstep
  case uopCredit => exact H.uopCredit hstep
  case dispatchCredit => exact H.dispatchCredit hstep
  case unitCredit => exact H.unitCredit hstep
  case robCredits => exact H.robCredits hstep
  case status =>
    obtain rfl := Except.ok.inj hstep
    exact ⟨H.uop, H.dispatch, H.unit, H.rob_lt⟩
  case nextCycle =>
    obtain ⟨-, -, hstep⟩ := Run.bind_eq_ok.mp hstep
    obtain rfl := Except.ok.inj hstep
    exact ⟨H.uop, H.dispatch, H.unit, H.rob_lt⟩

/-! ## Overflow -/

/-- What arrives at a unit has a place in its queue. -/
theorem receive_noOverflow {i : ℕ} {d : UnitId} {ri : RenamedInst} (H : Inv p pd pu s)
    (hi : s.toUnit[i]? = some (d, ri)) :
    NoOverflow (s.units.receive pu s.table s.rename.scoreboards d ri) := by
  have hsent := sentTo_eraseIdx hi d
  rw [if_pos rfl] at hsent
  have hroom : s.units.stored d + 1 ≤ pu.capacity d := by
    refine ((H.unit d).stored_add_le le_rfl ?_).trans (unitCapacity_le pu d)
    show 1 ≤ sentTo s.toUnit d
    omega
  rcases d with n | _
  · refine .bind ?_ fun _ => .ok _
    refine .bind (noOverflow_assert rfl) fun _ => ?_
    have hlt : (s.units.iqs n).issueQueue.length ≤ (pu.iq n).schedulerSize :=
      Nat.le_of_succ_le hroom
    refine .bind (.of_eq_ok (a := ()) ?_) fun _ => .ok _
    simpa using hlt
  · refine .bind ?_ fun _ => .ok _
    have hlt : s.units.lsu.ldstInstQueue.length < pu.lsu.ldstInstQueueSize := hroom
    refine .bind (.of_eq_ok (a := ()) ?_) fun _ => ?_
    · simpa using hlt
    · refine .bind (noOverflow_assert rfl) fun _ => ?_
      exact (Lsu.handleOperandIssueCheck_noOverflow _ _ _ _ _ _).bind fun _ => .ok _

/-- No step stops at an overflow assertion. -/
theorem step_noOverflow (H : Inv p pd pu s) (op : UnitFlowOp) :
    Run.FailsIn (Stop.In fun a => a.isOverflow = false) (s.step q p pd pu op) := by
  rcases op with insts | i | _ | _ | i | grp | ri | c | _ | _ | _ | op | _ | _ | i | n |
    ⟨k, st⟩ | _
  case fetched => exact (enabled_failsIn _).bind fun _ => .ok _
  case vset => exact (enabled_failsIn _).bind fun _ => .ok _
  case deliverDecoded =>
    refine (enabled_failsIn _).bind fun _ => .bind (checked_failsIn ?_) fun _ => .ok _
    have hroom : s.rename.uopQueue.length + s.toRename.length ≤ p.renameQueueDepth :=
      H.uop.stored_add_le le_rfl le_rfl
    refine .bind (.of_eq_ok (a := ()) ?_) fun _ => .ok _
    simpa using hroom
  case deliverRenamed =>
    refine (enabled_failsIn _).bind fun _ => .bind (checked_failsIn ?_) fun _ => .ok _
    have hroom : s.dispatch.dispatchQueue.length + s.toDispatch.length ≤ pd.dispatchQueueDepth :=
      H.dispatch.stored_add_le le_rfl le_rfl
    refine .bind (.of_eq_ok (a := ()) ?_) fun _ => .ok _
    simpa using hroom
  case deliverDispatched =>
    unfold UnitFlow.step
    dsimp only
    split
    · exact .error trivial
    · rename_i d ri hi
      refine (enabled_failsIn _).bind fun _ => ?_
      exact .bind (checked_failsIn (H.receive_noOverflow hi)) fun _ => .ok _
  case retireAck =>
    refine (enabled_failsIn _).bind fun _ => ?_
    exact .bind (checked_failsIn (getAckFromROB_noOverflow _ _ _)) fun _ => .ok _
  case storeAck =>
    refine (enabled_failsIn _).bind fun _ => ?_
    exact .bind (checked_failsIn (Lsu.getAckFromROB_noOverflow _ _ _)) fun _ => .ok _
  case flush =>
    refine (enabled_failsIn _).bind fun _ => ?_
    rcases c with _ | c
    · exact .ok _
    · dsimp only
      split
      · exact .ok _
      · exact checked_failsIn (.bind (handleFlush_noOverflow _ _) fun _ => .ok _)
  case decode =>
    refine (enabled_failsIn _).bind fun _ => ?_
    exact .bind (checked_failsIn (Decode.decodeInsts_noOverflow _ _)) fun _ => .ok _
  case rename =>
    refine (enabled_failsIn _).bind fun _ => .ite ?_ (.ok _)
    exact .bind (checked_failsIn (renameInstructions_noOverflow _ _)) fun _ => .ok _
  case dispatch =>
    refine (enabled_failsIn _).bind fun _ => ?_
    exact .bind (checked_failsIn (dispatchInstructions_noOverflow _ _ _)) fun _ => .ok _
  case units => exact (Units.step_noOverflow _ _ _ _ _).bind fun _ => .ok _
  case uopCredit =>
    unfold UnitFlow.step
    dsimp only
    split
    · exact .error trivial
    · exact .ok _
  case dispatchCredit =>
    unfold UnitFlow.step
    dsimp only
    split
    · exact .error trivial
    · exact .ok _
  case unitCredit =>
    unfold UnitFlow.step
    dsimp only
    split
    · exact .error trivial
    · exact .ok _
  case robCredits => exact .ok _
  case status => exact .ok _
  case nextCycle => exact (enabled_failsIn _).bind fun _ => .ok _

end Inv

theorem reachable_inv {q : DecodeParams} {p : RenameParams} {x0 : ℕ} {pd : DispatchParams}
    {pu : UnitsParams} {s : UnitFlow}
    (hs : Run.Reachable (step q p pd pu) (init p x0 pd pu) s) : Inv p pd pu s :=
  hs.invariant (init_inv p x0 pd pu) fun _ _ _ H hstep => H.step hstep

end UnitFlow

/-- In every reachable state of Decode, Rename, Dispatch and the execution units, the credits,
the entries of the queue and the messages in flight of each credit loop add up to the capacity
of the queue.  A session of Decode, Rename or Dispatch takes from its credits exactly what it
sends, and no step stops at an overflow assertion. -/
theorem unit_credits_conserved (q : DecodeParams) (p : RenameParams) (x0 : ℕ)
    (pd : DispatchParams) (pu : UnitsParams) {s : UnitFlow}
    (hs : Run.Reachable (UnitFlow.step q p pd pu) (UnitFlow.init p x0 pd pu) s) :
    s.decode.uopQueueCredits + s.uopCredits.sum + s.rename.uopQueue.length + s.toRename.length
      = p.renameQueueDepth ∧
    s.rename.creditsDispatch + s.dispatchCredits.sum + s.dispatch.dispatchQueue.length
      + s.toDispatch.length = pd.dispatchQueueDepth ∧
    (∀ n, .iq n ∈ pu.units →
      (s.dispatch.dispatchers (.iq n)).unitCredits + creditsFor s.unitCredits (.iq n)
        + (s.units.iqs n).issueQueue.length + UnitFlow.sentTo s.toUnit (.iq n)
        = (pu.iq n).schedulerSize) ∧
    (.lsu ∈ pu.units →
      (s.dispatch.dispatchers .lsu).unitCredits + creditsFor s.unitCredits .lsu
        + s.units.lsu.ldstInstQueue.length + UnitFlow.sentTo s.toUnit .lsu
        = pu.lsu.ldstInstQueueSize) ∧
    (∀ s', s.step q p pd pu .decode = .ok s' →
      ∃ sent, s'.toRename = s.toRename ++ sent ∧
        s'.decode.uopQueueCredits + sent.length = s.decode.uopQueueCredits) ∧
    (∀ s', s.step q p pd pu .rename = .ok s' →
      ∃ sent, s'.toDispatch = s.toDispatch ++ sent ∧
        s'.rename.creditsDispatch + sent.length = s.rename.creditsDispatch) ∧
    (∀ s', s.step q p pd pu .dispatch = .ok s' →
      ∃ sent, s'.toUnit = s.toUnit ++ sent ∧
        s'.dispatch.creditsRob + sent.length = s.dispatch.creditsRob ∧
        ∀ d, (s'.dispatch.dispatchers d).unitCredits + UnitFlow.sentTo sent d
          = (s.dispatch.dispatchers d).unitCredits) ∧
    ∀ op a, s.step q p pd pu op = .error (.assertion a) → a.isOverflow = false := by
  have H := UnitFlow.reachable_inv hs
  have hunit : ∀ d, d ∈ pu.units →
      (s.dispatch.dispatchers d).unitCredits + creditsFor s.unitCredits d + s.units.stored d
        + UnitFlow.sentTo s.toUnit d = pu.capacity d := by
    intro d hd
    have hbal := H.unit d
    rw [UnitFlow.unitCapacity, if_pos hd] at hbal
    unfold CreditLoop.Balance at hbal
    simp only [CreditLoop.total, UnitFlow.unitLoop] at hbal
    omega
  refine ⟨?_, ?_, fun n hn => hunit _ hn, fun hlsu => hunit _ hlsu, fun s' hstep => ?_,
    fun s' hstep => ?_, fun s' hstep => ?_, fun op a herr => H.step_noOverflow op _ herr⟩
  · have hbal := H.uop
    unfold CreditLoop.Balance at hbal
    simp only [CreditLoop.total, UnitFlow.uopLoop] at hbal
    omega
  · have hbal := H.dispatch
    unfold CreditLoop.Balance at hbal
    simp only [CreditLoop.total, UnitFlow.dispatchLoop] at hbal
    omega
  · obtain ⟨d, T, insts, rfl, hcred⟩ := H.decode_spec hstep
    exact ⟨insts, rfl, hcred⟩
  · obtain ⟨r, T, grp, msgs, rfl, -, hcred, -⟩ := H.rename_spec hstep
    exact ⟨grp, rfl, hcred⟩
  · obtain ⟨d, T, out, D, rfl⟩ := H.dispatch_spec hstep
    refine ⟨out.sends, rfl, ?_, D.unitCredits⟩
    have hlen : out.sends.length = out.toRob.length := by rw [← D.sends_new, List.length_map]
    rw [hlen]
    exact D.creditsRob

/-- An addition and a load. -/
def creditInsts : List Inst :=
  [{ uniqueId := 1
     srcs := [⟨1, .rs1, .integer⟩]
     dests := [⟨3, .rd, .integer⟩]
     srcs_lt := OpInfo.single_lt (nat_lit 1) .rs1
     dests_lt := OpInfo.single_lt (nat_lit 3) .rd
     dests_distinct := OpInfo.single_distinct (nat_lit 3) .rd },
   { uniqueId := 2
     srcs := [⟨2, .rs1, .integer⟩]
     dests := [⟨4, .rd, .integer⟩]
     pipe := .lsu
     isLoad := true
     srcs_lt := OpInfo.single_lt (nat_lit 2) .rs1
     dests_lt := OpInfo.single_lt (nat_lit 4) .rd
     dests_distinct := OpInfo.single_distinct (nat_lit 4) .rd }]

def creditDispatch : DispatchParams where
  dispatchers
    | .int => [.iq 0]
    | .lsu => [.lsu]
    | _ => []

theorem creditUnits_nodup : [UnitId.iq 0, .lsu].Nodup := by decide

def creditUnits : UnitsParams where
  units := [.iq 0, .lsu]
  iq := fun _ => { exePipes := fun _ => [0] }
  units_nodup := creditUnits_nodup

/-- The two go through all units; the addition is issued and executed, then a flush takes the
load from the LSU. -/
def creditOps : List UnitFlowOp :=
  [.uopCredit, .dispatchCredit, .unitCredit 0, .unitCredit 0, .robCredits 8, .nextCycle,
   .fetched creditInsts, .flush none, .decode, .nextCycle, .deliverDecoded, .flush none, .rename,
   .nextCycle, .deliverRenamed, .flush none, .dispatch, .nextCycle, .deliverDispatched 1,
   .deliverDispatched 0, .flush none, .units (.sendReadyInsts 0),
   .units (.executeInst 0 0 false), .uopCredit, .unitCredit 0, .nextCycle,
   .flush (some ⟨.misprediction, false, 1⟩)]

theorem unit_credits_conserved_sample :
    ∃ s, Run.Reachable (UnitFlow.step { mavis := ⟨fun i _ _ => i⟩ } {} creditDispatch creditUnits)
        (UnitFlow.init {} 0 creditDispatch creditUnits) s ∧
      s.units.lsu.ldstInstQueue.length = 0 ∧
      (s.dispatch.dispatchers .lsu).unitCredits + creditsFor s.unitCredits .lsu
        + s.units.lsu.ldstInstQueue.length + UnitFlow.sentTo s.toUnit .lsu = 8 ∧
      ∀ op a, s.step { mavis := ⟨fun i _ _ => i⟩ } {} creditDispatch creditUnits op
        = .error (.assertion a) → a.isOverflow = false := by
  have heval : (creditOps.foldlM
      (UnitFlow.step { mavis := ⟨fun i _ _ => i⟩ } {} creditDispatch creditUnits)
      (UnitFlow.init {} 0 creditDispatch creditUnits)).toOption.map
      (fun s => (s.units.lsu.ldstInstQueue.length, creditsFor s.unitCredits .lsu)) =
      some (0, 1) := by
    decide +kernel
  obtain ⟨s, hs, hlen⟩ := Run.ok_of_eval heval
  have hall := unit_credits_conserved { mavis := ⟨fun i _ _ => i⟩ } {} 0 creditDispatch
    creditUnits ⟨creditOps, hs⟩
  exact ⟨s, ⟨creditOps, hs⟩, (Prod.mk.inj hlen).1, hall.2.2.2.1 (by decide),
    hall.2.2.2.2.2.2.2⟩

end Olympia
