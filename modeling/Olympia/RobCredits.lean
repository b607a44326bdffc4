import Olympia.Lib.Credit
import Olympia.Rob
import Olympia.Dispatch

/-!
# The credits of the reorder buffer

Dispatch and the ROB, joined by the port that carries dispatched groups and the port that
carries credits back, with any stream of instructions arriving at Dispatch and any behaviour of
the execution units.

Dispatch takes one credit for each instruction it sends.  A flush returns one credit for each
entry it removes.  Retiring returns one credit for each entry whose uop identifier is 0, so the
other uops of a vector instruction keep theirs: `rob_credits_conserved_iff` says that the
credits add up to the depth of the buffer exactly as long as no such uop has retired, and
`rob_credits_lost` that they do not after a vector instruction of two uops.
-/

namespace Olympia

structure DispatchRob where
  phase : Phase := .tick
  dispatch : DispatchState := {}
  rob : RobState := {}
  table : InstTable := ⟨fun _ => .beforeFetch, fun _ => false⟩
  /-- the group on the port from Dispatch to the ROB -/
  toRob : List RenamedInst := []
  /-- the credit messages on the port from the ROB to Dispatch -/
  robCredits : List ℕ
  pendingFlush : Option FlushingCriteria := none

inductive DispatchRobOp where
  /-- a group from Rename arrives -/
  | append (insts : List RenamedInst)
  /-- the dispatched group arrives at the ROB -/
  | deliver
  | flush
  | dispatch
  | retire
  /-- the oldest credit message arrives at Dispatch -/
  | credits
  /-- an execution unit returns credits -/
  | unitCredits (d : UnitId) (credits : ℕ)
  /-- an execution unit changes the status of an instruction, or finds it mispredicted -/
  | execute (k : InstKey) (status : InstStatus) (mispredicted : Bool)
  | nextCycle

namespace DispatchRob

/-- After startup the ROB has sent its initial credits. -/
def init (q : RobParams) : DispatchRob := { robCredits := [q.retireQueueDepth] }

def step (p : DispatchParams) (q : RobParams) (s : DispatchRob) : DispatchRobOp →
    Except Stop DispatchRob
  | .append insts => do
    enabled (s.phase = .portUpdate)
    let dispatch ← checked (Dispatch.dispatchQueueAppended p s.dispatch insts)
    return { s with dispatch := dispatch }
  | .deliver => do
    enabled (s.phase = .portUpdate)
    let rob ← checked (Rob.robAppended q s.rob s.toRob)
    return { s with rob := rob, toRob := [] }
  | .flush => do
    enabled (s.phase = .portUpdate ∧ s.toRob = [])
    match FlushManager.forwardUpper s.pendingFlush with
    | none => return { s with phase := .tick, pendingFlush := none }
    | some c => do
      let (rob, table, credits) ← checked (Rob.handleFlush s.rob s.table c)
      -- `cancel` drops what Dispatch has sent in this cycle
      return { s with
        phase := .tick
        dispatch := (Dispatch.handleFlush s.dispatch).1
        rob := rob
        table := table
        toRob := []
        robCredits := s.robCredits ++ [credits]
        pendingFlush := none }
  | .dispatch => do
    enabled (s.phase = .tick)
    let (dispatch, table, out) ← checked (Dispatch.dispatchInstructions p s.dispatch s.table)
    return { s with dispatch := dispatch, table := table, toRob := s.toRob ++ out.toRob }
  | .retire => do
    enabled (s.phase = .tick)
    let (rob, table, out) ← checked (Rob.retireInstructions q s.rob s.table)
    return { s with
      rob := rob
      table := table
      robCredits := if out.retiredThisCycle ≠ 0 then s.robCredits ++ [out.retiredThisCycle]
        else s.robCredits
      pendingFlush := match out.flush with
        | some c => FlushManager.receiveFlush s.pendingFlush c
        | none => s.pendingFlush }
  | .credits =>
    match s.robCredits with
    | [] => .error .disabled
    | n :: rest => do
      enabled (s.phase = .tick)
      return { s with dispatch := Dispatch.robCredits p s.dispatch n, robCredits := rest }
  | .unitCredits d n => do
    enabled (s.phase = .tick)
    return { s with dispatch := Dispatch.receiveCredits p s.dispatch d n }
  | .execute k status mispredicted => do
    enabled (s.phase = .tick)
    return { s with table :=
      ⟨Function.update s.table.status k status,
       Function.update s.table.mispredicted k mispredicted⟩ }
  | .nextCycle => do
    enabled (s.phase = .tick)
    return { s with phase := .portUpdate }

/-- The instructions a step retires. -/
def retiredBy (q : RobParams) (s : DispatchRob) : DispatchRobOp → List RenamedInst
  | .retire =>
    match Rob.retireInstructions q s.rob s.table with
    | .ok (_, _, out) => out.retired
    | .error _ => []
  | _ => []

/-! ## The credit loop -/

/-- Where the entries of the reorder buffer are accounted for. -/
def loop (s : DispatchRob) : CreditLoop :=
  ⟨s.dispatch.creditsRob, s.robCredits.sum, s.rob.reorderBuffer.length, s.toRob.length⟩

/-- The credits that retiring the instructions `h` has not returned. -/
def lost (h : List RenamedInst) : ℕ := h.countP fun ri => ri.inst.uopId ≠ 0

structure Inv (q : RobParams) (h : List RenamedInst) (s : DispatchRob) : Prop where
  balance : s.loop.Balance q.retireQueueDepth (-(lost h : ℤ))
  unit_lt : ∀ d, (s.dispatch.dispatchers d).unitCredits < 2 ^ 32

theorem Inv.held_lt {q : RobParams} {h : List RenamedInst} {s : DispatchRob}
    (H : Inv q h s) {k : ℕ} (hk : k ≤ s.robCredits.sum) :
    s.dispatch.creditsRob + k < 2 ^ 32 :=
  lt_of_le_of_lt (H.balance.held_add_le (by omega) hk) q.retireQueueDepth_lt

/-- Every step is a move of the credit loop, and only retiring has a drift. -/
theorem step_inv {p : DispatchParams} {q : RobParams} {h : List RenamedInst}
    {s s' : DispatchRob} {op : DispatchRobOp} (H : Inv q h s)
    (hstep : s.step p q op = .ok s') : Inv q (h ++ s.retiredBy q op) s' := by
  cases op with
  | append insts =>
    obtain ⟨-, -, hstep⟩ := Run.bind_eq_ok.mp hstep
    obtain ⟨d, hd, hstep⟩ := Run.bind_eq_ok.mp hstep
    cases Except.ok.inj hstep
    obtain ⟨-, -, hd⟩ := Run.bind_eq_ok.mp (checked_eq_ok.mp hd)
    cases Except.ok.inj hd
    simp only [retiredBy, List.append_nil]
    exact ⟨by simpa [loop] using H.balance, by simpa using H.unit_lt⟩
  | deliver =>
    obtain ⟨-, -, hstep⟩ := Run.bind_eq_ok.mp hstep
    obtain ⟨r, hr, hstep⟩ := Run.bind_eq_ok.mp hstep
    cases Except.ok.inj hstep
    obtain ⟨-, -, hr⟩ := Run.bind_eq_ok.mp (checked_eq_ok.mp hr)
    cases Except.ok.inj hr
    simp only [retiredBy, List.append_nil]
    refine ⟨?_, H.unit_lt⟩
    have hmove := H.balance.step (.deliver (k := s.toRob.length) le_rfl)
    simpa [loop] using hmove
  | flush =>
    obtain ⟨u, hen, hstep⟩ := Run.bind_eq_ok.mp hstep
    have hport : s.toRob = [] := (of_decide_eq_true (enabled_eq_ok.mp hen)).2
    simp only [retiredBy, List.append_nil]
    rcases hpend : FlushManager.forwardUpper s.pendingFlush with _ | c
    · simp only [hpend] at hstep
      cases Except.ok.inj hstep
      exact ⟨H.balance, H.unit_lt⟩
    · simp only [hpend] at hstep
      obtain ⟨⟨r, T, credits⟩, hr, hstep⟩ := Run.bind_eq_ok.mp hstep
      cases Except.ok.inj hstep
      obtain ⟨-, -, hlen, -⟩ := Rob.handleFlush_spec (checked_eq_ok.mp hr)
      refine ⟨?_, H.unit_lt⟩
      have hmove := H.balance.step (.remove (k := credits) (j := credits)
        (show credits ≤ s.rob.reorderBuffer.length by omega))
      have hsub : s.rob.reorderBuffer.length - credits = r.reorderBuffer.length := by omega
      simpa [loop, Dispatch.handleFlush, hport, hsub] using hmove
  | dispatch =>
    obtain ⟨-, -, hstep⟩ := Run.bind_eq_ok.mp hstep
    obtain ⟨⟨d, T, out⟩, hd, hstep⟩ := Run.bind_eq_ok.mp hstep
    cases Except.ok.inj hstep
    have hheld : s.dispatch.creditsRob < 2 ^ 32 := H.held_lt (k := 0) (Nat.zero_le _)
    have D := Dispatch.dispatchInstructions_spec hheld H.unit_lt (checked_eq_ok.mp hd)
    have hcred := D.creditsRob
    simp only [retiredBy, List.append_nil]
    refine ⟨?_, fun e => ?_⟩
    · have hmove := H.balance.step (.send (k := out.toRob.length)
        (show out.toRob.length ≤ s.dispatch.creditsRob by omega))
      have hsub : s.dispatch.creditsRob - out.toRob.length = d.creditsRob := by omega
      simpa [loop, hsub] using hmove
    · have := D.unitCredits e
      have := H.unit_lt e
      show (d.dispatchers e).unitCredits < _
      omega
  | retire =>
    obtain ⟨-, -, hstep⟩ := Run.bind_eq_ok.mp hstep
    obtain ⟨⟨r, T, out⟩, hr, hstep⟩ := Run.bind_eq_ok.mp hstep
    cases Except.ok.inj hstep
    have hret := checked_eq_ok.mp hr
    obtain ⟨R, -⟩ := Rob.retireInstructions_spec hret
    have hbuf := congrArg List.length R.buffer
    rw [List.length_append] at hbuf
    have hcred : out.retiredThisCycle = out.retired.countP fun ri => ri.inst.uopId = 0 := by
      simpa using R.credits
    have hsum : (if out.retiredThisCycle ≠ 0 then s.robCredits ++ [out.retiredThisCycle]
        else s.robCredits).sum = s.robCredits.sum + out.retiredThisCycle := by
      split
      · simp
      · rename_i hzero
        simp only [not_not] at hzero
        omega
    have hlost : (lost (h ++ out.retired) : ℤ)
        = lost h + out.retired.length - out.retiredThisCycle := by
      have hsplit := List.length_eq_countP_add_countP
        (fun ri : RenamedInst => decide (ri.inst.uopId = 0)) (l := out.retired)
      have hneg : (out.retired.countP fun ri => decide ¬decide (ri.inst.uopId = 0) = true)
          = out.retired.countP fun ri => ri.inst.uopId ≠ 0 := by
        simp
      rw [hneg] at hsplit
      unfold lost
      rw [List.countP_append]
      omega
    simp only [retiredBy, hret]
    refine ⟨?_, H.unit_lt⟩
    have hmove := H.balance.step (.remove (k := out.retired.length) (j := out.retiredThisCycle)
      (show out.retired.length ≤ s.rob.reorderBuffer.length by omega))
    have hsub : s.rob.reorderBuffer.length - out.retired.length = r.reorderBuffer.length := by
      omega
    have hdrift : -(lost h : ℤ) + (out.retiredThisCycle - out.retired.length)
        = -(lost (h ++ out.retired) : ℤ) := by omega
    rw [hdrift] at hmove
    show CreditLoop.Balance _ _ ⟨_, _, _, _⟩
    rw [hsum, ← hsub]
    exact hmove
  | credits =>
    unfold step at hstep
    rcases hmsg : s.robCredits with _ | ⟨n, rest⟩
    · simp [hmsg] at hstep
    · simp only [hmsg] at hstep
      obtain ⟨-, -, hstep⟩ := Run.bind_eq_ok.mp hstep
      cases Except.ok.inj hstep
      simp only [retiredBy, List.append_nil]
      have hle : n ≤ s.robCredits.sum := by simp [hmsg]
      have hmove := H.balance.step (.credit (k := n) hle)
      refine ⟨?_, by simpa [Dispatch.robCredits] using H.unit_lt⟩
      have hadd : u32Add s.dispatch.creditsRob n = s.dispatch.creditsRob + n :=
        u32Add_of_lt (H.held_lt hle)
      simpa [loop, Dispatch.robCredits, hadd, hmsg] using hmove
  | unitCredits d n =>
    obtain ⟨-, -, hstep⟩ := Run.bind_eq_ok.mp hstep
    cases Except.ok.inj hstep
    simp only [retiredBy, List.append_nil]
    refine ⟨by simpa [loop, Dispatch.receiveCredits] using H.balance, fun e => ?_⟩
    by_cases he : e = d
    · subst he
      simpa [Dispatch.receiveCredits] using u32Add_lt _ _
    · simpa [Dispatch.receiveCredits, he] using H.unit_lt e
  | execute k status mispredicted =>
    obtain ⟨-, -, hstep⟩ := Run.bind_eq_ok.mp hstep
    cases Except.ok.inj hstep
    simp only [retiredBy, List.append_nil]
    exact ⟨H.balance, H.unit_lt⟩
  | nextCycle =>
    obtain ⟨-, -, hstep⟩ := Run.bind_eq_ok.mp hstep
    cases Except.ok.inj hstep
    simp only [retiredBy, List.append_nil]
    exact ⟨H.balance, H.unit_lt⟩

theorem reachable_inv {p : DispatchParams} {q : RobParams} {h : List RenamedInst}
    {s : DispatchRob}
    (hs : Run.Reachable (Run.traced (step p q) (retiredBy q)) ([], init q) (h, s)) :
    Inv q h s := by
  refine hs.invariant (I := fun hs => Inv q hs.1 hs.2) ⟨?_, ?_⟩ ?_
  · simp [CreditLoop.Balance, CreditLoop.total, loop, init, lost]
  · intro d
    show 0 < 2 ^ 32
    omega
  · intro op hs hs' H hstep
    obtain ⟨hstep, hhist⟩ := Run.traced_eq_ok.mp hstep
    rw [hhist]
    exact step_inv H hstep

end DispatchRob

/-- In every run, the credits Dispatch holds, those on their way back, the entries of the
reorder buffer and the group on its way to it add up to the depth of the buffer if and only if
every instruction retired so far had uop identifier 0. -/
theorem rob_credits_conserved_iff (p : DispatchParams) (q : RobParams) {h : List RenamedInst}
    {s : DispatchRob}
    (hs : Run.Reachable (Run.traced (DispatchRob.step p q) (DispatchRob.retiredBy q))
      ([], DispatchRob.init q) (h, s)) :
    s.dispatch.creditsRob + s.robCredits.sum + s.rob.reorderBuffer.length + s.toRob.length
        = q.retireQueueDepth ↔
      ∀ ri ∈ h, ri.inst.uopId = 0 := by
  have hbal := (DispatchRob.reachable_inv hs).balance
  have hsum : ((s.dispatch.creditsRob + s.robCredits.sum + s.rob.reorderBuffer.length
      + s.toRob.length : ℕ) : ℤ) = q.retireQueueDepth - DispatchRob.lost h := by
    have htotal : (s.loop.total : ℤ) = q.retireQueueDepth + -(DispatchRob.lost h : ℤ) := hbal
    simp only [CreditLoop.total, DispatchRob.loop] at htotal
    omega
  have hlost : DispatchRob.lost h = 0 ↔ ∀ ri ∈ h, ri.inst.uopId = 0 := by
    unfold DispatchRob.lost
    rw [List.countP_eq_zero]
    simp
  rw [← hlost]
  omega

/-- A topology in which one issue queue serves every pipe. -/
def oneQueue : DispatchParams := { dispatchers := fun _ => [.iq 0] }

/-- Two instructions are dispatched one after the other, completed and retired. -/
def retiredOps (insts : List RenamedInst) : List DispatchRobOp :=
  [.credits, .unitCredits (.iq 0) 8, .nextCycle, .append insts, .flush, .dispatch,
   .nextCycle, .deliver, .flush, .dispatch, .nextCycle, .deliver, .flush] ++
  insts.map (fun ri => .execute ri.key .completed false) ++ [.retire]

def twoInsts : List RenamedInst :=
  [{ inst := { uniqueId := 1, programId := 1 } }, { inst := { uniqueId := 2, programId := 2 } }]

/-- The ROB returns the credits of both instructions. -/
theorem rob_credits_conserved_iff_sample :
    ∃ h s, Run.Reachable (Run.traced (DispatchRob.step oneQueue {}) (DispatchRob.retiredBy {}))
        ([], DispatchRob.init {}) (h, s) ∧ h.length = 2 ∧ s.robCredits = [2] ∧
      s.dispatch.creditsRob + s.robCredits.sum + s.rob.reorderBuffer.length + s.toRob.length
        = 30 := by
  have heval : ((retiredOps twoInsts).foldlM
      (Run.traced (DispatchRob.step oneQueue {}) (DispatchRob.retiredBy {}))
      ([], DispatchRob.init {})).toOption.map (fun hs =>
        (hs.1.map fun ri => ri.inst.uopId, hs.2.robCredits)) = some ([0, 0], [2]) := by
    decide +kernel
  obtain ⟨⟨h, s⟩, hs, hval⟩ := Run.ok_of_eval heval
  obtain ⟨huops, hcredits⟩ := Prod.mk.inj hval
  have hlen : h.length = 2 := by simpa using congrArg List.length huops
  refine ⟨h, s, ⟨_, hs⟩, hlen, hcredits, (rob_credits_conserved_iff oneQueue {} ⟨_, hs⟩).mpr ?_⟩
  intro ri hri
  have hmem : ri.inst.uopId ∈ [0, 0] := huops ▸ List.mem_map_of_mem hri
  simpa using hmem

/-- The two uops of a vector instruction. -/
def twoUops : List RenamedInst :=
  [{ inst := { uniqueId := 1, uopId := 0, programId := 1, pipe := .vint, isVector := true } },
   { inst := { uniqueId := 1, uopId := 1, programId := 1, pipe := .vint, isVector := true } }]

/-- After a vector instruction of two uops one credit is gone. -/
theorem rob_credits_lost :
    ¬∀ s, Run.Reachable (DispatchRob.step oneQueue {}) (DispatchRob.init {}) s →
      s.dispatch.creditsRob + s.robCredits.sum + s.rob.reorderBuffer.length + s.toRob.length
        = ({} : RobParams).retireQueueDepth := by
  intro hall
  have heval : ((retiredOps twoUops).foldlM (DispatchRob.step oneQueue {})
      (DispatchRob.init {})).toOption.map
      (fun s => s.dispatch.creditsRob + s.robCredits.sum + s.rob.reorderBuffer.length
        + s.toRob.length) = some 29 := by
    decide +kernel
  obtain ⟨s, hs, hsum⟩ := Run.ok_of_eval heval
  have heq := hall s ⟨_, hs⟩
  rw [hsum] at heq
  exact absurd heq (by decide)

end Olympia
