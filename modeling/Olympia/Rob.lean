import Mathlib.Data.List.DropRight
import Olympia.Lib.Run
import Olympia.FlushManager

/-!
# The reorder buffer

`core/ROB.cpp`: instructions are appended in dispatch order, retired in order once they are
completed, and flushed from the back.  Retiring a mispredicted instruction, or a CSR
instruction of the SYS pipe, asks for a flush and stops retirement until it arrives.

`retireOne` is the body of the loop of `retireInstructions_`, which tells whether the loop goes
on, and `retireLoop` is the loop.  A status is a property of the shared instruction object, so
the functions take and return the `InstTable`.

Not modelled: the forward-progress check, which compares clock cycles, statistics other than
`num_retired_`, which decides when the simulation stops, and `setOldest`, which only
schedules the next retirement.
-/

namespace Olympia

/-- `ROBParameterSet`. -/
structure RobParams where
  numToRetire : ℕ := 4
  retireQueueDepth : ℕ := 30
  numInstsToRetire : ℕ := 0
  retireQueueDepth_lt : retireQueueDepth < 2 ^ 32 := by decide

structure RobState where
  reorderBuffer : List RenamedInst := []
  expectFlush : Bool := false
  expectedProgramID : ℕ := 1
  numRetired : ℕ := 0
  /-- `rob_stopped_simulation_` -/
  stopped : Bool := false

/-- What `retireInstructions_` sends: the retired group to Rename, its stores to the LSU, the
credits to Dispatch and a flush request. -/
structure RetireOut where
  retired : List RenamedInst := []
  storeAcks : List RenamedInst := []
  retiredThisCycle : ℕ := 0
  flush : Option FlushingCriteria := none

namespace Rob

/-- `robAppended_`.  `push` on a full `sparta::Queue` asserts. -/
def robAppended (p : RobParams) (s : RobState) (insts : List RenamedInst) :
    Except Assertion RobState := do
  spartaAssert (s.reorderBuffer.length + insts.length ≤ p.retireQueueDepth) .bufferFull
  return { s with reorderBuffer := s.reorderBuffer ++ insts }

/-- `handleFlush_`: the new state, the statuses and the credits sent to Dispatch. -/
def handleFlush (s : RobState) (T : InstTable) (c : FlushingCriteria) :
    Except Assertion (RobState × InstTable × ℕ) := do
  spartaAssert s.expectFlush .unexpectedFlush
  let flushed := s.reorderBuffer.rtakeWhile fun ri => c.includedInFlush ri.inst
  return ({ s with
      expectFlush := false
      reorderBuffer := s.reorderBuffer.rdropWhile fun ri => c.includedInFlush ri.inst },
    T.setStatuses (flushed.map RenamedInst.key) .flushed, flushed.length)

/-- The flush a retired instruction asks for: after a misprediction, or, in `retireSysInst_`,
after a CSR instruction. -/
def flushCause (T : InstTable) (ri : RenamedInst) : Option FlushCause :=
  if T.mispredicted ri.key then some .misprediction
  else if ri.inst.pipe = .sys ∧ ri.inst.isCsr then some .postSync
  else none

/-- The bookkeeping of an instruction's first uop: it counts, and its program ID is checked. -/
def countRetired (s : RobState) (out : RetireOut) (i : Inst) :
    Except Assertion (RobState × RetireOut) :=
  if i.uopId = 0 then do
    spartaAssert (i.programId = s.expectedProgramID) .unexpectedProgramID
    return ({ s with
        numRetired := s.numRetired + 1
        expectedProgramID := s.expectedProgramID + i.programIdIncrement },
      { out with retiredThisCycle := out.retiredThisCycle + 1 })
  else .ok (s, out)

/-- The body of the loop of `retireInstructions_`, and whether the loop goes on. -/
def retireOne (p : RobParams) (s : RobState) (T : InstTable) (out : RetireOut) :
    Except Assertion (RobState × InstTable × RetireOut × Bool) :=
  match s.reorderBuffer with
  | [] => .error .bufferEmpty
  | ri :: rest => do
    spartaAssert (!ri.inst.isSpeculative) .retiringSpeculative
    if T.status ri.key = .completed then
      let T := T.setStatus ri.key .retired
      let (s, out) ← countRetired { s with reorderBuffer := rest }
        { out with
          retired := out.retired ++ [ri]
          storeAcks := if ri.inst.isStore then out.storeAcks ++ [ri] else out.storeAcks }
        ri.inst
      if s.numRetired = p.numInstsToRetire then
        return ({ s with stopped := true }, T, out, false)
      else
        match flushCause T ri with
        | some cause => do
          let criteria ← FlushingCriteria.make cause ri.inst
          return ({ s with expectFlush := true }, T, { out with flush := some criteria }, false)
        | none => return (s, T, out, true)
    else return (s, T, out, false)

/-- The loop of `retireInstructions_`. -/
def retireLoop (p : RobParams) : ℕ → RobState → InstTable → RetireOut →
    Except Assertion (RobState × InstTable × RetireOut)
  | 0, s, T, out => .ok (s, T, out)
  | n + 1, s, T, out => do
    let (s, T, out, goOn) ← retireOne p s T out
    if goOn then retireLoop p n s T out else return (s, T, out)

/-- `retireInstructions_`. -/
def retireInstructions (p : RobParams) (s : RobState) (T : InstTable) :
    Except Assertion (RobState × InstTable × RetireOut) :=
  if s.expectFlush then .ok (s, T, {})
  else retireLoop p (min s.reorderBuffer.length p.numToRetire) s T {}

/-! ## What retiring does -/

/-- Everything a successful iteration of the retire loop can have done: it retired nothing and
stops, or it retired the oldest entry and stops because the simulation ends or a flush was
asked for, or goes on. -/
theorem retireOne_cases {p : RobParams} {s s' : RobState} {T T' : InstTable}
    {out out' : RetireOut} {goOn : Bool}
    (h : retireOne p s T out = .ok (s', T', out', goOn)) :
    (s' = s ∧ T' = T ∧ out' = out ∧ goOn = false) ∨
    ∃ ri rest, s.reorderBuffer = ri :: rest ∧ T.status ri.key = .completed ∧
      s'.reorderBuffer = rest ∧ T' = T.setStatus ri.key .retired ∧
      out'.retired = out.retired ++ [ri] ∧
      out'.storeAcks = (if ri.inst.isStore then out.storeAcks ++ [ri] else out.storeAcks) ∧
      out'.retiredThisCycle = out.retiredThisCycle + (if ri.inst.uopId = 0 then 1 else 0) ∧
      ((s'.expectFlush = s.expectFlush ∧ out'.flush = out.flush) ∨
        (∃ cause c, flushCause T ri = some cause ∧
          FlushingCriteria.make cause ri.inst = .ok c ∧
          s'.expectFlush = true ∧ out'.flush = some c ∧ goOn = false)) := by
  unfold retireOne at h
  rcases hbuf : s.reorderBuffer with _ | ⟨ri, rest⟩
  · rw [hbuf] at h
    cases h
  · rw [hbuf] at h
    dsimp only at h
    obtain ⟨-, -, h⟩ := Run.bind_eq_ok.mp h
    split at h
    · rename_i hdone
      obtain ⟨⟨s₁, out₁⟩, hcount, h⟩ := Run.bind_eq_ok.mp h
      have hcounted : s₁.reorderBuffer = rest ∧ s₁.expectFlush = s.expectFlush ∧
          out₁.retired = out.retired ++ [ri] ∧
          out₁.storeAcks =
            (if ri.inst.isStore then out.storeAcks ++ [ri] else out.storeAcks) ∧
          out₁.flush = out.flush ∧
          out₁.retiredThisCycle =
            out.retiredThisCycle + (if ri.inst.uopId = 0 then 1 else 0) := by
        unfold countRetired at hcount
        split at hcount
        · rename_i huop
          obtain ⟨-, -, hcount⟩ := Run.bind_eq_ok.mp hcount
          obtain ⟨rfl, rfl⟩ := Prod.mk.inj (Except.ok.inj hcount)
          exact ⟨rfl, rfl, rfl, rfl, rfl, by rw [if_pos huop]⟩
        · rename_i huop
          obtain ⟨rfl, rfl⟩ := Prod.mk.inj (Except.ok.inj hcount)
          exact ⟨rfl, rfl, rfl, rfl, rfl, by rw [if_neg huop, Nat.add_zero]⟩
      obtain ⟨hrest, hexp, hret, hacks, hfl, hcnt⟩ := hcounted
      refine .inr ⟨ri, rest, rfl, hdone, ?_⟩
      dsimp only at h
      split at h
      · cases Except.ok.inj h
        exact ⟨hrest, rfl, hret, hacks, hcnt, .inl ⟨hexp, hfl⟩⟩
      · have hcause : flushCause (T.setStatus ri.key .retired) ri = flushCause T ri := rfl
        rw [hcause] at h
        rcases hflush : flushCause T ri with _ | cause
        · simp only [hflush] at h
          cases Except.ok.inj h
          exact ⟨hrest, rfl, hret, hacks, hcnt, .inl ⟨hexp, hfl⟩⟩
        · simp only [hflush] at h
          obtain ⟨c, hc, h⟩ := Run.bind_eq_ok.mp h
          cases Except.ok.inj h
          exact ⟨hrest, rfl, hret, hacks, hcnt, .inr ⟨cause, c, rfl, hc, rfl, rfl, rfl⟩⟩
    · cases Except.ok.inj h
      exact .inl ⟨rfl, rfl, rfl, rfl⟩

/-- What `retireInstructions_` has done: the retired group `new` is a prefix of the buffer, each
entry of it is marked, the credits count its entries with uop identifier 0, and a flush is
asked for by the last entry of the group or not at all. -/
structure RetireSpec (s s' : RobState) (T T' : InstTable) (out out' : RetireOut)
    (new : List RenamedInst) : Prop where
  retired : out'.retired = out.retired ++ new
  completed : ∀ ri ∈ new, T.status ri.key = .completed
  storeAcks : ∀ ri ∈ out'.storeAcks, ri ∈ out.storeAcks ∨ ri ∈ new
  buffer : s.reorderBuffer = new ++ s'.reorderBuffer
  credits : out'.retiredThisCycle =
    out.retiredThisCycle + new.countP fun ri => ri.inst.uopId = 0
  status : T'.status = fun k => if k ∈ new.map RenamedInst.key then .retired else T.status k
  mispredicted : T'.mispredicted = T.mispredicted
  flush : (s'.expectFlush = s.expectFlush ∧ out'.flush = out.flush) ∨
    ∃ front ri cause c, new = front ++ [ri] ∧ flushCause T ri = some cause ∧
      FlushingCriteria.make cause ri.inst = .ok c ∧
      s'.expectFlush = true ∧ out'.flush = some c

theorem RetireSpec.refl (s : RobState) (T : InstTable) (out : RetireOut) :
    RetireSpec s s T T out out [] :=
  ⟨by simp, by simp, fun _ h => .inl h, rfl, by simp, by simp, rfl, .inl ⟨rfl, rfl⟩⟩

theorem retireLoop_spec {p : RobParams} :
    ∀ (n : ℕ) {s s' : RobState} {T T' : InstTable} {out out' : RetireOut},
      retireLoop p n s T out = .ok (s', T', out') →
      ∃ new, RetireSpec s s' T T' out out' new
  | 0, s, s', T, T', out, out', h => by
    obtain ⟨rfl, rfl, rfl⟩ : s = s' ∧ T = T' ∧ out = out' := by simpa [retireLoop] using h
    exact ⟨[], .refl s T out⟩
  | n + 1, s, s', T, T', out, out', h => by
    unfold retireLoop at h
    obtain ⟨⟨s₁, T₁, out₁, goOn⟩, hone, h⟩ := Run.bind_eq_ok.mp h
    dsimp only at h
    rcases retireOne_cases hone with ⟨rfl, rfl, rfl, rfl⟩ |
      ⟨ri, rest, hbuf, hdone, hrest, rfl, hret, hacks, hcnt, hflush⟩
    · cases Except.ok.inj h
      exact ⟨[], .refl _ _ _⟩
    · split at h
      · rename_i hgo
        obtain ⟨hexp, hfl⟩ : s₁.expectFlush = s.expectFlush ∧ out₁.flush = out.flush := by
          rcases hflush with h | ⟨_, _, -, -, -, -, hstop⟩
          · exact h
          · rw [hgo] at hstop
            cases hstop
        obtain ⟨new, R⟩ := retireLoop_spec n h
        refine ⟨ri :: new, ?_, ?_, ?_, ?_, ?_, ?_, R.mispredicted, ?_⟩
        · rw [R.retired, hret, List.append_assoc]
          rfl
        · intro rj hrj
          rcases List.mem_cons.mp hrj with rfl | hrj
          · exact hdone
          · -- what is completed after the first entry is marked is another instruction
            have hj := R.completed rj hrj
            by_cases hkey : rj.key = ri.key
            · simp [InstTable.setStatus, hkey] at hj
            · simpa [InstTable.setStatus, hkey] using hj
        · intro rj hrj
          rcases R.storeAcks rj hrj with hrj | hrj
          · rw [hacks] at hrj
            split at hrj
            · rcases List.mem_append.mp hrj with hrj | hrj
              · exact .inl hrj
              · exact .inr (by simp_all)
            · exact .inl hrj
          · exact .inr (List.mem_cons_of_mem _ hrj)
        · rw [hbuf, ← hrest, R.buffer]
          rfl
        · rw [R.credits, hcnt, List.countP_cons]
          simp only [decide_eq_true_eq]
          omega
        · rw [R.status]
          funext k
          by_cases hk : k = ri.key
          · simp [hk, InstTable.setStatus]
          · simp [hk, InstTable.setStatus]
        · rcases R.flush with ⟨h1, h2⟩ | ⟨front, rj, cause, c, hnew, hcause, hmake, h1, h2⟩
          · exact .inl ⟨h1.trans hexp, h2.trans hfl⟩
          · exact .inr ⟨ri :: front, rj, cause, c, by simp [hnew], hcause, hmake, h1, h2⟩
      · cases Except.ok.inj h
        refine ⟨[ri], hret, by simpa using hdone, ?_, by rw [hbuf, hrest]; rfl, ?_, ?_, rfl, ?_⟩
        · intro rj hrj
          rw [hacks] at hrj
          split at hrj
          · simpa using hrj
          · exact .inl hrj
        · rw [hcnt, List.countP_cons]
          simp
        · funext k
          by_cases hk : k = ri.key
          · simp [hk, InstTable.setStatus]
          · simp [hk, InstTable.setStatus]
        · rcases hflush with h | ⟨cause, c, hcause, hmake, h1, h2, -⟩
          · exact .inl h
          · exact .inr ⟨[], ri, cause, c, rfl, hcause, hmake, h1, h2⟩

theorem retireInstructions_spec {p : RobParams} {s s' : RobState} {T T' : InstTable}
    {out : RetireOut} (h : retireInstructions p s T = .ok (s', T', out)) :
    RetireSpec s s' T T' {} out out.retired ∧
      (s.expectFlush = true → s' = s ∧ T' = T ∧ out = {}) := by
  unfold retireInstructions at h
  split at h
  · rename_i hexp
    obtain ⟨rfl, rfl, rfl⟩ : s = s' ∧ T = T' ∧ ({} : RetireOut) = out := by simpa using h
    exact ⟨.refl s T {}, fun _ => ⟨rfl, rfl, rfl⟩⟩
  · rename_i hexp
    obtain ⟨new, R⟩ := retireLoop_spec _ h
    have hnew : out.retired = new := by simpa using R.retired
    rw [hnew]
    exact ⟨R, fun hexp' => absurd hexp' hexp⟩

theorem retireLoop_storeAcks {p : RobParams} :
    ∀ (n : ℕ) {s s' : RobState} {T T' : InstTable} {out out' : RetireOut},
      retireLoop p n s T out = .ok (s', T', out') →
      out.storeAcks = out.retired.filter (fun ri => ri.inst.isStore) →
      out'.storeAcks = out'.retired.filter fun ri => ri.inst.isStore
  | 0, s, s', T, T', out, out', h, hacks => by
    obtain ⟨-, -, rfl⟩ : s = s' ∧ T = T' ∧ out = out' := by simpa [retireLoop] using h
    exact hacks
  | n + 1, s, s', T, T', out, out', h, hacks => by
    unfold retireLoop at h
    obtain ⟨⟨s₁, T₁, out₁, goOn⟩, hone, h⟩ := Run.bind_eq_ok.mp h
    have hacks₁ : out₁.storeAcks = out₁.retired.filter fun ri => ri.inst.isStore := by
      rcases retireOne_cases hone with ⟨-, -, rfl, -⟩ | ⟨ri, rest, -, -, -, -, hret, hsend, -, -⟩
      · exact hacks
      · rw [hret, hsend, List.filter_append, hacks]
        cases hstore : ri.inst.isStore with
        | true => simp [hstore]
        | false => simp [hstore]
    dsimp only at h
    split at h
    · exact retireLoop_storeAcks n h hacks₁
    · cases Except.ok.inj h
      exact hacks₁

/-- The LSU is told of the stores that have retired, and of nothing else. -/
theorem retireInstructions_storeAcks {p : RobParams} {s s' : RobState} {T T' : InstTable}
    {out : RetireOut} (h : retireInstructions p s T = .ok (s', T', out)) :
    out.storeAcks = out.retired.filter fun ri => ri.inst.isStore := by
  unfold retireInstructions at h
  split at h
  · obtain ⟨-, -, rfl⟩ : s = s' ∧ T = T' ∧ ({} : RetireOut) = out := by simpa using h
    rfl
  · exact retireLoop_storeAcks _ h rfl

/-- A flush removes the longest suffix it includes and returns one credit for each entry. -/
theorem handleFlush_spec {s s' : RobState} {T T' : InstTable} {c : FlushingCriteria}
    {credits : ℕ} (h : handleFlush s T c = .ok (s', T', credits)) :
    s'.expectFlush = false ∧
      s'.reorderBuffer = s.reorderBuffer.rdropWhile (fun ri => c.includedInFlush ri.inst) ∧
      s'.reorderBuffer.length + credits = s.reorderBuffer.length ∧
      T'.mispredicted = T.mispredicted := by
  obtain ⟨-, -, h⟩ := Run.bind_eq_ok.mp h
  cases Except.ok.inj h
  refine ⟨rfl, rfl, ?_, rfl⟩
  rw [← List.length_append, List.rdropWhile_append_rtakeWhile]

/-- The assertions at which retiring can stop. -/
def retireAssertions : List Assertion :=
  [.bufferEmpty, .retiringSpeculative, .unexpectedProgramID, .unknownFlushCause]

theorem retireOne_failsIn {p : RobParams} (s : RobState) (T : InstTable) (out : RetireOut) :
    Run.FailsIn (· ∈ retireAssertions) (retireOne p s T out) := by
  unfold retireOne
  split
  · exact .error (by simp [retireAssertions])
  · refine .bind (spartaAssert_failsIn (by simp [retireAssertions])) fun _ => ?_
    split
    · refine .bind ?_ fun st => ?_
      · unfold countRetired
        split
        · exact .bind (spartaAssert_failsIn (by simp [retireAssertions])) fun _ => .ok _
        · exact .ok _
      · dsimp only
        split
        · exact .ok _
        · split
          · refine .bind (.bind ?_ fun _ => .ok _) fun _ => .ok _
            unfold determineInclusive
            split <;> first | exact .ok _ | exact .error (by simp [retireAssertions])
          · exact .ok _
    · exact .ok _

theorem retireInstructions_failsIn {p : RobParams} (s : RobState) (T : InstTable) :
    Run.FailsIn (· ∈ retireAssertions) (retireInstructions p s T) := by
  have hloop : ∀ (n : ℕ) (s : RobState) (T : InstTable) (out : RetireOut),
      Run.FailsIn (· ∈ retireAssertions) (retireLoop p n s T out) := by
    intro n
    induction n with
    | zero => exact fun s T out => .ok _
    | succ n ih =>
      intro s T out
      refine (retireOne_failsIn s T out).bind fun st => ?_
      dsimp only
      split
      · exact ih _ _ _
      · exact .ok _
  unfold retireInstructions
  split
  · exact .ok _
  · exact hloop _ _ _ _

end Rob

end Olympia
