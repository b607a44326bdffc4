import Mathlib.Algebra.Group.Int.Defs
import Mathlib.Data.List.Perm.Basic
import Olympia.Lib.Run
import Olympia.FlushManager

/-!
# Execution pipes

`core/execute/ExecutePipe.cpp`: an instruction is inserted, executes for its latency, sets the
scoreboard bits of its destinations and completes a cycle later.  A vector instruction of the
`VINT` pipe may need several passes, and goes back to `insertInst` between them.

The three events `issue_inst_`, `execute_inst_` and `complete_inst_` are modelled by the lists
of their outstanding payloads; when an event fires, relative to the others, is left open.
-/

namespace Olympia

/-- The execution pipes of the core, numbered. -/
abbrev PipeId := ℕ

/-- `ExecutePipeParameterSet`. -/
structure ExecutePipeParams where
  ignoreInstExecuteTime : Bool := false
  executeTime : ℕ := 1
  enableRandomMisprediction : Bool := false
  valuAdderNum : ℕ := 8

structure ExecutePipeState where
  unitBusy : Bool := false
  numPassesNeeded : ℕ := 0
  currNumPass : ℕ := 0
  /-- payloads of `issue_inst_` -/
  issueInst : List RenamedInst := []
  /-- payloads of `execute_inst_` -/
  executeInst : List RenamedInst := []
  /-- payloads of `complete_inst_` -/
  completeInst : List RenamedInst := []

namespace ExecutePipe

/-- `canAccept`. -/
def canAccept (s : ExecutePipeState) : Bool := !s.unitBusy

/-- The number of passes of a `VINT` uop: the elements it has are those of one register, or
what is left of `VL`, computed on unsigned integers from the uop identifier minus one. -/
def numPasses (p : ExecutePipeParams) (i : Inst) : ℕ :=
  let c := i.vectorConfig
  let numElemsPerUop := c.vlmax / c.lmul
  let numElemsRemaining := (((c.vl : ℤ) - numElemsPerUop * ((i.uopId : ℤ) - 1)) % 2 ^ 32).toNat
  min numElemsPerUop numElemsRemaining / p.valuAdderNum

/-- The part of `insertInst` that counts passes. -/
def countPasses (p : ExecutePipeParams) (s : ExecutePipeState) (i : Inst) :
    Except Assertion ExecutePipeState :=
  if !i.isVset && i.isVector && i.pipe == .vint then
    if s.numPassesNeeded = 0 then
      if 1 < numPasses p i then .ok { s with numPassesNeeded := numPasses p i, currNumPass := 1 }
      else .ok s
    else do
      spartaAssert (s.currNumPass + 1 ≤ s.numPassesNeeded) .tooManyPasses
      return { s with currNumPass := s.currNumPass + 1 }
  else .ok s

/-- `insertInst`. -/
def insertInst (p : ExecutePipeParams) (s : ExecutePipeState) (T : InstTable) (ri : RenamedInst) :
    Except Assertion (ExecutePipeState × InstTable) := do
  let T := if s.numPassesNeeded = 0 then T.setStatus ri.key .scheduled else T
  spartaAssert (s.numPassesNeeded ≠ 0 || !s.unitBusy) .pipeBusy
  let s ← countPasses p s ri.inst
  spartaAssert ((if p.ignoreInstExecuteTime then p.executeTime else ri.inst.executeTime) ≠ 0)
    .noExecuteTime
  return ({ s with unitBusy := true, executeInst := s.executeInst ++ [ri] }, T)

/-- The pipe executes another pass of its instruction. -/
def morePasses (s : ExecutePipeState) : Bool :=
  s.numPassesNeeded != 0 && s.currNumPass < s.numPassesNeeded

/-- `setReady` of the destinations on all scoreboards. -/
def writeback (sb : Scoreboards) (ri : RenamedInst) : Scoreboards :=
  fun f => (sb f).setReady (ri.destMask f)

/-- `executeInst_` on the `n`-th outstanding payload.  The result is the instruction that has
executed its final pass, if it has; a mispredicted branch is drawn at random. -/
def executeInst (p : ExecutePipeParams) (s : ExecutePipeState) (T : InstTable)
    (sb : Scoreboards) (n : ℕ) (random : Bool) :
    Option (ExecutePipeState × InstTable × Scoreboards × Option RenamedInst) :=
  match s.executeInst[n]? with
  | none => none
  | some ri =>
    let s := { s with executeInst := s.executeInst.eraseIdx n }
    if morePasses s then some ({ s with issueInst := s.issueInst ++ [ri] }, T, sb, none)
    else
      let mispredicted := p.enableRandomMisprediction && ri.inst.isBranch && random
      some ({ s with
          currNumPass := if s.numPassesNeeded ≠ 0 then 0 else s.currNumPass
          numPassesNeeded := 0
          unitBusy := false
          completeInst := s.completeInst ++ [ri] },
        if mispredicted then
          { T with mispredicted := Function.update T.mispredicted ri.key true } else T,
        writeback sb ri, some ri)

/-- The event `issue_inst_` with its `n`-th outstanding payload. -/
def reissueInst (p : ExecutePipeParams) (s : ExecutePipeState) (T : InstTable) (n : ℕ) :
    Option (Except Assertion (ExecutePipeState × InstTable)) :=
  s.issueInst[n]?.map fun ri => insertInst p { s with issueInst := s.issueInst.eraseIdx n } T ri

/-- `completeInst_` on the `n`-th outstanding payload. -/
def completeInst (s : ExecutePipeState) (T : InstTable) (n : ℕ) :
    Option (ExecutePipeState × InstTable) :=
  s.completeInst[n]?.map fun ri =>
    ({ s with completeInst := s.completeInst.eraseIdx n }, T.setStatus ri.key .completed)

/-- `flushInst_`. -/
def flushInst (s : ExecutePipeState) (c : FlushingCriteria) : ExecutePipeState :=
  let executing := s.executeInst.filter fun ri => !c.includedInFlush ri.inst
  { s with
    issueInst := []
    completeInst := s.completeInst.filter fun ri => !c.includedInFlush ri.inst
    executeInst := executing
    unitBusy := if executing = [] then false else s.unitBusy }

/-! ## What the handlers do -/

/-- The instructions that have been inserted and have not executed their final pass. -/
def working (s : ExecutePipeState) : List RenamedInst := s.executeInst ++ s.issueInst

/-- A pipe works on one instruction at a time, and only when it is busy. -/
structure Single (s : ExecutePipeState) : Prop where
  length_le : (working s).length ≤ 1
  idle : s.unitBusy = false → working s = []

theorem insertInst_spec {p : ExecutePipeParams} {s s' : ExecutePipeState} {T T' : InstTable}
    {ri : RenamedInst} (h : insertInst p s T ri = .ok (s', T')) :
    s'.unitBusy = true ∧ s'.executeInst = s.executeInst ++ [ri] ∧ s'.issueInst = s.issueInst ∧
      s'.completeInst = s.completeInst ∧ ∀ P, T.Progress P T' := by
  obtain ⟨-, -, h⟩ := Run.bind_eq_ok.mp h
  obtain ⟨s₁, hs₁, h⟩ := Run.bind_eq_ok.mp h
  obtain ⟨-, -, h⟩ := Run.bind_eq_ok.mp h
  obtain ⟨rfl, rfl⟩ := Prod.mk.inj (Except.ok.inj h)
  have hframe : s₁.executeInst = s.executeInst ∧ s₁.issueInst = s.issueInst ∧
      s₁.completeInst = s.completeInst := by
    unfold countPasses at hs₁
    split at hs₁
    · split at hs₁
      · split at hs₁
        · obtain rfl := Except.ok.inj hs₁
          exact ⟨rfl, rfl, rfl⟩
        · obtain rfl := Except.ok.inj hs₁
          exact ⟨rfl, rfl, rfl⟩
      · obtain ⟨-, -, hs₁⟩ := Run.bind_eq_ok.mp hs₁
        obtain rfl := Except.ok.inj hs₁
        exact ⟨rfl, rfl, rfl⟩
    · obtain rfl := Except.ok.inj hs₁
      exact ⟨rfl, rfl, rfl⟩
  refine ⟨rfl, by rw [← hframe.1], hframe.2.1, hframe.2.2, fun P => ?_⟩
  split
  · exact .scheduled P T ri.key
  · exact .refl P T

/-- An instruction inserted into a pipe that can accept it is the only one there. -/
theorem insertInst_idle {p : ExecutePipeParams} {s s' : ExecutePipeState} {T T' : InstTable}
    {ri : RenamedInst} (hs : Single s) (hacc : canAccept s = true)
    (h : insertInst p s T ri = .ok (s', T')) : working s' = [ri] ∧ Single s' := by
  obtain ⟨hbusy, hexe, hissue, -, -⟩ := insertInst_spec h
  have hidle := hs.idle (by simpa [canAccept] using hacc)
  obtain ⟨hexe₀, hissue₀⟩ := List.append_eq_nil_iff.mp hidle
  have hworking : working s' = [ri] := by
    unfold working
    rw [hexe, hissue, hexe₀, hissue₀]
    rfl
  exact ⟨hworking, by rw [hworking]; rfl, fun hb => by rw [hbusy] at hb; cases hb⟩

/-- What `executeInst_` does: it puts the instruction back for another pass, or has executed
it. -/
theorem executeInst_spec {p : ExecutePipeParams} {s s' : ExecutePipeState} {T T' : InstTable}
    {sb sb' : Scoreboards} {n : ℕ} {random : Bool} {executed : Option RenamedInst}
    (hs : Single s) (h : executeInst p s T sb n random = some (s', T', sb', executed)) :
    ∃ ri, working s = [ri] ∧ Single s' ∧
      ((executed = none ∧ working s' = [ri] ∧ s'.completeInst = s.completeInst ∧ T' = T ∧
          sb' = sb) ∨
        (executed = some ri ∧ working s' = [] ∧ s'.completeInst = s.completeInst ++ [ri] ∧
          T.Progress (fun rj => rj = ri) T' ∧ sb' = writeback sb ri)) := by
  unfold executeInst at h
  rcases hn : s.executeInst[n]? with _ | ri
  · simp [hn] at h
  · have hmem := List.mem_of_getElem? hn
    have hlen := hs.length_le
    unfold working at hlen
    rw [List.length_append] at hlen
    obtain ⟨hexe, hissue⟩ : s.executeInst = [ri] ∧ s.issueInst = [] := by
      have hpos := List.length_pos_of_mem hmem
      have hone : s.executeInst.length = 1 := by omega
      obtain ⟨e, he⟩ := List.length_eq_one_iff.mp hone
      rw [he, List.mem_singleton] at hmem
      exact ⟨by rw [he, hmem], List.eq_nil_of_length_eq_zero (by omega)⟩
    have hzero : n = 0 := by
      have := (List.getElem?_eq_some_iff.mp hn).1
      rw [hexe] at this
      simpa using this
    subst hzero
    have hbusy : s.unitBusy = true := by
      by_contra hb
      have hidle := hs.idle (by simpa using hb)
      simp [working, hexe] at hidle
    refine ⟨ri, by simp [working, hexe, hissue], ?_⟩
    simp only [hn] at h
    split at h
    · obtain ⟨rfl, rfl, rfl, rfl⟩ := by simpa using h
      refine ⟨⟨by simp [working, hexe, hissue], fun hb => ?_⟩, .inl ⟨rfl, ?_, rfl, rfl, rfl⟩⟩
      · rw [hbusy] at hb
        cases hb
      · simp [working, hexe, hissue]
    · obtain ⟨rfl, rfl, rfl, rfl⟩ := by simpa using h
      refine ⟨⟨by simp [working, hexe, hissue], fun _ => by simp [working, hexe, hissue]⟩,
        .inr ⟨rfl, by simp [working, hexe, hissue], rfl, ?_, rfl⟩⟩
      split
      · rename_i hmis
        refine ⟨fun _ => .inl rfl, fun k hk => ?_⟩
        by_cases hkey : k = ri.key
        · refine .inr ⟨ri, rfl, hkey.symm, ?_⟩
          exact hmis.1.2
        · exact .inl (by simpa [Function.update_of_ne hkey] using hk)
      · exact .refl _ T

/-- The next pass is of the same instruction. -/
theorem reissueInst_spec {p : ExecutePipeParams} {s s' : ExecutePipeState} {T T' : InstTable}
    {n : ℕ} (hs : Single s) (h : reissueInst p s T n = some (.ok (s', T'))) :
    Single s' ∧ (∀ ri ∈ working s', ri ∈ working s) ∧ s'.completeInst = s.completeInst ∧
      ∀ P, T.Progress P T' := by
  obtain ⟨ri, hri, h⟩ := Option.map_eq_some_iff.mp h
  obtain ⟨hbusy, hexe, hissue, hcomplete, hT⟩ := insertInst_spec h
  have hperm : (working s').Perm (working s) := by
    unfold working
    rw [hexe, hissue, List.append_assoc]
    refine List.Perm.append_left _ ?_
    obtain ⟨hlt, hget⟩ := List.getElem?_eq_some_iff.mp hri
    have hcons := List.getElem_cons_eraseIdx_perm hlt
    rw [hget] at hcons
    exact hcons
  refine ⟨⟨hperm.length_eq ▸ hs.length_le, fun hb => ?_⟩, fun r hr => hperm.mem_iff.mp hr,
    hcomplete, hT⟩
  rw [hbusy] at hb
  cases hb

/-- A flush leaves a pipe with what it does not include of what it had. -/
theorem flushInst_spec {s : ExecutePipeState} (hs : Single s) (c : FlushingCriteria) :
    Single (flushInst s c) ∧
      (∀ ri ∈ working (flushInst s c), ri ∈ working s ∧ c.includedInFlush ri.inst = false) ∧
      ∀ ri ∈ (flushInst s c).completeInst, ri ∈ s.completeInst := by
  have hlen := hs.length_le
  unfold working at hlen
  rw [List.length_append] at hlen
  have hfilter := List.length_filter_le (fun ri : RenamedInst => !c.includedInFlush ri.inst)
    s.executeInst
  refine ⟨⟨?_, fun hb => ?_⟩, fun ri hri => ?_, fun ri hri => List.mem_of_mem_filter hri⟩
  · simp only [working, flushInst, List.append_nil]
    omega
  · simp only [working, flushInst, List.append_nil] at hb ⊢
    by_contra hne
    rw [if_neg hne] at hb
    have hidle := List.append_eq_nil_iff.mp (hs.idle hb)
    rw [hidle.1] at hne
    exact hne rfl
  · simp only [working, flushInst, List.append_nil, List.mem_filter] at hri
    exact ⟨List.mem_append_left _ hri.1, by simpa using hri.2⟩

end ExecutePipe

end Olympia
