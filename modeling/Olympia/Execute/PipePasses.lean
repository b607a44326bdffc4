import Mathlib.Tactic.Abel
import Olympia.Execute.Units

/-!
# The passes of an execution pipe

One `ExecutePipe` on its own: instructions are inserted whenever it can accept one, its events fire,
and flushes come at any time.  A `VINT` uop keeps the pipe for as many passes as it needs, counted
by `num_passes_needed_` and `curr_num_pass_`.

`flushInst_` makes the pipe free when it has cancelled what executes, but does not reset the
counters, and cancels `issue_inst_` whatever the flush includes.  So a flush that removes a uop in
the middle of its passes spoils the pipe (`ExecutePipe.Spoils`), and the pipe is clean whenever it
is free exactly if no flush does: `pipe_clean_when_free`.
-/

namespace Olympia

namespace ExecutePipe

/-- The passes an instruction needs. -/
def passes (p : ExecutePipeParams) (i : Inst) : ℕ :=
  if !i.isVset && i.isVector && i.pipe == .vint then max 1 (numPasses p i) else 1

/-- The instructions that have been inserted and are not completed. -/
def inPipe (s : ExecutePipeState) : List RenamedInst := working s ++ s.completeInst

/-- No pass is counted and no event is outstanding. -/
structure Clean (s : ExecutePipeState) : Prop where
  numPassesNeeded : s.numPassesNeeded = 0
  currNumPass : s.currNumPass = 0
  executeInst : s.executeInst = []
  issueInst : s.issueInst = []

/-- The flush removes an instruction of several passes: it includes the one that executes, or
comes between two passes. -/
def Spoils (s : ExecutePipeState) (c : FlushingCriteria) : Prop :=
  s.numPassesNeeded ≠ 0 ∧ ∀ ri ∈ s.executeInst, c.includedInFlush ri.inst = true

instance (s : ExecutePipeState) (c : FlushingCriteria) : Decidable (Spoils s c) :=
  inferInstanceAs (Decidable (_ ∧ _))

end ExecutePipe

structure PipeSystem where
  pipe : ExecutePipeState := {}
  table : InstTable
  scoreboards : Scoreboards

/-- The issue queue inserts an instruction, an outstanding event fires, or a flush comes. -/
inductive PipeOp where
  | insert (ri : RenamedInst)
  | execute (n : ℕ) (random : Bool)
  | reissue (n : ℕ)
  | complete (n : ℕ)
  | flush (c : FlushingCriteria)

inductive PipeEvent where
  | accepted (ri : RenamedInst)
  /-- a pass before the last -/
  | passed (ri : RenamedInst)
  /-- the last pass -/
  | executed (ri : RenamedInst)
  | completed (ri : RenamedInst)
  | flushed (ri : RenamedInst)

namespace PipeSystem

open ExecutePipe

def step (p : ExecutePipeParams) (s : PipeSystem) : PipeOp → Except Stop PipeSystem
  | .insert ri => do
    enabled (canAccept s.pipe)
    let (pipe, table) ← checked (insertInst p s.pipe s.table ri)
    return { s with pipe := pipe, table := table }
  | .execute n random => do
    let (pipe, table, sb, _) ← outstanding
      ((executeInst p s.pipe s.table s.scoreboards n random).map .ok)
    return ⟨pipe, table, sb⟩
  | .reissue n => do
    let (pipe, table) ← outstanding (reissueInst p s.pipe s.table n)
    return { s with pipe := pipe, table := table }
  | .complete n => do
    let (pipe, table) ← outstanding ((completeInst s.pipe s.table n).map .ok)
    return { s with pipe := pipe, table := table }
  | .flush c => return { s with pipe := flushInst s.pipe c }

/-- What a step shows. -/
def obs (s : PipeSystem) : PipeOp → List PipeEvent
  | .insert ri => [.accepted ri]
  | .execute n _ => s.pipe.executeInst[n]?.toList.map fun ri =>
      if morePasses s.pipe then .passed ri else .executed ri
  | .reissue _ => []
  | .complete n => s.pipe.completeInst[n]?.toList.map .completed
  | .flush c => ((inPipe s.pipe).filter fun ri => c.includedInFlush ri.inst).map .flushed

/-! ## Histories -/

/-- The instruction that was accepted last, and its passes so far. -/
def current (hist : List PipeEvent) : Option (RenamedInst × ℕ) :=
  hist.foldl (fun cur e => match e with
    | .accepted ri => some (ri, 0)
    | .passed _ => cur.map fun x => (x.1, x.2 + 1)
    | _ => cur) none

def acceptedOf (hist : List PipeEvent) : List RenamedInst :=
  hist.filterMap fun
    | .accepted ri => some ri
    | _ => none

def completedOf (hist : List PipeEvent) : List RenamedInst :=
  hist.filterMap fun
    | .completed ri => some ri
    | _ => none

def flushedOf (hist : List PipeEvent) : List RenamedInst :=
  hist.filterMap fun
    | .flushed ri => some ri
    | _ => none

/-- Every instruction that executes its last pass is the one that was accepted last, and has had
all its other passes. -/
def AllPasses (p : ExecutePipeParams) : List PipeEvent → Prop :=
  Run.AtEach fun h e => ∀ ri, e = .executed ri →
    ∃ n, current h = some (ri, n) ∧ n + 1 = passes p ri.inst

/-- Every instruction that was accepted is completed once, or flushed, or in the pipe. -/
def Balanced (hist : List PipeEvent) (s : ExecutePipeState) : Prop :=
  (acceptedOf hist : Multiset RenamedInst) = completedOf hist + flushedOf hist + inPipe s

section

variable {hist h : List PipeEvent} {l : List RenamedInst}

@[simp] theorem acceptedOf_append : acceptedOf (hist ++ h) = acceptedOf hist ++ acceptedOf h :=
  List.filterMap_append

@[simp] theorem completedOf_append : completedOf (hist ++ h) = completedOf hist ++ completedOf h :=
  List.filterMap_append

@[simp] theorem flushedOf_append : flushedOf (hist ++ h) = flushedOf hist ++ flushedOf h :=
  List.filterMap_append

@[simp] theorem acceptedOf_accepted (ri : RenamedInst) : acceptedOf [.accepted ri] = [ri] := rfl

@[simp] theorem completedOf_accepted (ri : RenamedInst) : completedOf [.accepted ri] = [] := rfl

@[simp] theorem flushedOf_accepted (ri : RenamedInst) : flushedOf [.accepted ri] = [] := rfl

@[simp] theorem acceptedOf_completed (ri : RenamedInst) : acceptedOf [.completed ri] = [] := rfl

@[simp] theorem completedOf_completed (ri : RenamedInst) : completedOf [.completed ri] = [ri] :=
  rfl

@[simp] theorem flushedOf_completed (ri : RenamedInst) : flushedOf [.completed ri] = [] := rfl

@[simp] theorem acceptedOf_flushed : acceptedOf (l.map .flushed) = [] := by simp [acceptedOf]

@[simp] theorem completedOf_flushed : completedOf (l.map .flushed) = [] := by simp [completedOf]

@[simp] theorem flushedOf_flushed : flushedOf (l.map .flushed) = l := by
  simp [flushedOf, List.filterMap_map]

theorem current_append_flushed : current (hist ++ l.map .flushed) = current hist := by
  simp [current, List.foldl_map]

end

/-! ## The invariant -/

/-- The instruction occupies the pipe, and the counters agree with its passes so far. -/
structure Occupies (p : ExecutePipeParams) (hist : List PipeEvent) (s : ExecutePipeState)
    (ri : RenamedInst) : Prop where
  counters : (s.numPassesNeeded = 0 ∧ s.currNumPass = 0 ∧ passes p ri.inst = 1) ∨
    (1 < s.numPassesNeeded ∧ s.numPassesNeeded = passes p ri.inst ∧ 1 ≤ s.currNumPass ∧
      s.currNumPass ≤ s.numPassesNeeded)
  place : (s.executeInst = [ri] ∧ s.issueInst = [] ∧
      current hist = some (ri, s.currNumPass - 1)) ∨
    (s.executeInst = [] ∧ s.issueInst = [ri] ∧ s.currNumPass < s.numPassesNeeded ∧
      current hist = some (ri, s.currNumPass))

structure Tidy (p : ExecutePipeParams) (hist : List PipeEvent) (s : ExecutePipeState) : Prop where
  idle : canAccept s = true → Clean s
  busy : canAccept s = false → ∃ ri, Occupies p hist s ri
  passes : AllPasses p hist
  balanced : Balanced hist s

theorem tidy_init (p : ExecutePipeParams) : Tidy p [] {} where
  idle _ := ⟨rfl, rfl, rfl, rfl⟩
  busy h := by cases h
  passes := .nil
  balanced := rfl

/-- The first pass of an instruction. -/
theorem countPasses_first {p : ExecutePipeParams} {s s' : ExecutePipeState} {i : Inst}
    (hneeded : s.numPassesNeeded = 0) (h : countPasses p s i = .ok s') :
    (s' = s ∧ passes p i = 1) ∨
      (1 < passes p i ∧ s' = { s with numPassesNeeded := passes p i, currNumPass := 1 }) := by
  unfold countPasses at h
  unfold passes
  split at h
  · rename_i hvec
    rw [if_pos hvec]
    split at h
    · rename_i hmore
      obtain rfl := Except.ok.inj h
      rw [max_eq_right hmore.le]
      exact .inr ⟨hmore, rfl⟩
    · rename_i hmore
      obtain rfl := Except.ok.inj h
      exact .inl ⟨rfl, by omega⟩
  · rename_i hvec
    obtain rfl := Except.ok.inj h
    rw [if_neg hvec]
    exact .inl ⟨rfl, rfl⟩

/-- A further pass of an instruction. -/
theorem countPasses_next {p : ExecutePipeParams} {s s' : ExecutePipeState} {i : Inst}
    (hneeded : s.numPassesNeeded ≠ 0) (hmore : 1 < passes p i) (h : countPasses p s i = .ok s') :
    s' = { s with currNumPass := s.currNumPass + 1 } := by
  unfold countPasses at h
  unfold passes at hmore
  split at h
  · obtain ⟨-, -, h⟩ := Run.bind_eq_ok.mp h
    exact (Except.ok.inj h).symm
  · rename_i hvec
    rw [if_neg hvec] at hmore
    exact absurd hmore (lt_irrefl 1)

theorem insertInst_eq {p : ExecutePipeParams} {s s' : ExecutePipeState} {T T' : InstTable}
    {ri : RenamedInst} (h : insertInst p s T ri = .ok (s', T')) :
    ∃ s₁, countPasses p s ri.inst = .ok s₁ ∧
      s' = { s₁ with unitBusy := true, executeInst := s₁.executeInst ++ [ri] } ∧
      T' = if s.numPassesNeeded = 0 then T.setStatus ri.key .scheduled else T := by
  obtain ⟨-, -, h⟩ := Run.bind_eq_ok.mp h
  obtain ⟨s₁, hs₁, h⟩ := Run.bind_eq_ok.mp h
  obtain ⟨-, -, h⟩ := Run.bind_eq_ok.mp h
  obtain ⟨rfl, rfl⟩ := Prod.mk.inj (Except.ok.inj h)
  exact ⟨s₁, hs₁, rfl, rfl⟩

section Steps

variable {p : ExecutePipeParams} {hist : List PipeEvent} {s s' : PipeSystem} {ri : RenamedInst}

/-- An instruction that is accepted is scheduled, and begins its first pass. -/
theorem insert_step (H : Tidy p hist s.pipe) (hstep : s.step p (.insert ri) = .ok s') :
    Tidy p (hist ++ s.obs (.insert ri)) s'.pipe ∧ s'.table.status ri.key = .scheduled := by
  obtain ⟨u, hacc, hstep⟩ := Run.bind_eq_ok.mp hstep
  obtain ⟨⟨pipe, T⟩, hins, hstep⟩ := Run.bind_eq_ok.mp hstep
  obtain rfl := Except.ok.inj hstep
  have C := H.idle (enabled_eq_ok.mp hacc)
  obtain ⟨s₁, hcount, rfl, rfl⟩ := insertInst_eq (checked_eq_ok.mp hins)
  have hcases := countPasses_first C.numPassesNeeded hcount
  have hsame : s₁.executeInst = [] ∧ s₁.issueInst = [] ∧ s₁.completeInst = s.pipe.completeInst := by
    rcases hcases with ⟨rfl, -⟩ | ⟨-, rfl⟩
    · exact ⟨C.executeInst, C.issueInst, rfl⟩
    · exact ⟨C.executeInst, C.issueInst, rfl⟩
  obtain ⟨hexe, hissue, hcomplete⟩ := hsame
  have hcurrent : current (hist ++ [.accepted ri]) = some (ri, 0) := by simp [current]
  have hcounters : (s₁.numPassesNeeded = 0 ∧ s₁.currNumPass = 0 ∧ passes p ri.inst = 1) ∨
      (1 < s₁.numPassesNeeded ∧ s₁.numPassesNeeded = passes p ri.inst ∧ s₁.currNumPass = 1) := by
    rcases hcases with ⟨rfl, hone⟩ | ⟨hmore, rfl⟩
    · exact .inl ⟨C.numPassesNeeded, C.currNumPass, hone⟩
    · exact .inr ⟨hmore, rfl, rfl⟩
  refine ⟨⟨fun h => (by cases h), fun _ => ⟨ri, ⟨?_, .inl ⟨?_, hissue, ?_⟩⟩⟩, ?_, ?_⟩, ?_⟩
  · rcases hcounters with h | ⟨hmore, hneeded, hcurr⟩
    · exact .inl h
    · exact .inr ⟨hmore, hneeded, hcurr.ge, hcurr.le.trans hmore.le⟩
  · rw [hexe]
    rfl
  · rw [show s.obs (.insert ri) = [.accepted ri] from rfl, hcurrent]
    rcases hcounters with ⟨-, hcurr, -⟩ | ⟨-, -, hcurr⟩
    · simp [hcurr]
    · simp [hcurr]
  · exact H.passes.concat fun rj hrj => (by cases hrj)
  · have hbal := H.balanced
    unfold Balanced inPipe working at hbal ⊢
    simp only [C.executeInst, C.issueInst, hexe, hissue, hcomplete, List.nil_append] at hbal ⊢
    simp only [obs, acceptedOf_append, completedOf_append, flushedOf_append, ← Multiset.coe_add,
      hbal, acceptedOf_accepted, completedOf_accepted, flushedOf_accepted]
    abel
  · rw [if_pos C.numPassesNeeded]
    simp [InstTable.setStatus]

/-- What occupies the pipe when an instruction executes. -/
theorem occupies_of_mem (H : Tidy p hist s.pipe) {n : ℕ}
    (hn : s.pipe.executeInst[n]? = some ri) :
    Occupies p hist s.pipe ri ∧ n = 0 ∧ s.pipe.executeInst = [ri] ∧ s.pipe.issueInst = [] ∧
      current hist = some (ri, s.pipe.currNumPass - 1) := by
  have hmem := List.mem_of_getElem? hn
  cases hacc : canAccept s.pipe with
  | true =>
    rw [(H.idle hacc).executeInst] at hmem
    cases hmem
  | false =>
    obtain ⟨rj, O⟩ := H.busy hacc
    rcases O.place with ⟨hexe, hissue, hcurrent⟩ | ⟨hexe, -⟩
    · rw [hexe] at hn hmem
      obtain rfl := List.mem_singleton.mp hmem
      have hlt := (List.getElem?_eq_some_iff.mp hn).1
      exact ⟨O, by simpa using hlt, hexe, hissue, hcurrent⟩
    · rw [hexe] at hmem
      cases hmem

theorem execute_step {n : ℕ} {random : Bool} (H : Tidy p hist s.pipe)
    (hstep : s.step p (.execute n random) = .ok s') :
    Tidy p (hist ++ s.obs (.execute n random)) s'.pipe := by
  obtain ⟨⟨pipe, T, sb, executed⟩, hexec, hstep⟩ := Run.bind_eq_ok.mp hstep
  obtain rfl := Except.ok.inj hstep
  obtain ⟨r, hr, heq⟩ := Option.map_eq_some_iff.mp (outstanding_eq_ok.mp hexec)
  obtain rfl := Except.ok.inj heq
  unfold executeInst at hr
  rcases hn : s.pipe.executeInst[n]? with _ | ri
  · rw [hn] at hr
    cases hr
  · obtain ⟨O, rfl, hexe, hissue, hcurrent⟩ := occupies_of_mem H hn
    have hbal := H.balanced
    unfold Balanced inPipe working at hbal
    simp only [hexe, hissue] at hbal
    rw [hn] at hr
    dsimp only at hr
    split at hr
    · -- another pass follows
      rename_i hmore
      have hmore : morePasses s.pipe = true := hmore
      obtain ⟨rfl, -⟩ := Prod.mk.inj (Option.some.inj hr)
      have hobs : s.obs (.execute 0 random) = [.passed ri] := by
        simp only [obs, hn, Option.toList_some, List.map_cons, List.map_nil]
        rw [if_pos hmore]
      rw [hobs]
      obtain ⟨hneeded, hlt⟩ : s.pipe.numPassesNeeded ≠ 0 ∧
          s.pipe.currNumPass < s.pipe.numPassesNeeded := by simpa [morePasses] using hmore
      have hcounters := O.counters.resolve_left fun h => hneeded h.1
      have hacc : canAccept s.pipe = false := by
        cases hacc : canAccept s.pipe with
        | false => rfl
        | true => exact absurd (H.idle hacc).numPassesNeeded hneeded
      refine ⟨fun h => ?_, fun _ => ⟨ri, .inr hcounters, .inr ⟨?_, ?_, hlt, ?_⟩⟩, ?_, ?_⟩
      · have hsame : canAccept s.pipe = true := h
        rw [hacc] at hsame
        cases hsame
      · simp [hexe]
      · simp [hissue]
      · have hpos := hcounters.2.2.1
        have hnext : current (hist ++ [.passed ri]) =
            (current hist).map fun x => (x.1, x.2 + 1) := by simp [current]
        rw [hnext, hcurrent, Option.map_some, Nat.sub_add_cancel hpos]
      · exact H.passes.concat fun rj hrj => (by cases hrj)
      · unfold Balanced inPipe working
        simpa [hexe, hissue, acceptedOf, completedOf, flushedOf] using hbal
    · -- the last pass
      rename_i hlast
      have hlast : ¬morePasses s.pipe = true := hlast
      obtain ⟨rfl, -⟩ := Prod.mk.inj (Option.some.inj hr)
      have hobs : s.obs (.execute 0 random) = [.executed ri] := by
        simp only [obs, hn, Option.toList_some, List.map_cons, List.map_nil]
        rw [if_neg hlast]
      rw [hobs]
      have hlast : s.pipe.numPassesNeeded = 0 ∨
          s.pipe.numPassesNeeded ≤ s.pipe.currNumPass := by
        simpa [morePasses, or_iff_not_imp_left] using hlast
      refine ⟨fun _ => ⟨rfl, ?_, by simp [hexe], hissue⟩, fun h => (by cases h), ?_, ?_⟩
      · rcases O.counters with ⟨hneeded, hcurr, -⟩ | ⟨hmore, -⟩
        · simp [hneeded, hcurr]
        · have hne : s.pipe.numPassesNeeded ≠ 0 := by omega
          simp [hne]
      · refine H.passes.concat fun rj hrj => ?_
        obtain rfl := PipeEvent.executed.inj hrj
        refine ⟨_, hcurrent, ?_⟩
        rcases O.counters with ⟨-, hcurr, hone⟩ | ⟨hmore, hneeded, hpos, hle⟩
        · rw [hcurr, hone]
        · omega
      · unfold Balanced inPipe working
        simp only [hexe, hissue, List.eraseIdx_cons_zero, List.append_nil, List.nil_append]
          at hbal ⊢
        have hevents : acceptedOf (hist ++ [.executed ri]) = acceptedOf hist ∧
            completedOf (hist ++ [.executed ri]) = completedOf hist ∧
            flushedOf (hist ++ [.executed ri]) = flushedOf hist := by
          simp [acceptedOf, completedOf, flushedOf]
        rw [hevents.1, hevents.2.1, hevents.2.2, hbal, ← Multiset.coe_add, ← Multiset.coe_add]
        abel

theorem reissue_step {n : ℕ} (H : Tidy p hist s.pipe) (hstep : s.step p (.reissue n) = .ok s') :
    Tidy p (hist ++ s.obs (.reissue n)) s'.pipe := by
  obtain ⟨⟨pipe, T⟩, hre, hstep⟩ := Run.bind_eq_ok.mp hstep
  obtain rfl := Except.ok.inj hstep
  obtain ⟨ri, hn, hins⟩ := Option.map_eq_some_iff.mp (outstanding_eq_ok.mp hre)
  obtain ⟨s₁, hcount, rfl, rfl⟩ := insertInst_eq hins
  simp only [obs, List.append_nil]
  have hmem := List.mem_of_getElem? hn
  have hacc : canAccept s.pipe = false := by
    cases hacc : canAccept s.pipe with
    | false => rfl
    | true =>
      rw [(H.idle hacc).issueInst] at hmem
      cases hmem
  obtain ⟨rj, O⟩ := H.busy hacc
  obtain ⟨hexe, hissue, hlt, hcurrent⟩ := O.place.resolve_left fun h => by
    rw [h.2.1] at hmem
    cases hmem
  rw [hissue] at hmem hn
  obtain rfl := List.mem_singleton.mp hmem
  obtain rfl : n = 0 := by simpa using (List.getElem?_eq_some_iff.mp hn).1
  have hneeded : s.pipe.numPassesNeeded ≠ 0 := by omega
  have hcounters := O.counters.resolve_left fun h => hneeded h.1
  obtain rfl := countPasses_next (s := { s.pipe with issueInst := s.pipe.issueInst.eraseIdx 0 })
    hneeded (by rw [← hcounters.2.1]; exact hcounters.1) hcount
  refine ⟨fun h => (by cases h), fun _ => ⟨ri, .inr ⟨hcounters.1, hcounters.2.1, ?_, hlt⟩,
    .inl ⟨?_, ?_, hcurrent⟩⟩, H.passes, ?_⟩
  · exact Nat.succ_pos _
  · simp [hexe]
  · simp [hissue]
  · have hbal := H.balanced
    unfold Balanced inPipe working at hbal ⊢
    simpa [hexe, hissue] using hbal

theorem complete_step {n : ℕ} (H : Tidy p hist s.pipe) (hstep : s.step p (.complete n) = .ok s') :
    Tidy p (hist ++ s.obs (.complete n)) s'.pipe := by
  obtain ⟨⟨pipe, T⟩, hcomp, hstep⟩ := Run.bind_eq_ok.mp hstep
  obtain rfl := Except.ok.inj hstep
  obtain ⟨r, hr, heq⟩ := Option.map_eq_some_iff.mp (outstanding_eq_ok.mp hcomp)
  obtain rfl := Except.ok.inj heq
  obtain ⟨ri, hn, hr⟩ := Option.map_eq_some_iff.mp hr
  obtain ⟨rfl, -⟩ := Prod.mk.inj hr
  have hobs : s.obs (.complete n) = [.completed ri] := by simp [obs, hn]
  rw [hobs]
  have hcurrent : current (hist ++ [.completed ri]) = current hist := by simp [current]
  refine ⟨fun h => ?_, fun h => ?_, ?_, ?_⟩
  · obtain ⟨h₁, h₂, h₃, h₄⟩ := H.idle h
    exact ⟨h₁, h₂, h₃, h₄⟩
  · obtain ⟨rj, O⟩ := H.busy h
    refine ⟨rj, O.counters, ?_⟩
    rw [hcurrent]
    exact O.place
  · exact H.passes.concat fun rj hrj => (by cases hrj)
  · have hbal := H.balanced
    obtain ⟨hlt, hget⟩ := List.getElem?_eq_some_iff.mp hn
    have hperm := List.getElem_cons_eraseIdx_perm hlt
    rw [hget] at hperm
    have hsplit : (s.pipe.completeInst : Multiset RenamedInst) =
        [ri] + (s.pipe.completeInst.eraseIdx n : List RenamedInst) :=
      (Multiset.coe_eq_coe.mpr hperm).symm
    have hworking : working { s.pipe with completeInst := s.pipe.completeInst.eraseIdx n } =
        working s.pipe := rfl
    unfold Balanced inPipe at hbal ⊢
    rw [← Multiset.coe_add] at hbal
    simp only [acceptedOf_append, completedOf_append, flushedOf_append, acceptedOf_completed,
      completedOf_completed, flushedOf_completed, List.append_nil, hbal, hsplit, hworking,
      ← Multiset.coe_add]
    abel

/-- A flush that does not spoil the pipe. -/
theorem flush_step {c : FlushingCriteria} (H : Tidy p hist s.pipe) (hc : ¬Spoils s.pipe c)
    (hstep : s.step p (.flush c) = .ok s') : Tidy p (hist ++ s.obs (.flush c)) s'.pipe := by
  obtain rfl := Except.ok.inj hstep
  have hissue : s.pipe.issueInst = [] := by
    cases hacc : canAccept s.pipe with
    | true => exact (H.idle hacc).issueInst
    | false =>
      obtain ⟨ri, O⟩ := H.busy hacc
      rcases O.place with ⟨-, hissue, -⟩ | ⟨hexe, -, hlt, -⟩
      · exact hissue
      · -- between two passes
        refine absurd ⟨by omega, fun rj hrj => ?_⟩ hc
        rw [hexe] at hrj
        cases hrj
  have hfree : canAccept (flushInst s.pipe c) = true ↔
      canAccept s.pipe = true ∨ (flushInst s.pipe c).executeInst = [] := by
    unfold canAccept flushInst
    dsimp only
    split
    · rename_i hnil
      simp [hnil]
    · rename_i hne
      simp [hne]
  have hcurrent : current (hist ++ s.obs (.flush c)) = current hist := current_append_flushed
  refine ⟨fun hacc => ?_, fun hacc => ?_, ?_, ?_⟩
  · cases hwas : canAccept s.pipe with
    | true =>
      obtain ⟨h₁, h₂, h₃, -⟩ := H.idle hwas
      exact ⟨h₁, h₂, by simp [flushInst, h₃], rfl⟩
    | false =>
      -- what executed is included in the flush, so it needed one pass
      obtain ⟨ri, O⟩ := H.busy hwas
      have hnil := (hfree.mp hacc).resolve_left (by simp [hwas])
      have hneeded : s.pipe.numPassesNeeded = 0 := by
        by_contra hne
        refine hc ⟨hne, fun rj hrj => ?_⟩
        simpa using List.filter_eq_nil_iff.mp hnil rj hrj
      rcases O.counters with ⟨-, hcurr, -⟩ | ⟨hmore, -⟩
      · exact ⟨hneeded, hcurr, hnil, rfl⟩
      · omega
  · have hnot : ¬(canAccept s.pipe = true ∨ (flushInst s.pipe c).executeInst = []) := by
      rw [← hfree, hacc]
      simp
    obtain ⟨hwas, hne⟩ := not_or.mp hnot
    obtain ⟨ri, O⟩ := H.busy (by simpa using hwas)
    rcases O.place with ⟨hexe, -, hcur⟩ | ⟨-, hissue', -⟩
    · have hkept : (flushInst s.pipe c).executeInst = [ri] := by
        simp only [flushInst, hexe, List.filter_cons, List.filter_nil] at hne ⊢
        split at hne
        · rename_i hkeep
          rw [if_pos hkeep]
        · exact absurd rfl hne
      refine ⟨ri, O.counters, .inl ⟨hkept, rfl, ?_⟩⟩
      rw [hcurrent]
      exact hcur
    · rw [hissue] at hissue'
      cases hissue'
  · refine Run.AtEach.append_of_forall H.passes fun e he h₁ ri hri => ?_
    subst hri
    simp [obs] at he
  · have hbal := H.balanced
    unfold Balanced at hbal ⊢
    have hkept : inPipe (flushInst s.pipe c) =
        (inPipe s.pipe).filter fun ri => !c.includedInFlush ri.inst := by
      simp [inPipe, working, flushInst, hissue]
    have hsplit : (inPipe s.pipe : Multiset RenamedInst) =
        ((inPipe s.pipe).filter fun ri => c.includedInFlush ri.inst : List RenamedInst) +
          ((inPipe s.pipe).filter fun ri => !c.includedInFlush ri.inst : List RenamedInst) :=
      (Multiset.coe_eq_coe.mpr (List.filter_append_perm _ _)).symm
    simp only [obs, acceptedOf_append, completedOf_append, flushedOf_append, acceptedOf_flushed,
      completedOf_flushed, flushedOf_flushed, List.append_nil, hbal, hkept, ← Multiset.coe_add]
    rw [hsplit]
    abel

end Steps

end PipeSystem

open ExecutePipe PipeSystem

/-- A pipe is clean whenever it is free, sets the status of every instruction it accepts, gives each
all its passes and completes it once unless it is flushed, if and only if no flush removes an
instruction in the middle of its passes. -/
theorem pipe_clean_when_free (p : ExecutePipeParams) (T : InstTable) (sb : Scoreboards)
    {ops : List PipeOp} {s : PipeSystem}
    (hrun : ops.foldlM (PipeSystem.step p) ⟨{}, T, sb⟩ = .ok s) :
    ((∀ hist t, Run.Visits (Run.traced (PipeSystem.step p) PipeSystem.obs)
        ([], ⟨{}, T, sb⟩) ops (hist, t) →
        (canAccept t.pipe = true → Clean t.pipe) ∧ AllPasses p hist ∧ Balanced hist t.pipe) ∧
      ∀ t ri t', Run.Takes (PipeSystem.step p) ⟨{}, T, sb⟩ ops t (.insert ri) →
        t.step p (.insert ri) = .ok t' → t'.table.status ri.key = .scheduled) ↔
    ∀ t c, Run.Takes (PipeSystem.step p) ⟨{}, T, sb⟩ ops t (.flush c) → ¬Spoils t.pipe c := by
  constructor
  · -- after a flush that spoils the pipe, it is free and still counts passes
    rintro ⟨hall, -⟩ t c htakes ⟨hneeded, hincl⟩
    obtain ⟨hist, htraced⟩ := htakes.exists_traced PipeSystem.obs
    obtain ⟨hist', hrun⟩ := Run.exists_traced_of_foldlM PipeSystem.obs hrun
    obtain ⟨⟨hist₁, t'⟩, hstep, hvisits⟩ := htraced.next hrun
    obtain ⟨hstep, -⟩ := Run.traced_eq_ok.mp hstep
    obtain rfl := Except.ok.inj hstep
    have hnil : (flushInst t.pipe c).executeInst = [] :=
      List.filter_eq_nil_iff.mpr fun ri hri => by simp [hincl ri hri]
    have hacc : canAccept (flushInst t.pipe c) = true := by
      unfold canAccept
      rw [show (flushInst t.pipe c).unitBusy = false from if_pos hnil]
      rfl
    exact hneeded ((hall _ _ hvisits).1 hacc).numPassesNeeded
  · intro hflush
    have htidy : ∀ hist t, Run.Visits (Run.traced (PipeSystem.step p) PipeSystem.obs)
        ([], ⟨{}, T, sb⟩) ops (hist, t) → Tidy p hist t.pipe := by
      intro hist t hvisits
      refine hvisits.invariant (I := fun hs => Tidy p hs.1 hs.2.pipe) (tidy_init p) ?_
      rintro op ⟨hist, t⟩ ⟨hist', t'⟩ H htakes hstep
      obtain ⟨hstep, rfl⟩ := Run.traced_eq_ok.mp hstep
      cases op with
      | insert ri => exact (insert_step H hstep).1
      | execute n random => exact execute_step H hstep
      | reissue n => exact reissue_step H hstep
      | complete n => exact complete_step H hstep
      | flush c => exact flush_step H (hflush _ c htakes.of_traced) hstep
    refine ⟨fun hist t hvisits => ?_, fun t ri t' htakes hstep => ?_⟩
    · have H := htidy hist t hvisits
      exact ⟨H.idle, H.passes, H.balanced⟩
    · obtain ⟨hist, htraced⟩ := htakes.exists_traced PipeSystem.obs
      exact (insert_step (htidy hist t htraced.visits) hstep).2

/-- `vadd.vv` with 64-bit elements: two passes through eight adders. -/
def twoPassAdd : RenamedInst :=
  { inst := { uniqueId := 1, pipe := .vint, isVector := true, vectorConfig := { sew := 64 } } }

def noStatus : InstTable := ⟨fun _ => .dispatched, fun _ => false⟩

def noneReady : Scoreboards := fun _ _ => false

/-- The addition has both its passes and completes; the next instruction is flushed while it
executes. -/
def twoPassOps : List PipeOp :=
  [.insert twoPassAdd, .execute 0 false, .reissue 0, .execute 0 false, .complete 0,
   .insert { inst := { uniqueId := 2 } }, .flush ⟨.misprediction, false, 1⟩]

theorem pipe_clean_when_free_sample :
    ∃ hist s, twoPassOps.foldlM (Run.traced (PipeSystem.step {}) PipeSystem.obs)
        ([], ⟨{}, noStatus, noneReady⟩) = .ok (hist, s) ∧ canAccept s.pipe = true ∧
      Clean s.pipe ∧ AllPasses {} hist ∧ Balanced hist s.pipe := by
  have hall : Run.along (PipeSystem.step {}) (fun s op => match op with
      | .flush c => decide (¬Spoils s.pipe c)
      | _ => true) ⟨{}, noStatus, noneReady⟩ twoPassOps = true := by
    decide +kernel
  have heval : (twoPassOps.foldlM (PipeSystem.step {}) ⟨{}, noStatus, noneReady⟩).toOption.map
      (fun s => canAccept s.pipe) = some true := by
    decide +kernel
  obtain ⟨s, hs, hacc⟩ := Run.ok_of_eval heval
  have hflush : ∀ t c, Run.Takes (PipeSystem.step {}) ⟨{}, noStatus, noneReady⟩ twoPassOps t
      (.flush c) → ¬Spoils t.pipe c := by
    intro t c htakes
    have htest := Run.Takes.of_along hall htakes
    exact of_decide_eq_true htest
  obtain ⟨hist, hrun⟩ := Run.exists_traced_of_foldlM PipeSystem.obs hs
  obtain ⟨hclean, hpasses, hbalanced⟩ :=
    ((pipe_clean_when_free {} noStatus noneReady hs).mpr hflush).1 hist s (.last hrun)
  exact ⟨hist, s, hrun, hacc, hclean hacc, hpasses, hbalanced⟩

/-- The addition is flushed in its first pass: the pipe is free and counts on. -/
theorem pipe_free_and_counting :
    ¬∀ t, Run.Visits (PipeSystem.step {}) ⟨{}, noStatus, noneReady⟩
        [.insert twoPassAdd, .flush ⟨.misprediction, false, 0⟩] t →
      canAccept t.pipe = true → Clean t.pipe := by
  intro h
  have heval : ([PipeOp.insert twoPassAdd, .flush ⟨.misprediction, false, 0⟩].foldlM
      (PipeSystem.step {}) ⟨{}, noStatus, noneReady⟩).toOption.map
      (fun s => (canAccept s.pipe, s.pipe.numPassesNeeded)) = some (true, 2) := by
    decide +kernel
  obtain ⟨s, hs, hval⟩ := Run.ok_of_eval heval
  obtain ⟨hacc, hneeded⟩ := Prod.mk.inj hval
  rw [(h s (.last hs) hacc).numPassesNeeded] at hneeded
  cases hneeded

end Olympia
