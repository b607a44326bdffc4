import Olympia.DecodeVsets
import Olympia.Fetch

/-!
# The generators of instructions

`core/InstGenerator.cpp`: a generator goes through a trace, and a flush sets it back to an
instruction that it has returned.  The generator of JSON files counts an index and that of STF files
moves an iterator; otherwise they do the same, so they are two readers of one generator.  What Mavis
makes of a record is a parameter.

A generator numbers what it returns: `unique_id_` goes on for ever, `program_id_` is set back with
the trace.  `InTraceOrder` says what this means for the instructions it returns, and
`GeneratorCalls.Follows` is kept by any calls of `getNextInst` and `reset`.
-/

namespace Olympia

/-- An instruction as Mavis makes it: no uop, and nothing is marked on it. -/
structure FetchEntry.IsNew (e : FetchEntry) : Prop where
  uopId : e.inst.uopId = 0
  programIdIncrement : e.inst.programIdIncrement = 1
  isNew : e.inst.isNew = true
  unmarked : e.lastInFetchBlock = false

/-- `setUniqueID` and `setProgramID`. -/
def FetchEntry.number (e : FetchEntry) (uniqueId programId : ℕ) : FetchEntry :=
  { e with inst := { e.inst with uniqueId := uniqueId, programId := programId } }

theorem FetchEntry.IsNew.number {e : FetchEntry} (h : e.IsNew) (uniqueId programId : ℕ) :
    (e.number uniqueId programId).IsNew :=
  ⟨h.uopId, h.programIdIncrement, h.isNew, h.unmarked⟩

/-- An instruction with its rewind iterator. -/
structure GeneratedInst (ι : Type) where
  entry : FetchEntry
  rewindIterator : ι

namespace GeneratedInst

variable {ι : Type}

def inst (i : GeneratedInst ι) : Inst := i.entry.inst

def uniqueId (i : GeneratedInst ι) : ℕ := i.inst.uniqueId

def programId (i : GeneratedInst ι) : ℕ := i.inst.programId

end GeneratedInst

/-- How a generator goes through its trace. -/
structure TraceReader (ι ρ : Type) where
  start : ι
  next : ι → ι
  /-- the record at an iterator, `none` if the trace is done -/
  record : ι → Option ρ
  /-- the test of a rewind iterator in `reset` -/
  validRewind : ι → Except Assertion Unit

/-- What Mavis makes of a record. -/
abbrev MakeInst (ρ : Type) := ρ → Except Assertion { e : FetchEntry // e.IsNew }

/-- `InstGenerator`, and the iterator that its derivations have. -/
structure InstGenerator (ι : Type) where
  nextIt : ι
  uniqueId : ℕ := 0
  programId : ℕ := 1

namespace InstGenerator

variable {ι ρ : Type}

/-- `getNextInst`, which returns nothing when the trace is done. -/
def getNextInst (r : TraceReader ι ρ) (make : MakeInst ρ) (g : InstGenerator ι) :
    Except Assertion (Option (GeneratedInst ι × InstGenerator ι)) :=
  match r.record g.nextIt with
  | none => .ok none
  | some x => do
    let e ← make x
    return some (⟨e.1.number (g.uniqueId + 1) g.programId, g.nextIt⟩,
      ⟨r.next g.nextIt, g.uniqueId + 1, g.programId + 1⟩)

/-- `reset`. -/
def reset (r : TraceReader ι ρ) (g : InstGenerator ι) (i : GeneratedInst ι) (skip : Bool) :
    Except Assertion (InstGenerator ι) := do
  r.validRewind i.rewindIterator
  return { g with
    nextIt := if skip then r.next i.rewindIterator else i.rewindIterator
    programId := if skip then i.programId + 1 else i.programId }

end InstGenerator

/-- The trace of `JSONInstGenerator`, whose iterators are `curr_inst_index_`. -/
def JSONInstGenerator.reader {ρ : Type} (jobj : List ρ) : TraceReader ℕ ρ where
  start := 0
  next i := i + 1
  record i := jobj[i]?
  validRewind i := spartaAssert (i < jobj.length) .rewindOutOfBounds

/-- `stf::STFInstReader`. -/
structure STFInstReader (ι ρ : Type) where
  begin_ : ι
  next : ι → ι
  isEnd : ι → Bool
  deref : ι → ρ
  valid : ι → Bool

/-- The trace of `TraceInstGenerator`. -/
def TraceInstGenerator.reader {ι ρ : Type} (r : STFInstReader ι ρ) : TraceReader ι ρ where
  start := r.begin_
  next := r.next
  record it := if r.isEnd it then none else some (r.deref it)
  validRewind it := spartaAssert (r.valid it) .rewindInvalid

/-! ## Positions in the trace -/

/-- An iterator stands for a position in the trace, `++` moves it to the next one, and one that was
saved stays valid. -/
structure TraceReader.Reads {ι ρ : Type} (r : TraceReader ι ρ) (records : List ρ) (pos : ι → ℕ) :
    Prop where
  start : pos r.start = 0
  next : ∀ it, pos it < records.length → pos (r.next it) = pos it + 1
  record : ∀ it, pos it ≤ records.length → r.record it = records[pos it]?
  validRewind : ∀ it, pos it < records.length → r.validRewind it = .ok ()

theorem JSONInstGenerator.reads {ρ : Type} (jobj : List ρ) : (reader jobj).Reads jobj id where
  start := rfl
  next _ _ := rfl
  record _ _ := rfl
  validRewind _ h := spartaAssert_eq_ok.mpr (decide_eq_true h)

/-- What a position says of the instruction returned there. -/
structure GeneratedInst.At {ι ρ : Type} (records : List ρ) (make : MakeInst ρ) (pos : ι → ℕ)
    (i : GeneratedInst ι) : Prop where
  lt : pos i.rewindIterator < records.length
  programId : i.programId = pos i.rewindIterator + 1
  made : ∃ x e, records[pos i.rewindIterator]? = some x ∧ make x = .ok e ∧
    i.entry = e.1.number i.uniqueId i.programId

theorem GeneratedInst.At.isNew {ι ρ : Type} {records : List ρ} {make : MakeInst ρ} {pos : ι → ℕ}
    {i : GeneratedInst ι} (h : i.At records make pos) : i.entry.IsNew := by
  obtain ⟨x, e, -, -, heq⟩ := h.made
  rw [heq]
  exact e.2.number _ _

/-! ## Calls -/

/-- A generator and the instructions it has returned. -/
structure GeneratorCalls (ι : Type) where
  generator : InstGenerator ι
  returned : List (GeneratedInst ι) := []

inductive GeneratorCall where
  | getNextInst
  /-- `reset` to the `n`-th instruction that was returned -/
  | reset (n : ℕ) (skip : Bool)

inductive GeneratorEvent (ι : Type) where
  | returned (i : GeneratedInst ι)
  | reset (i : GeneratedInst ι) (skip : Bool)

/-- The position of the instruction to be returned next. -/
def nextPosition {ι : Type} (pos : ι → ℕ) (hist : List (GeneratorEvent ι)) : ℕ :=
  match hist.getLast? with
  | none => 0
  | some (.returned i) => pos i.rewindIterator + 1
  | some (.reset i skip) => pos i.rewindIterator + skip.toNat

/-- The instructions that were returned. -/
def returnedOf {ι : Type} (hist : List (GeneratorEvent ι)) : List (GeneratedInst ι) :=
  hist.filterMap fun
    | .returned i => some i
    | .reset _ _ => none

/-- The first instruction returned is the first of the trace, and each other one comes after the
one returned before it, or after or at the one of a reset; its program identifier is its position
plus one, and the unique identifiers increase. -/
structure InTraceOrder {ι ρ : Type} (records : List ρ) (make : MakeInst ρ) (pos : ι → ℕ)
    (hist : List (GeneratorEvent ι)) : Prop where
  position : Run.AtEach (fun h e => ∀ i, e = .returned i →
    pos i.rewindIterator = nextPosition pos h) hist
  placed : ∀ i ∈ returnedOf hist, i.At records make pos
  uniqueIds : (returnedOf hist).Pairwise fun i j => i.uniqueId < j.uniqueId

namespace GeneratorCalls

variable {ι ρ : Type}

def init (r : TraceReader ι ρ) : GeneratorCalls ι := { generator := { nextIt := r.start } }

def step (r : TraceReader ι ρ) (make : MakeInst ρ) (s : GeneratorCalls ι) :
    GeneratorCall → Except Stop (GeneratorCalls ι)
  | .getNextInst => do
    match ← checked (s.generator.getNextInst r make) with
    | none => return s
    | some (i, g) => return ⟨g, s.returned ++ [i]⟩
  | .reset n skip =>
    match s.returned[n]? with
    | none => .error .disabled
    | some i => do
      let g ← checked (s.generator.reset r i skip)
      return { s with generator := g }

/-- What a call shows. -/
def obs (r : TraceReader ι ρ) (make : MakeInst ρ) (s : GeneratorCalls ι) :
    GeneratorCall → List (GeneratorEvent ι)
  | .getNextInst =>
    match s.generator.getNextInst r make with
    | .ok (some (i, _)) => [.returned i]
    | _ => []
  | .reset n skip => (s.returned[n]?).toList.map fun i => .reset i skip

/-- The generator is at a position of the trace, and so is every instruction it has returned. -/
structure Inv (records : List ρ) (make : MakeInst ρ) (pos : ι → ℕ) (s : GeneratorCalls ι) :
    Prop where
  position : pos s.generator.nextIt ≤ records.length
  programId : s.generator.programId = pos s.generator.nextIt + 1
  placed : ∀ i ∈ s.returned, i.At records make pos
  uniqueId : ∀ i ∈ s.returned, i.uniqueId ≤ s.generator.uniqueId
  uniqueIds : s.returned.Pairwise fun i j => i.uniqueId < j.uniqueId

variable {r : TraceReader ι ρ} {records : List ρ} {make : MakeInst ρ} {pos : ι → ℕ}
variable {s s' : GeneratorCalls ι} {i : GeneratedInst ι} {g : InstGenerator ι}

theorem inv_init (R : r.Reads records pos) : Inv records make pos (init r) where
  position := by
    show pos r.start ≤ records.length
    rw [R.start]
    exact Nat.zero_le _
  programId := by
    show 1 = pos r.start + 1
    rw [R.start]
  placed i hi := by cases hi
  uniqueId i hi := by cases hi
  uniqueIds := .nil

namespace Inv

/-- What `getNextInst` returns is the record at the position of the generator. -/
theorem getNextInst (R : r.Reads records pos) (H : Inv records make pos s)
    (h : s.generator.getNextInst r make = .ok (some (i, g))) :
    Inv records make pos ⟨g, s.returned ++ [i]⟩ ∧ i.rewindIterator = s.generator.nextIt ∧
      i.programId = s.generator.programId ∧ i.uniqueId = s.generator.uniqueId + 1 ∧
      g.programId = i.programId + 1 ∧ g.uniqueId = i.uniqueId := by
  unfold InstGenerator.getNextInst at h
  split at h
  · cases h
  · rename_i x hx
    obtain ⟨e, he, h⟩ := Run.bind_eq_ok.mp h
    obtain ⟨rfl, rfl⟩ := Prod.mk.inj (Option.some.inj (Except.ok.inj h))
    rw [R.record _ H.position] at hx
    have hlt : pos s.generator.nextIt < records.length := (List.getElem?_eq_some_iff.mp hx).1
    refine ⟨⟨?_, ?_, fun i hi => ?_, fun i hi => ?_, ?_⟩, rfl, rfl, rfl, rfl, rfl⟩
    · show pos (r.next s.generator.nextIt) ≤ records.length
      rw [R.next _ hlt]
      exact hlt
    · show s.generator.programId + 1 = pos (r.next s.generator.nextIt) + 1
      rw [R.next _ hlt, H.programId]
    · rcases List.mem_append.mp hi with hi | hi
      · exact H.placed i hi
      · obtain rfl := List.mem_singleton.mp hi
        exact ⟨hlt, H.programId, x, e, hx, he, rfl⟩
    · show i.uniqueId ≤ s.generator.uniqueId + 1
      rcases List.mem_append.mp hi with hi | hi
      · exact (H.uniqueId i hi).trans (Nat.le_succ _)
      · obtain rfl := List.mem_singleton.mp hi
        exact le_rfl
    · rw [List.pairwise_append]
      refine ⟨H.uniqueIds, List.pairwise_singleton _ _, fun i hi j hj => ?_⟩
      obtain rfl := List.mem_singleton.mp hj
      exact Nat.lt_succ_of_le (H.uniqueId i hi)

/-- A reset to an instruction that was returned goes to it, or to the next one. -/
theorem reset (R : r.Reads records pos) (H : Inv records make pos s) (hi : i ∈ s.returned)
    (skip : Bool) :
    ∃ g, s.generator.reset r i skip = .ok g ∧ Inv records make pos { s with generator := g } ∧
      pos g.nextIt = pos i.rewindIterator + skip.toNat ∧ g.uniqueId = s.generator.uniqueId ∧
      g.programId = i.programId + skip.toNat := by
  have P := H.placed i hi
  have hnext : pos (if skip then r.next i.rewindIterator else i.rewindIterator) =
      pos i.rewindIterator + skip.toNat := by
    cases skip with
    | false => rfl
    | true => exact R.next _ P.lt
  have hid : (if skip then i.programId + 1 else i.programId) = i.programId + skip.toNat := by
    cases skip with
    | false => rfl
    | true => rfl
  refine ⟨_, Run.bind_eq_ok.mpr ⟨(), R.validRewind _ P.lt, rfl⟩,
    ⟨?_, ?_, H.placed, H.uniqueId, H.uniqueIds⟩, hnext, rfl, hid⟩
  · show pos (if skip then r.next i.rewindIterator else i.rewindIterator) ≤ records.length
    have hlt := P.lt
    have hle := Bool.toNat_le skip
    rw [hnext]
    omega
  · show (if skip then i.programId + 1 else i.programId) =
      pos (if skip then r.next i.rewindIterator else i.rewindIterator) + 1
    rw [hnext, hid, P.programId]
    omega

theorem step {call : GeneratorCall} (R : r.Reads records pos) (H : Inv records make pos s)
    (hstep : s.step r make call = .ok s') : Inv records make pos s' := by
  cases call with
  | getNextInst =>
    obtain ⟨res, hres, hstep⟩ := Run.bind_eq_ok.mp hstep
    cases res with
    | none =>
      obtain rfl := Except.ok.inj hstep
      exact H
    | some ig =>
      obtain rfl := Except.ok.inj hstep
      exact (H.getNextInst R (checked_eq_ok.mp hres)).1
  | reset n skip =>
    simp only [GeneratorCalls.step] at hstep
    split at hstep
    · cases hstep
    · rename_i i hi
      obtain ⟨g, hg, hstep⟩ := Run.bind_eq_ok.mp hstep
      obtain rfl := Except.ok.inj hstep
      obtain ⟨g', hg', H', -⟩ := H.reset R (List.mem_of_getElem? hi) skip
      rw [hg'] at hg
      obtain rfl := Except.ok.inj (checked_eq_ok.mp hg)
      exact H'

end Inv

/-- What the history says of the generator. -/
structure Follows (records : List ρ) (make : MakeInst ρ) (pos : ι → ℕ)
    (hist : List (GeneratorEvent ι)) (s : GeneratorCalls ι) : Prop where
  inv : Inv records make pos s
  next : pos s.generator.nextIt = nextPosition pos hist
  returned : s.returned = returnedOf hist
  position : Run.AtEach (fun h e => ∀ i, e = .returned i →
    pos i.rewindIterator = nextPosition pos h) hist

theorem Follows.step {hist : List (GeneratorEvent ι)} {call : GeneratorCall}
    (R : r.Reads records pos) (H : Follows records make pos hist s)
    (hstep : s.step r make call = .ok s') :
    Follows records make pos (hist ++ s.obs r make call) s' := by
  have H' := H.inv.step R hstep
  cases call with
  | getNextInst =>
    obtain ⟨res, hres, hstep⟩ := Run.bind_eq_ok.mp hstep
    have hres := checked_eq_ok.mp hres
    cases res with
    | none =>
      obtain rfl := Except.ok.inj hstep
      have hobs : s.obs r make .getNextInst = [] := by simp only [obs, hres]
      rw [hobs, List.append_nil]
      exact H
    | some ig =>
      obtain ⟨i, g⟩ := ig
      obtain rfl := Except.ok.inj hstep
      have hobs : s.obs r make .getNextInst = [.returned i] := by simp only [obs, hres]
      obtain ⟨-, hit, hpid, -, hg, -⟩ := H.inv.getNextInst R hres
      rw [hobs]
      refine ⟨H', ?_, ?_, H.position.concat fun j hj => ?_⟩
      · have hprog := H'.programId
        have hold := H.inv.programId
        have hnext : pos g.nextIt = pos i.rewindIterator + 1 := by
          dsimp only at hprog
          rw [hit]
          omega
        simpa [nextPosition] using hnext
      · show s.returned ++ [i] = returnedOf (hist ++ [.returned i])
        rw [H.returned]
        simp [returnedOf]
      · obtain rfl := GeneratorEvent.returned.inj hj
        rw [hit]
        exact H.next
  | reset n skip =>
    simp only [GeneratorCalls.step] at hstep
    split at hstep
    · cases hstep
    · rename_i i hi
      obtain ⟨g, hg, hstep⟩ := Run.bind_eq_ok.mp hstep
      obtain rfl := Except.ok.inj hstep
      obtain ⟨g', hg', -, hpos, -⟩ := H.inv.reset R (List.mem_of_getElem? hi) skip
      rw [hg'] at hg
      obtain rfl := Except.ok.inj (checked_eq_ok.mp hg)
      have hobs : s.obs r make (.reset n skip) = [.reset i skip] := by simp [obs, hi]
      rw [hobs]
      refine ⟨H', ?_, ?_, H.position.concat fun j hj => by cases hj⟩
      · simpa [nextPosition] using hpos
      · show s.returned = returnedOf (hist ++ [.reset i skip])
        rw [H.returned]
        simp [returnedOf]

theorem follows_of_run (R : r.Reads records pos) (make : MakeInst ρ) {calls : List GeneratorCall}
    {hist : List (GeneratorEvent ι)}
    (hrun : calls.foldlM (Run.traced (step r make) (obs r make)) ([], init r) = .ok (hist, s)) :
    Follows records make pos hist s := by
  have hinit : Follows records make pos [] (init r) := ⟨inv_init R, R.start, rfl, .nil⟩
  refine Run.foldlM_ok_preserves (f := Run.traced (step r make) (obs r make))
    (I := fun hs => Follows records make pos hs.1 hs.2) ?_ hinit hrun
  rintro call ⟨hist, s⟩ ⟨hist', s'⟩ H hone
  obtain ⟨hstep, rfl⟩ := Run.traced_eq_ok.mp hone
  exact H.step R hstep

/-- Whatever the calls are, the instructions come in the order of the trace. -/
theorem Follows.inTraceOrder {hist : List (GeneratorEvent ι)}
    (H : Follows records make pos hist s) :
    InTraceOrder records make pos hist := by
  refine ⟨H.position, ?_, ?_⟩
  · rw [← H.returned]
    exact H.inv.placed
  · rw [← H.returned]
    exact H.inv.uniqueIds

/-- The generator returns nothing only at the end of the trace. -/
theorem Follows.done_iff {hist : List (GeneratorEvent ι)} (R : r.Reads records pos)
    (H : Follows records make pos hist s) :
    s.generator.getNextInst r make = .ok none ↔ nextPosition pos hist = records.length := by
  have hle := H.inv.position
  rw [← H.next]
  unfold InstGenerator.getNextInst
  rw [R.record _ hle]
  constructor
  · intro h
    split at h
    · rename_i hnone
      exact le_antisymm hle (List.getElem?_eq_none_iff.mp hnone)
    · obtain ⟨e, -, h⟩ := Run.bind_eq_ok.mp h
      cases h
  · intro h
    rw [h, List.getElem?_eq_none le_rfl]

/-- A reset to an instruction that was returned does not fail. -/
theorem Follows.reset_ok {hist : List (GeneratorEvent ι)} (R : r.Reads records pos)
    (H : Follows records make pos hist s) (hi : i ∈ s.returned) (skip : Bool) :
    ∃ g, s.generator.reset r i skip = .ok g := by
  obtain ⟨g, hg, -⟩ := H.inv.reset R hi skip
  exact ⟨g, hg⟩

end GeneratorCalls

end Olympia
