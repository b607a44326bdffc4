import Mathlib.Logic.Function.Basic
import Olympia.FlushManager
import Olympia.Lib.Event
import Olympia.Lib.Pipeline
import Olympia.MemoryAccessInfo

/-!
# The data cache

`core/lsu/DCache.cpp` and `core/lsu/DCache.hpp`.  Accesses of the LSU and refills of the L2 cache
go through a pipeline of three stages.  The first one looks the address up; a miss gets an entry of
`mshr_file_`.  The second one reads the data of a hit, sends a miss to the L2 cache if no other
request is there, and fills the line of a refill.  The third one is for the access that waits for a
refill.  `mshrRequest_` sends a request for an entry when the L2 cache has nothing to do.

An access of the LSU is an object that the LSU keeps and may send again.  What never changes of it
is given by a function `acc` from its identity; what the units write to it is in `objs`.  An
iterator into `mshr_file_` is the identity of the entry, and valid while the entry is in the file.
The L2 cache answers a request with a copy of its object, so a refill has its own iterator; it is
stored by value.

Not modelled: statistics, the credits of the L2 cache, which nothing reads, and the ports and the
iterator that nothing uses.  `setDataArrived` is never called.
-/

namespace Olympia

/-- `CacheParameterSet`. -/
structure DCacheParams where
  l1LineSize : ℕ := 64
  l1AlwaysHit : Bool := false
  mshrEntries : ℕ := 8
  cacheModel : CacheFuncModel
  mshrEntries_pos : 0 < mshrEntries := by decide

/-- `calcBlockAddr`. -/
def DCacheParams.blockAddr (p : DCacheParams) (phyAddr : ℕ) : ℕ := phyAddr - phyAddr % p.l1LineSize

/-- What does not change of a `MemoryAccessInfo` of the LSU. -/
structure DAccess where
  phyAddr : ℕ
  isStore : Bool
  deriving DecidableEq, Repr

/-- What the units write to a `MemoryAccessInfo` of the LSU. -/
structure DAccessState where
  cacheState : CacheState := .noAccess
  dataReady : Bool := false
  mshr : Option ℕ := none
  deriving DecidableEq, Repr

/-- `MSHREntryInfo`. -/
structure MSHREntryInfo where
  id : ℕ
  valid : Bool := true
  modified : Bool := false
  dataArrived : Bool := false
  memRequest : Option ℕ := none
  deriving DecidableEq, Repr

/-- The copy of an access with which the L2 cache answers. -/
structure Refill where
  phyAddr : ℕ
  mshr : Option ℕ
  deriving DecidableEq, Repr

/-- What goes through the pipeline. -/
inductive DRequest where
  | lsu (a : ℕ)
  | refill (r : Refill)
  deriving DecidableEq, Repr

structure DCacheState (p : DCacheParams) where
  objs : ℕ → DAccessState := fun _ => {}
  l1Cache : p.cacheModel.State := p.cacheModel.init
  mshrFile : List MSHREntryInfo := []
  /-- the identity of the next entry -/
  nextEntry : ℕ := 0
  pipeline : List (Staged DRequest) := []
  l2MemAccess : Option Refill := none
  lsuMemAccess : Option ℕ := none
  l2Busy : Bool := false
  /-- `in_l2_cache_resp_receive_event_` -/
  evArbitrate : UniqueEvent := {}
  evMshrRequest : UniqueEvent := {}
  lookupDue : Bool := false
  readDue : Bool := false
  deallocateDue : Bool := false

/-- A state, the access sent to the L2 cache and those acknowledged to the LSU. -/
structure DCacheOut (p : DCacheParams) where
  st : DCacheState p
  l2Req : Option ℕ := none
  acks : List ℕ := []

namespace DCache

variable {p : DCacheParams}

/-- The age at which an entry of the pipeline is in the stage LOOKUP. -/
def lookupStage : ℕ := 1

def dataReadStage : ℕ := 2

def deallocateStage : ℕ := 3

/-! ## Entries and objects -/

/-- The iterator is valid. -/
def iterValid (s : DCacheState p) (it : Option ℕ) : Bool :=
  s.mshrFile.any fun e => it = some e.id

/-- The entry that an iterator points to. -/
def entryAt (s : DCacheState p) (it : Option ℕ) : Option MSHREntryInfo :=
  s.mshrFile.find? fun e => it = some e.id

def setEntry (s : DCacheState p) (id : ℕ) (f : MSHREntryInfo → MSHREntryInfo) : DCacheState p :=
  { s with mshrFile := s.mshrFile.map fun e => if e.id = id then f e else e }

def eraseEntry (s : DCacheState p) (it : Option ℕ) : DCacheState p :=
  { s with mshrFile := s.mshrFile.filter fun e => it ≠ some e.id }

def setObj (s : DCacheState p) (a : ℕ) (f : DAccessState → DAccessState) : DCacheState p :=
  { s with objs := Function.update s.objs a (f (s.objs a)) }

def setCacheState (s : DCacheState p) (a : ℕ) (c : CacheState) : DCacheState p :=
  setObj s a fun o => { o with cacheState := c }

/-- `allocateMSHREntry_`. -/
def allocateMSHREntry (p : DCacheParams) (s : DCacheState p) (a : ℕ) :
    Except Assertion (DCacheState p) := do
  spartaAssert (s.mshrFile.length ≤ p.mshrEntries) .mshrOverflow
  spartaAssert (s.mshrFile.length < p.mshrEntries) .bufferFull
  let s := setObj s a fun o => { o with mshr := some s.nextEntry }
  return { s with
    mshrFile := s.mshrFile ++ [{ id := s.nextEntry }]
    nextEntry := s.nextEntry + 1 }

/-! ## The stages -/

/-- The end of `handleLookup_`: the access has an entry. -/
def lookupEntry (acc : ℕ → DAccess) (s : DCacheState p) (a : ℕ) :
    Except Assertion (DCacheOut p) :=
  match entryAt s (s.objs a).mshr with
  | none => .error .invalidIterator
  | some e =>
    if (acc a).isStore then
      let s := setEntry s e.id fun e => { e with modified := true, memRequest := some a }
      .ok { st := setCacheState s a .hit, acks := [a] }
    else if e.dataArrived then .ok { st := setCacheState s a .hit, acks := [a] }
    else
      let s := setEntry s e.id fun e => { e with memRequest := some a }
      .ok { st := setCacheState s a .miss, acks := [a] }

/-- The part of `handleLookup_` for an access that is not in the cache. -/
def lookupMiss (p : DCacheParams) (acc : ℕ → DAccess) (s : DCacheState p) (a : ℕ) :
    Except Assertion (DCacheOut p) :=
  if iterValid s (s.objs a).mshr then lookupEntry acc s a
  else if p.mshrEntries - s.mshrFile.length = 0 then
    .ok { st := setCacheState s a .miss, acks := [a] }
  else do
    let s ← allocateMSHREntry p s a
    lookupEntry acc s a

/-- `handleLookup_`, with `dataLookup_`. -/
def handleLookup (p : DCacheParams) (acc : ℕ → DAccess) (s : DCacheState p) :
    Except Assertion (DCacheOut p) :=
  let s : DCacheState p := { s with lookupDue := false }
  match Pipeline.at? s.pipeline lookupStage with
  | none => .error .bufferEmpty
  | some (.refill _) => .ok { st := s }
  | some (.lsu a) =>
    let (hit, cache) := p.cacheModel.lookup p.l1AlwaysHit s.l1Cache (acc a).phyAddr
    let s : DCacheState p := { s with l1Cache := cache }
    if hit then .ok { st := setCacheState s a .hit, acks := [a] }
    else lookupMiss p acc s a

/-- `handleDataRead_`, with `reloadCache_`. -/
def handleDataRead (s : DCacheState p) : Except Assertion (DCacheOut p) :=
  let s : DCacheState p := { s with readDue := false }
  match Pipeline.at? s.pipeline dataReadStage with
  | none => .error .bufferEmpty
  | some (.refill r) =>
    .ok { st := { s with l1Cache := p.cacheModel.allocate s.l1Cache r.phyAddr } }
  | some (.lsu a) =>
    if (s.objs a).cacheState = .hit then
      .ok { st := setObj s a fun o => { o with dataReady := true }, acks := [a] }
    else if s.l2Busy then
      .ok { st := { s with evMshrRequest := s.evMshrRequest.scheduleNext }, acks := [a] }
    else .ok { st := { s with l2Busy := true }, l2Req := some a, acks := [a] }

/-- `handleDeallocate_`. -/
def handleDeallocate (s : DCacheState p) : Except Assertion (DCacheOut p) :=
  let s : DCacheState p := { s with deallocateDue := false }
  match Pipeline.at? s.pipeline deallocateStage with
  | none => .error .bufferEmpty
  | some (.lsu _) => .ok { st := s }
  | some (.refill r) =>
    match entryAt s r.mshr with
    | none => .ok { st := s }
    | some e => .ok { st := eraseEntry s r.mshr, acks := e.memRequest.toList }

/-- The request that `mshrRequest_` sends: that of the first entry without data. -/
def nextRequest (s : DCacheState p) : Option ℕ :=
  s.mshrFile.findSome? fun e => if e.valid && !e.dataArrived then e.memRequest else none

/-- `mshrRequest_`. -/
def mshrRequest (s : DCacheState p) : DCacheOut p :=
  let s : DCacheState p := { s with evMshrRequest := s.evMshrRequest.fire }
  if s.l2Busy then { st := s }
  else
    match nextRequest s with
    | none => { st := s }
    | some a => { st := { s with l2Busy := true }, l2Req := some a }

/-! ## Arrivals -/

/-- `receiveMemReqFromLSU_`. -/
def receiveMemReqFromLSU (s : DCacheState p) (a : ℕ) : DCacheState p :=
  { s with lsuMemAccess := some a, evArbitrate := s.evArbitrate.scheduleNow }

/-- `receiveRespFromL2Cache_`. -/
def receiveRespFromL2Cache (s : DCacheState p) (r : Refill) : DCacheState p :=
  { eraseEntry s r.mshr with
    l2MemAccess := some r
    l2Busy := false
    evArbitrate := s.evArbitrate.scheduleNow }

/-- The request that `arbitrateL2LsuReq_` lets into the pipeline. -/
def winner (s : DCacheState p) : Except Assertion DRequest :=
  match s.l2MemAccess, s.lsuMemAccess with
  | some r, _ => .ok (.refill r)
  | none, some a => .ok (.lsu a)
  | none, none => .error .invalidValue

/-- `arbitrateL2LsuReq_`. -/
def arbitrateL2LsuReq (s : DCacheState p) : Except Assertion (DCacheState p) := do
  let req ← winner s
  spartaAssert (!Pipeline.isValid s.pipeline 0) .appendedTwice
  return { s with
    evArbitrate := s.evArbitrate.fire
    pipeline := Pipeline.append s.pipeline req
    l2MemAccess := none
    lsuMemAccess := none
    evMshrRequest := s.evMshrRequest.scheduleNext }

/-! ## The end of a phase -/

/-- Nothing of the tick phase is due. -/
def tickDone (s : DCacheState p) : Bool :=
  !s.evArbitrate.now && !s.evMshrRequest.now && !s.lookupDue && !s.readDue && !s.deallocateDue

/-- The next cycle: the pipeline moves, and what is behind the last stage leaves it. -/
def nextCycle (s : DCacheState p) : DCacheState p :=
  let moved := Pipeline.remove (Pipeline.advance s.pipeline) (deallocateStage + 1)
  { s with
    pipeline := moved
    lookupDue := Pipeline.isValid moved lookupStage
    readDue := Pipeline.isValid moved dataReadStage
    deallocateDue := Pipeline.isValid moved deallocateStage
    evArbitrate := s.evArbitrate.nextCycle
    evMshrRequest := s.evMshrRequest.nextCycle }

end DCache

end Olympia
