import Mathlib.Logic.Function.Basic
import Olympia.FlushManager
import Olympia.Lib.Event
import Olympia.Lib.Port
import Olympia.MemoryAccessInfo

/-!
# The instruction cache

`core/fetch/ICache.cpp` and `core/fetch/ICache.hpp`.  `doArbitration_` runs at most once in a cycle:
it fills the line of an answer of the L2 cache and moves the misses of the line to the replay
buffer, and then it replays a miss, or looks the next request of Fetch up.  A lookup is answered
after the latency of the cache, as a hit or as a miss; a miss is answered once more when it has been
replayed.  `makeL2CacheRequest_` sends one request to the L2 cache, and only with a credit.

A request of Fetch is an object that the cache and Fetch share: the answers on their way are
pointers to it.  Its address is given by a function `addr` from its identity, and what the cache
writes to it, the state of the lookup, is in `objs`.  What goes to the L2 cache is a copy, so it is
a value.

Not modelled: statistics and logging.
-/

namespace Olympia

/-- `ICacheParameterSet`.  The size and the associativity belong to the tags. -/
structure ICacheParams where
  l1LineSize : ℕ := 64
  cacheLatency : ℕ := 1
  l1AlwaysHit : Bool := false
  cacheModel : CacheFuncModel

namespace ICacheParams

/-- `fetch_queue_size_`, a constant. -/
def fetchQueueSize : ℕ := 8

/-- `calcBlockAddr`. -/
def blockAddr (p : ICacheParams) (phyAddr : ℕ) : ℕ := phyAddr - phyAddr % p.l1LineSize

end ICacheParams

/-- The copy of a request that goes to the L2 cache. -/
structure L2Access where
  phyAddr : ℕ
  cacheState : CacheState
  deriving DecidableEq, Repr

structure ICacheState (p : ICacheParams) where
  /-- `getCacheState()` of the requests -/
  objs : ℕ → CacheState := fun _ => .noAccess
  l1Cache : p.cacheModel.State := p.cacheModel.init
  l2cacheRespQueue : List L2Access := []
  fetchReqQueue : List ℕ := []
  replayBuffer : List ℕ := []
  missQueue : List ℕ := []
  pendingMissBuffer : List ℕ := []
  l2cacheCredits : ℕ := 0
  evArbitrate : UniqueEvent := {}
  evL2cacheRequest : UniqueEvent := {}
  evRespond : List (Arrival ℕ) := []
  evReplayReady : List (Arrival ℕ) := []

/-- A state, and what has been sent to the L2 cache and to Fetch. -/
structure ICacheOut (p : ICacheParams) where
  st : ICacheState p
  l2Req : Option L2Access := none
  resp : Option ℕ := none
  credit : Option ℕ := none

namespace ICache

variable {p : ICacheParams}

/-- The requests of a block. -/
def sameLine (p : ICacheParams) (addr : ℕ → ℕ) (block : ℕ) (r : ℕ) : Bool :=
  p.blockAddr (addr r) = block

def setCacheState (s : ICacheState p) (r : ℕ) (c : CacheState) : ICacheState p :=
  { s with objs := Function.update s.objs r c }

/-! ## Requests to the L2 cache -/

/-- `makeL2CacheRequest_`. -/
def makeL2CacheRequest (addr : ℕ → ℕ) (s : ICacheState p) : ICacheOut p :=
  match s.missQueue with
  | [] => { st := s }
  | r :: rest =>
    if s.l2cacheCredits = 0 then { st := s }
    else
      let s' : ICacheState p := { s with
        l2cacheCredits := u32Sub s.l2cacheCredits 1
        missQueue := rest }
      { st :=
          if 0 < s'.l2cacheCredits ∧ rest ≠ [] then
            { s' with evL2cacheRequest := s'.evL2cacheRequest.scheduleNext }
          else s'
        l2Req := some ⟨addr r, s.objs r⟩ }

/-- The part of `addToMissQueue_` for a block without a pending miss. -/
def requestBlock (addr : ℕ → ℕ) (s : ICacheState p) (r : ℕ) : ICacheOut p :=
  makeL2CacheRequest addr { s with missQueue := s.missQueue ++ [r] }

/-- `pending_miss_buffer_.push_back`. -/
def pushPending (out : ICacheOut p) (r : ℕ) : Except Assertion (ICacheOut p) := do
  spartaAssert (out.st.pendingMissBuffer.length < ICacheParams.fetchQueueSize) .bufferFull
  return { out with
    st := { out.st with pendingMissBuffer := out.st.pendingMissBuffer ++ [r] } }

/-- `addToMissQueue_`. -/
def addToMissQueue (addr : ℕ → ℕ) (s : ICacheState p) (r : ℕ) : Except Assertion (ICacheOut p) :=
  if s.pendingMissBuffer.any (sameLine p addr (p.blockAddr (addr r))) then pushPending { st := s } r
  else pushPending (requestBlock addr s r) r

/-! ## Arbitration -/

/-- `reloadCache_`. -/
def reloadCache (addr : ℕ → ℕ) (s : ICacheState p) (fill : L2Access) : ICacheState p :=
  let same := sameLine p addr (p.blockAddr fill.phyAddr)
  { s with
    l1Cache := p.cacheModel.allocate s.l1Cache fill.phyAddr
    replayBuffer := s.replayBuffer ++ s.pendingMissBuffer.filter same
    pendingMissBuffer := s.pendingMissBuffer.filter fun r => !same r
    evArbitrate := s.evArbitrate.scheduleNext }

/-- The first part of `doArbitration_`: a linefill. -/
def linefill (addr : ℕ → ℕ) (s : ICacheState p) : ICacheState p :=
  match s.l2cacheRespQueue with
  | [] => s
  | fill :: rest => { reloadCache addr s fill with l2cacheRespQueue := rest }

/-- The end of a read access: `ev_respond_` is scheduled and the request leaves its queue. -/
def respondLater (now : ℕ) (s : ICacheState p) (r : ℕ) (rest : List ℕ) : ICacheState p :=
  { s with
    evRespond := Port.send s.evRespond (now + p.cacheLatency) r
    fetchReqQueue := rest }

/-- A read access of the request at the front of its queue. -/
def readAccess (addr : ℕ → ℕ) (now : ℕ) (s : ICacheState p) (r : ℕ) (rest : List ℕ) :
    Except Assertion (ICacheOut p) :=
  let (hit, cache) := p.cacheModel.lookup p.l1AlwaysHit s.l1Cache (addr r)
  let s : ICacheState p := { s with l1Cache := cache }
  if hit then .ok { st := respondLater now (setCacheState s r .hit) r rest }
  else do
    let out ← addToMissQueue addr (setCacheState s r .miss) r
    return { out with st := respondLater now out.st r rest }

/-- The second part of `doArbitration_`: a replay or a read access. -/
def access (addr : ℕ → ℕ) (now : ℕ) (s : ICacheState p) : Except Assertion (ICacheOut p) :=
  match s.replayBuffer, s.fetchReqQueue with
  | r :: rest, _ => .ok { st := { s with
      evReplayReady := Port.send s.evReplayReady (now + p.cacheLatency) r
      replayBuffer := rest } }
  | [], r :: rest => readAccess addr now s r rest
  | [], [] => .ok { st := s }

/-- The end of `doArbitration_`. -/
def rearbitrate (s : ICacheState p) : ICacheState p :=
  if s.l2cacheRespQueue ≠ [] ∨ s.replayBuffer ≠ [] ∨ s.fetchReqQueue ≠ [] then
    { s with evArbitrate := s.evArbitrate.scheduleNext }
  else s

/-- `doArbitration_`. -/
def doArbitration (addr : ℕ → ℕ) (now : ℕ) (s : ICacheState p) :
    Except Assertion (ICacheOut p) := do
  let out ← access addr now (linefill addr { s with evArbitrate := s.evArbitrate.fire })
  return { out with st := rearbitrate out.st }

/-! ## Arrivals -/

/-- `getRequestFromFetch_`. -/
def getRequestFromFetch (s : ICacheState p) (r : ℕ) : ICacheState p :=
  { s with
    fetchReqQueue := s.fetchReqQueue ++ [r]
    evArbitrate := s.evArbitrate.scheduleNow }

/-- `getRespFromL2Cache_`. -/
def getRespFromL2Cache (s : ICacheState p) (fill : L2Access) : ICacheState p :=
  if fill.cacheState = .hit then
    { s with
      l2cacheRespQueue := s.l2cacheRespQueue ++ [fill]
      evArbitrate := s.evArbitrate.scheduleNow }
  else s

/-- `getCreditsFromL2Cache_`. -/
def getCreditsFromL2Cache (s : ICacheState p) (ack : ℕ) : ICacheState p :=
  let s : ICacheState p := { s with l2cacheCredits := u32Add s.l2cacheCredits ack }
  if s.missQueue ≠ [] then { s with evL2cacheRequest := s.evL2cacheRequest.scheduleNow } else s

/-! ## Answers -/

/-- `sendReplay_`. -/
def sendReplay (s : ICacheState p) (r : ℕ) : ICacheOut p :=
  { st := setCacheState s r .hit, resp := some r, credit := some 1 }

/-- `sendResponse_`. -/
def sendResponse (s : ICacheState p) (r : ℕ) : ICacheOut p :=
  { st := s, resp := some r, credit := if s.objs r = .hit then some 1 else none }

end ICache

end Olympia
