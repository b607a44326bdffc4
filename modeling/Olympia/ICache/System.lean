import Mathlib.Data.List.Count
import Olympia.ICache.Model
import Olympia.Mss.L2System

/-!
# The instruction cache and its surroundings

The instruction cache with any Fetch that sends a request only with a credit, and any L2 cache.
Fetch may request any address; the requests are numbered in their order.  The L2 cache returns
credits at any time, and answers each request once as a hit, at any time and in any order; it may
send other answers before.  A request takes a cycle to the L2 cache, and an answer a cycle back.

An answer to Fetch is on its way for one cycle, and Fetch reads the state of the object when it
arrives, in the same phase in which the cache works: nothing orders the two within a cycle.
`flushFetch_` cancels nothing on the port to the cache: it runs before the phase in which Fetch
sends, and after what was sent in the cycle before has arrived.
-/

namespace Olympia

open ICache

structure ICacheSystem (p : ICacheParams) where
  now : ℕ := 0
  phase : MssPhase := .portUpdate
  ic : ICacheState p := {}
  /-- `credits_icache_` of Fetch -/
  creditsIcache : ℕ := 0
  /-- the number of requests that Fetch has sent -/
  requested : ℕ := 0
  /-- the requests on their way to the cache -/
  reqs : List (Arrival ℕ) := []
  /-- the answers on their way to Fetch -/
  resps : List (Arrival ℕ) := []
  /-- the credits on their way to Fetch, at first those of `sendInitialCredits_` -/
  credits : List ℕ := [ICacheParams.fetchQueueSize]
  /-- the requests that the L2 cache has not answered, with the first cycle in which the answer can
  arrive -/
  atL2 : List (Arrival L2Access) := []
  /-- what Fetch has seen of the answers -/
  received : List (ℕ × CacheState) := []
  /-- the requests for which a credit has been returned -/
  returned : List ℕ := []

inductive ICacheOp where
  | reqArrives
  /-- the L2 cache answers the request at a position of `atL2` -/
  | l2Resp (i : ℕ) (c : CacheState)
  | l2Credits (ack : ℕ)
  | arbitrate
  | l2Request
  | respond
  | replayReady
  | respArrives
  | creditArrives
  /-- Fetch sends a request -/
  | fetchReq
  | tick
  | nextCycle
  deriving DecidableEq, Repr

def ICacheOp.phase : ICacheOp → MssPhase
  | .reqArrives | .l2Resp _ _ | .l2Credits _ | .tick => .portUpdate
  | .arbitrate | .l2Request | .respond | .replayReady | .respArrives | .creditArrives | .fetchReq
  | .nextCycle => .tick

namespace ICacheSystem

variable {p : ICacheParams} {addr : ℕ → ℕ}

/-- Nothing of the tick phase is due. -/
def tickDone (s : ICacheSystem p) : Bool :=
  !s.ic.evArbitrate.now && !s.ic.evL2cacheRequest.now && Port.quiet s.ic.evRespond s.now &&
    Port.quiet s.ic.evReplayReady s.now && Port.quiet s.resps s.now && s.credits.isEmpty

/-- An answer of the L2 cache at a position can arrive. -/
def canAnswer (s : ICacheSystem p) (i : ℕ) : Bool := s.atL2[i]?.any fun m => m.due ≤ s.now

def due (s : ICacheSystem p) : ICacheOp → Bool
  | .reqArrives => (Port.front s.reqs s.now).isSome
  | .l2Resp i _ => s.canAnswer i
  | .l2Credits _ => true
  | .arbitrate => s.ic.evArbitrate.now
  | .l2Request => s.ic.evL2cacheRequest.now
  | .respond => (Port.front s.ic.evRespond s.now).isSome
  | .replayReady => (Port.front s.ic.evReplayReady s.now).isSome
  | .respArrives => (Port.front s.resps s.now).isSome
  | .creditArrives => s.credits ≠ []
  | .fetchReq => 0 < s.creditsIcache
  | .tick => Port.quiet s.reqs s.now
  | .nextCycle => s.tickDone

/-- What a handler returns goes to its ports. -/
def emit (s : ICacheSystem p) (out : ICacheOut p) : ICacheSystem p :=
  { s with
    ic := out.st
    atL2 := s.atL2 ++ (out.l2Req.map (Arrival.mk (s.now + 2))).toList
    resps := s.resps ++ (out.resp.map (Arrival.mk (s.now + 1))).toList
    credits := s.credits ++ out.credit.toList
    returned := s.returned ++ (out.credit.bind fun _ => out.resp).toList }

/-- What a step does when it runs. -/
def handle (addr : ℕ → ℕ) (s : ICacheSystem p) : ICacheOp → Except Assertion (ICacheSystem p)
  | .reqArrives =>
    match Port.front s.reqs s.now with
    | none => .ok s
    | some (r, rest) => .ok { s with ic := getRequestFromFetch s.ic r, reqs := rest }
  | .l2Resp i c =>
    match s.atL2[i]? with
    | none => .ok s
    | some m => .ok { s with
        ic := getRespFromL2Cache s.ic { m.val with cacheState := c }
        atL2 := if c = .hit then s.atL2.eraseIdx i else s.atL2 }
  | .l2Credits ack => .ok { s with ic := getCreditsFromL2Cache s.ic ack }
  | .arbitrate => do
    let out ← doArbitration addr s.now s.ic
    return s.emit out
  | .l2Request =>
    .ok (s.emit (makeL2CacheRequest addr
      { s.ic with evL2cacheRequest := s.ic.evL2cacheRequest.fire }))
  | .respond =>
    match Port.front s.ic.evRespond s.now with
    | none => .ok s
    | some (r, rest) => .ok (s.emit (sendResponse { s.ic with evRespond := rest } r))
  | .replayReady =>
    match Port.front s.ic.evReplayReady s.now with
    | none => .ok s
    | some (r, rest) => .ok (s.emit (sendReplay { s.ic with evReplayReady := rest } r))
  | .respArrives =>
    match Port.front s.resps s.now with
    | none => .ok s
    | some (r, rest) => .ok { s with
        resps := rest
        received := s.received ++ [(r, s.ic.objs r)] }
  | .creditArrives =>
    match s.credits with
    | [] => .ok s
    | n :: rest => .ok { s with credits := rest, creditsIcache := u32Add s.creditsIcache n }
  | .fetchReq => .ok { s with
      reqs := Port.send s.reqs (s.now + 1) s.requested
      creditsIcache := u32Sub s.creditsIcache 1
      requested := s.requested + 1 }
  | .tick => .ok { s with phase := .tick }
  | .nextCycle => .ok { s with
      now := s.now + 1
      phase := .portUpdate
      ic := { s.ic with
        evArbitrate := s.ic.evArbitrate.nextCycle
        evL2cacheRequest := s.ic.evL2cacheRequest.nextCycle } }

def step (addr : ℕ → ℕ) (s : ICacheSystem p) (op : ICacheOp) : Except Stop (ICacheSystem p) := do
  enabled (s.phase = op.phase ∧ s.due op)
  checked (s.handle addr op)

theorem step_eq_ok {s s' : ICacheSystem p} {op : ICacheOp} :
    s.step addr op = .ok s' ↔
      s.phase = op.phase ∧ s.due op = true ∧ s.handle addr op = .ok s' := by
  unfold step
  rw [enabled_checked_eq_ok, decide_eq_true_iff, and_assoc]

end ICacheSystem

end Olympia
