import Olympia.Lib.Port
import Olympia.Mss.L2System

/-!
# The BIU and the MSS

`mss/BIU.cpp` and `mss/MSS.cpp`.  The BIU queues the transactions of the L2 cache and has the MSS
serve the one at the front.  It stays in the queue until the MSS acknowledges it; then the answer
and a credit go to the L2 cache.

`BusState` is the state of both units and of the ports between them and the L2 cache.  The ports
have the latencies of the source: one cycle, and `biu_latency_` more for what the BIU sends with
that delay.  `BusSystem` is the bus with any L2 cache that sends a transaction only with a credit.
It records the transactions that the L2 cache has sent, those that the BIU has sent to the MSS and
those whose answer has arrived.  In a cycle everything arrives first; then the handlers run, that
of the acknowledgement before that of the requests.
-/

namespace Olympia

/-- `BIUParameterSet` and `MSSParameterSet`. -/
structure BusParams where
  biuReqQueueSize : ℕ := 4
  biuLatency : ℕ := 1
  mssLatency : ℕ := 5
  biuReqQueueSize_lt : biuReqQueueSize < 2 ^ 32 := by decide

structure BusState where
  now : ℕ := 0
  /-- from `out_l2cache_biu_req` to `in_biu_req` -/
  reqs : List (Arrival Transaction) := []
  biuReqQueue : List Transaction := []
  biuBusy : Bool := false
  evHandleBiuReq : UniqueEvent := {}
  evHandleMssAck : UniqueEvent := {}
  /-- from `out_mss_req_sync` to `in_mss_req_sync` -/
  mssReqs : List (Arrival Transaction) := []
  mssBusy : Bool := false
  /-- the cycles for which `ev_handle_mss_req_` is scheduled -/
  evHandleMssReq : List ℕ := []
  /-- from `out_mss_ack_sync` to `in_mss_ack_sync` -/
  acks : List (Arrival Bool) := []
  /-- from `out_biu_resp` to `in_biu_l2cache_resp` -/
  resps : List (Arrival Transaction) := []
  /-- from `out_biu_credits` to `in_biu_l2cache_credits` -/
  credits : List (Arrival ℕ) := []
  deriving DecidableEq, Repr

namespace BusState

/-- `sendInitialCredits_`. -/
def init (p : BusParams) : BusState := { credits := [⟨1, p.biuReqQueueSize⟩] }

/-! ## The BIU -/

/-- `appendReqQueue_`.  It allows one entry more than the size. -/
def appendReqQueue (p : BusParams) (b : BusState) (t : Transaction) :
    Except Assertion BusState := do
  spartaAssert (b.biuReqQueue.length ≤ p.biuReqQueueSize) .biuOverflow
  return { b with biuReqQueue := b.biuReqQueue ++ [t] }

/-- `receiveReqFromL2Cache_`. -/
def receiveReqFromL2Cache (p : BusParams) (b : BusState) (t : Transaction) :
    Except Assertion BusState := do
  let b ← appendReqQueue p b t
  return { b with
    evHandleBiuReq := if b.biuBusy then b.evHandleBiuReq else b.evHandleBiuReq.scheduleNow }

/-- `handleBIUReq_`. -/
def handleBIUReq (p : BusParams) (b : BusState) : Except Assertion BusState :=
  match b.biuReqQueue with
  | [] => .error .bufferEmpty
  | t :: _ => .ok { b with
      evHandleBiuReq := b.evHandleBiuReq.fire
      biuBusy := true
      mssReqs := Port.send b.mssReqs (b.now + p.biuLatency + 1) t }

/-- `handleMSSAck_`. -/
def handleMSSAck (p : BusParams) (b : BusState) : Except Assertion BusState :=
  match b.biuReqQueue with
  | [] => .error .bufferEmpty
  | t :: rest => .ok { b with
      evHandleMssAck := b.evHandleMssAck.fire
      resps := Port.send b.resps (b.now + p.biuLatency + 1) t
      biuReqQueue := rest
      credits := Port.send b.credits (b.now + 1) 1
      biuBusy := false
      evHandleBiuReq :=
        if 0 < rest.length then b.evHandleBiuReq.scheduleNow else b.evHandleBiuReq }

/-- `getAckFromMSS_`. -/
def getAckFromMSS (b : BusState) (done : Bool) : Except Assertion BusState :=
  if done then .ok { b with evHandleMssAck := b.evHandleMssAck.scheduleNow }
  else .error .mssNotDone

/-! ## The MSS -/

/-- `getReqFromBIU_`. -/
def getReqFromBIU (p : BusParams) (b : BusState) : Except Assertion BusState :=
  if b.mssBusy then .error .mssBusy
  else .ok { b with
    mssBusy := true
    evHandleMssReq := b.evHandleMssReq.insert (b.now + p.mssLatency) }

/-- `handle_MSS_req_`. -/
def handleMSSReq (b : BusState) : BusState :=
  { b with
    evHandleMssReq := b.evHandleMssReq.erase b.now
    mssBusy := false
    acks := Port.send b.acks (b.now + 1) true }

/-! ## The end of a phase -/

/-- Nothing is left to arrive in this cycle. -/
def portsDone (b : BusState) : Bool :=
  Port.quiet b.reqs b.now && Port.quiet b.mssReqs b.now && Port.quiet b.acks b.now &&
    Port.quiet b.resps b.now && Port.quiet b.credits b.now

/-- Nothing of the tick phase is due. -/
def tickDone (b : BusState) : Bool :=
  !b.evHandleBiuReq.now && !b.evHandleMssAck.now && !b.evHandleMssReq.contains b.now

def nextCycle (b : BusState) : BusState :=
  { b with
    now := b.now + 1
    evHandleBiuReq := b.evHandleBiuReq.nextCycle
    evHandleMssAck := b.evHandleMssAck.nextCycle }

/-- The transactions of the L2 cache whose answer has not arrived, oldest first. -/
def outstanding (b : BusState) : List Transaction :=
  Port.vals b.resps ++ b.biuReqQueue ++ Port.vals b.reqs

end BusState

/-- What the units of the bus do. -/
inductive BusOp where
  | reqArrives
  | mssReqArrives
  | ackArrives
  | handleMssAck
  | handleBiuReq
  | handleMssReq
  deriving DecidableEq, Repr

namespace BusOp

def phase : BusOp → MssPhase
  | .reqArrives | .mssReqArrives | .ackArrives => .portUpdate
  | .handleMssAck | .handleBiuReq | .handleMssReq => .tick

/-- A message arrives, or a handler is due. -/
def due (b : BusState) : BusOp → Bool
  | .reqArrives => (Port.front b.reqs b.now).isSome
  | .mssReqArrives => (Port.front b.mssReqs b.now).isSome
  | .ackArrives => (Port.front b.acks b.now).isSome
  | .handleMssAck => b.evHandleMssAck.now
  -- `ev_handle_mss_ack_ >> ev_handle_biu_req_`
  | .handleBiuReq => b.evHandleBiuReq.now && !b.evHandleMssAck.now
  | .handleMssReq => b.evHandleMssReq.contains b.now

/-- What a step does when it is due. -/
def handle (p : BusParams) (b : BusState) : BusOp → Except Assertion BusState
  | .reqArrives =>
    match Port.front b.reqs b.now with
    | none => .ok b
    | some (t, rest) => b.receiveReqFromL2Cache p t >>= fun b => .ok { b with reqs := rest }
  | .mssReqArrives =>
    match Port.front b.mssReqs b.now with
    | none => .ok b
    | some (_, rest) => b.getReqFromBIU p >>= fun b => .ok { b with mssReqs := rest }
  | .ackArrives =>
    match Port.front b.acks b.now with
    | none => .ok b
    | some (done, rest) => b.getAckFromMSS done >>= fun b => .ok { b with acks := rest }
  | .handleMssAck => b.handleMSSAck p
  | .handleBiuReq => b.handleBIUReq p
  | .handleMssReq => .ok b.handleMSSReq

end BusOp

end Olympia
