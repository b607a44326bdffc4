import Olympia.Lsu.DCache
import Olympia.Mss.L2System

/-!
# The data cache and its surroundings

The data cache with any LSU and any L2 cache.  The LSU sends at most one access in a cycle, before
the arbitration; it may send an access again at any time, and mark one as a hit when it forwards
the data of a store.  The L2 cache copies the object of a request when it takes it, and answers
each copy once, at any later time and in any order, at most one in a cycle.
-/

namespace Olympia

open DCache

structure DCacheSystem (p : DCacheParams) where
  phase : MssPhase := .portUpdate
  dc : DCacheState p := {}
  /-- the accesses that have been sent to the L2 cache and not been copied -/
  toL2 : List ℕ := []
  /-- the copies that the L2 cache has not answered -/
  atL2 : List Refill := []
  /-- the acknowledgements to the LSU -/
  acks : List ℕ := []

inductive DCacheOp where
  /-- the L2 cache answers the copy at a position of `atL2` -/
  | refill (i : ℕ)
  | lsuReq (a : ℕ)
  /-- the LSU marks an access as a hit -/
  | forward (a : ℕ)
  | lookup
  | dataRead
  | deallocate
  | arbitrate
  | mshrRequest
  /-- the L2 cache takes the request at a position of `toL2` -/
  | copy (i : ℕ)
  | tick
  | postTick
  | nextCycle
  deriving DecidableEq, Repr

def DCacheOp.phase : DCacheOp → MssPhase
  | .refill _ | .tick => .portUpdate
  | .lsuReq _ | .forward _ | .lookup | .dataRead | .deallocate | .arbitrate | .mshrRequest
  | .postTick => .tick
  | .copy _ | .nextCycle => .postTick

namespace DCacheSystem

variable {p : DCacheParams} {acc : ℕ → DAccess}

def due (s : DCacheSystem p) : DCacheOp → Bool
  | .refill i => i < s.atL2.length && s.dc.l2MemAccess.isNone
  | .lsuReq _ => s.dc.lsuMemAccess.isNone && !Pipeline.isValid s.dc.pipeline 0
  | .forward _ => true
  | .lookup => s.dc.lookupDue
  | .dataRead => s.dc.readDue
  | .deallocate => s.dc.deallocateDue
  | .arbitrate => s.dc.evArbitrate.now
  | .mshrRequest => s.dc.evMshrRequest.now
  | .copy i => i < s.toL2.length
  | .tick => true
  | .postTick => tickDone s.dc
  | .nextCycle => true

/-- What a handler returns goes to its ports. -/
def emit (s : DCacheSystem p) (out : DCacheOut p) : DCacheSystem p :=
  { s with dc := out.st, toL2 := s.toL2 ++ out.l2Req.toList, acks := s.acks ++ out.acks }

/-- The copy that the L2 cache makes of an access. -/
def copyOf (acc : ℕ → DAccess) (s : DCacheState p) (a : ℕ) : Refill :=
  ⟨(acc a).phyAddr, (s.objs a).mshr⟩

/-- What a step does when it runs. -/
def handle (p : DCacheParams) (acc : ℕ → DAccess) (s : DCacheSystem p) :
    DCacheOp → Except Assertion (DCacheSystem p)
  | .refill i =>
    match s.atL2[i]? with
    | none => .ok s
    | some r => .ok { s with dc := receiveRespFromL2Cache s.dc r, atL2 := s.atL2.eraseIdx i }
  | .lsuReq a => .ok { s with dc := receiveMemReqFromLSU s.dc a }
  | .forward a => .ok { s with
      dc := setObj s.dc a fun o => { o with cacheState := .hit, dataReady := true } }
  | .lookup => do
    let out ← handleLookup p acc s.dc
    return s.emit out
  | .dataRead => do
    let out ← handleDataRead s.dc
    return s.emit out
  | .deallocate => do
    let out ← handleDeallocate s.dc
    return s.emit out
  | .arbitrate => do
    let dc ← arbitrateL2LsuReq s.dc
    return { s with dc := dc }
  | .mshrRequest => .ok (s.emit (mshrRequest s.dc))
  | .copy i =>
    match s.toL2[i]? with
    | none => .ok s
    | some a => .ok { s with
        toL2 := s.toL2.eraseIdx i
        atL2 := s.atL2 ++ [copyOf acc s.dc a] }
  | .tick => .ok { s with phase := .tick }
  | .postTick => .ok { s with phase := .postTick }
  | .nextCycle => .ok { s with phase := .portUpdate, dc := nextCycle s.dc }

def step (p : DCacheParams) (acc : ℕ → DAccess) (s : DCacheSystem p) (op : DCacheOp) :
    Except Stop (DCacheSystem p) := do
  enabled (s.phase = op.phase ∧ s.due op)
  checked (s.handle p acc op)

theorem step_eq_ok {s s' : DCacheSystem p} {op : DCacheOp} :
    s.step p acc op = .ok s' ↔
      s.phase = op.phase ∧ s.due op = true ∧ s.handle p acc op = .ok s' := by
  unfold step
  rw [enabled_checked_eq_ok, decide_eq_true_iff, and_assoc]

/-- The access that a step sends to the L2 cache. -/
def requests (s : DCacheSystem p) : DCacheOp → Option ℕ
  | .dataRead => (handleDataRead s.dc).toOption.bind DCacheOut.l2Req
  | .mshrRequest => (mshrRequest s.dc).l2Req
  | _ => none

end DCacheSystem

end Olympia
