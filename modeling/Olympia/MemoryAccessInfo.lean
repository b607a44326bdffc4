import Mathlib.Data.Nat.Log

/-!
# Memory accesses

`core/MemoryAccessInfo.hpp` and `core/CacheFuncModel.hpp`: the object that travels between the
LSU, the caches and the bus, and the tag array of a cache.

Each unit reads its own part of a `MemoryAccessInfo`: the LSU the state of the translation and of
the lookup, the caches behind it the address, the state of the lookup and the unit the access came
from and goes to.  The tag array is a parameter.  The units ask it only whether an address hits,
and tell it which lines were used and which were filled.
-/

namespace Olympia

/-- `MemoryAccessInfo::MMUState`. -/
inductive MmuState where
  | noAccess
  | miss
  | hit
  deriving DecidableEq, Repr

/-- `MemoryAccessInfo::CacheState`. -/
inductive CacheState where
  | noAccess
  | reload
  | miss
  | hit
  deriving DecidableEq, Repr

/-- `MemoryAccessInfo`, as far as the LSU reads it. -/
structure MemoryAccessInfo where
  phyAddrReady : Bool := false
  mmuState : MmuState := .noAccess
  cacheState : CacheState := .noAccess
  dataReady : Bool := false
  deriving DecidableEq, Repr

/-- `MemoryAccessInfo::ArchUnit`. -/
inductive ArchUnit where
  | noAccess
  | icache
  | lsu
  | dcache
  | l2cache
  | biu
  deriving DecidableEq, Repr

/-- `MemoryAccessInfo`, as far as the caches read it.  The identifier stands for the object. -/
structure MemoryRequest where
  id : ℕ
  phyAddr : ℕ
  cacheState : CacheState := .noAccess
  src : ArchUnit := .noAccess
  dest : ArchUnit := .noAccess
  deriving DecidableEq, Repr

/-- `CacheFuncModel`: tags with a replacement policy. -/
structure CacheFuncModel where
  State : Type
  init : State
  /-- `peekLine` finds a line, and it is valid -/
  peekLine : State → ℕ → Bool
  touchMRU : State → ℕ → State
  /-- `getLineForReplacementWithInvalidCheck` and `allocateWithMRUUpdate` -/
  allocate : State → ℕ → State

namespace CacheFuncModel

/-- The lookup of the three caches: `lookupCache_`, `dataLookup_` and `cacheLookup_`. -/
def lookup (C : CacheFuncModel) (alwaysHit : Bool) (st : C.State) (phyAddr : ℕ) :
    Bool × C.State :=
  if alwaysHit then (true, st)
  else if C.peekLine st phyAddr then (true, C.touchMRU st phyAddr)
  else (false, st)

/-- A cache that is large enough never to replace a line. -/
def unbounded (lineSize : ℕ) : CacheFuncModel where
  State := List ℕ
  init := []
  peekLine st phyAddr := st.contains (phyAddr / lineSize)
  touchMRU st _ := st
  allocate st phyAddr := phyAddr / lineSize :: st

end CacheFuncModel

end Olympia
