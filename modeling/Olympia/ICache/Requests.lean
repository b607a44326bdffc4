import Olympia.ICache.Progress
import Olympia.Mss.L2Answers

/-!
# What the instruction cache sends to the L2 cache

`ICacheSystem.requests` is what a step sends.  Each request takes a credit, and is then at the L2
cache until its answer arrives (`ICacheSystem.inner_step`).  Two requests that are there together
are of different blocks, so an answer is told by its address: taking it is a step of `ICacheSystem`
(`ICacheSystem.receive_step`).
-/

namespace Olympia

open ICache

namespace ICache

variable {p : ICacheParams} {addr : ℕ → ℕ} {ic : ICacheState p} {out : ICacheOut p} {now : ℕ}

/-- A handler takes a credit for what it sends to the L2 cache. -/
def Pays (ic : ICacheState p) (out : ICacheOut p) : Prop :=
  out.st.l2cacheCredits + out.l2Req.toList.length = ic.l2cacheCredits

theorem makeL2CacheRequest_pays (hlt : ic.l2cacheCredits < 2 ^ 32) :
    Pays ic (makeL2CacheRequest addr ic) := by
  unfold makeL2CacheRequest
  rcases ic.missQueue with _ | ⟨r, rest⟩
  · rfl
  · dsimp only
    split
    · rfl
    · rename_i hne
      have hsub := u32Sub_of_le (Nat.pos_of_ne_zero hne) hlt
      split
      · simp only [Pays, Option.toList_some, List.length_singleton, hsub]
        omega
      · simp only [Pays, Option.toList_some, List.length_singleton, hsub]
        omega

theorem readAccess_pays (hlt : ic.l2cacheCredits < 2 ^ 32) {r : ℕ} {rest : List ℕ}
    (h : readAccess addr now ic r rest = .ok out) : Pays ic out := by
  unfold readAccess at h
  rcases hlook : p.cacheModel.lookup p.l1AlwaysHit ic.l1Cache (addr r) with ⟨hit, cache⟩
  rw [hlook] at h
  cases hit with
  | true =>
    obtain rfl := Except.ok.inj h
    rfl
  | false =>
    obtain ⟨out', hadd, h⟩ := Run.bind_eq_ok.mp h
    obtain rfl := Except.ok.inj h
    unfold addToMissQueue at hadd
    split at hadd
    · obtain ⟨-, rfl⟩ := ICacheSystem.pushPending_eq_ok.mp hadd
      rfl
    · obtain ⟨-, rfl⟩ := ICacheSystem.pushPending_eq_ok.mp hadd
      have hpays := @makeL2CacheRequest_pays p addr
        { setCacheState { ic with l1Cache := cache } r .miss with missQueue := ic.missQueue ++ [r] }
      exact hpays hlt

theorem linefill_credits (addr : ℕ → ℕ) (ic : ICacheState p) :
    (linefill addr ic).l2cacheCredits = ic.l2cacheCredits := by
  unfold linefill
  split <;> rfl

theorem doArbitration_pays (hlt : ic.l2cacheCredits < 2 ^ 32)
    (h : doArbitration addr now ic = .ok out) : Pays ic out := by
  obtain ⟨acc, hacc, h⟩ := Run.bind_eq_ok.mp h
  obtain rfl := Except.ok.inj h
  have hfill := linefill_credits addr { ic with evArbitrate := ic.evArbitrate.fire }
  have hpays : Pays ic acc := by
    unfold access at hacc
    split at hacc
    · obtain rfl := Except.ok.inj hacc
      exact hfill
    · have hread := readAccess_pays (by rw [hfill]; exact hlt) hacc
      exact hread.trans hfill
    · obtain rfl := Except.ok.inj hacc
      exact hfill
  unfold rearbitrate
  split
  · exact hpays
  · exact hpays

end ICache

/-- The steps of the cache and of Fetch, which leave the L2 cache and the clock alone. -/
def ICacheOp.inner : ICacheOp → Bool
  | .l2Resp _ _ | .l2Credits _ | .tick | .nextCycle => false
  | _ => true

namespace ICacheSystem

variable {p : ICacheParams} {addr : ℕ → ℕ} {s s' : ICacheSystem p} {op : ICacheOp}

/-- What a step sends to the L2 cache. -/
def requests (addr : ℕ → ℕ) (s : ICacheSystem p) : ICacheOp → List L2Access
  | .arbitrate => ((doArbitration addr s.now s.ic).toOption.bind ICacheOut.l2Req).toList
  | .l2Request =>
    (makeL2CacheRequest addr
      { s.ic with evL2cacheRequest := s.ic.evL2cacheRequest.fire }).l2Req.toList
  | _ => []

/-- What a step of the cache does at the ports to the L2 cache. -/
theorem inner_step (hop : op.inner = true) (hlt : s.ic.l2cacheCredits < 2 ^ 32)
    (h : s.step addr op = .ok s') :
    s'.now = s.now ∧ s'.phase = s.phase ∧
      s'.atL2 = s.atL2 ++ (s.requests addr op).map (Arrival.mk (s.now + 2)) ∧
      s'.ic.l2cacheCredits + (s.requests addr op).length = s.ic.l2cacheCredits := by
  obtain ⟨-, hdue, h⟩ := step_eq_ok.mp h
  cases op with
  | l2Resp i c => cases hop
  | l2Credits ack => cases hop
  | tick => cases hop
  | nextCycle => cases hop
  | arbitrate =>
    obtain ⟨out, hout, h⟩ := Run.bind_eq_ok.mp h
    obtain rfl := Except.ok.inj h
    have hsent : s.requests addr .arbitrate = out.l2Req.toList := by
      simp [requests, hout, Except.toOption]
    rw [hsent]
    refine ⟨rfl, rfl, ?_, doArbitration_pays hlt hout⟩
    cases hreq : out.l2Req <;> simp [emit, hreq]
  | l2Request =>
    obtain rfl := Except.ok.inj h
    refine ⟨rfl, rfl, ?_, makeL2CacheRequest_pays hlt⟩
    simp only [requests, emit]
    cases (makeL2CacheRequest addr
      { s.ic with evL2cacheRequest := s.ic.evL2cacheRequest.fire }).l2Req <;> simp
  | reqArrives =>
    obtain ⟨⟨r, rest⟩, hfront⟩ := Option.isSome_iff_exists.mp hdue
    simp only [handle, hfront] at h
    obtain rfl := Except.ok.inj h
    exact ⟨rfl, rfl, (List.append_nil _).symm, rfl⟩
  | respond =>
    obtain ⟨⟨r, rest⟩, hfront⟩ := Option.isSome_iff_exists.mp hdue
    simp only [handle, hfront] at h
    obtain rfl := Except.ok.inj h
    exact ⟨rfl, rfl, rfl, rfl⟩
  | replayReady =>
    obtain ⟨⟨r, rest⟩, hfront⟩ := Option.isSome_iff_exists.mp hdue
    simp only [handle, hfront] at h
    obtain rfl := Except.ok.inj h
    exact ⟨rfl, rfl, rfl, rfl⟩
  | respArrives =>
    obtain ⟨⟨r, rest⟩, hfront⟩ := Option.isSome_iff_exists.mp hdue
    simp only [handle, hfront] at h
    obtain rfl := Except.ok.inj h
    exact ⟨rfl, rfl, (List.append_nil _).symm, rfl⟩
  | creditArrives =>
    have hdue : s.credits ≠ [] := of_decide_eq_true hdue
    obtain ⟨n, rest, hq⟩ := List.exists_cons_of_ne_nil hdue
    simp only [handle, hq] at h
    obtain rfl := Except.ok.inj h
    exact ⟨rfl, rfl, (List.append_nil _).symm, rfl⟩
  | fetchReq =>
    obtain rfl := Except.ok.inj h
    exact ⟨rfl, rfl, (List.append_nil _).symm, rfl⟩

/-! ## Answers -/

/-- The addresses at the L2 cache. -/
def asked (s : ICacheSystem p) : List ℕ := (Port.vals s.atL2).map L2Access.phyAddr

/-- Two requests at the L2 cache have different addresses. -/
theorem asked_nodup (F : Filled addr s) : s.asked.Nodup := by
  refine List.nodup_iff_count_le_one.mpr fun a => ?_
  have hle := F.fills_le (p.blockAddr a)
  have hcount : s.asked.count a ≤ (Port.vals s.atL2).countP
      (fun fill => p.blockAddr fill.phyAddr = p.blockAddr a) := by
    rw [asked, List.count, List.countP_map]
    refine List.countP_mono_left fun fill _ hfill => ?_
    simp only [Function.comp_apply, beq_iff_eq] at hfill
    simp [hfill]
  simp only [fills] at hle
  omega

/-- An answer arrives: the request with its address is no longer at the L2 cache. -/
def receive (s : ICacheSystem p) (fill : L2Access) : ICacheSystem p :=
  { s with
    ic := getRespFromL2Cache s.ic fill
    atL2 := if fill.cacheState = .hit then s.atL2.eraseP fun m => m.val.phyAddr = fill.phyAddr
      else s.atL2 }

/-- The answer to a request that can be answered is an answer of the L2 cache. -/
theorem receive_step {fill : L2Access} (hphase : s.phase = .portUpdate)
    (hhit : fill.cacheState = .hit) (hmem : fill.phyAddr ∈ s.asked)
    (hdue : ∀ m ∈ s.atL2, m.val.phyAddr = fill.phyAddr → m.due ≤ s.now) :
    ∃ i, s.step addr (.l2Resp i .hit) = .ok (s.receive fill) := by
  obtain ⟨x, hx, hxfill⟩ := List.mem_map.mp hmem
  obtain ⟨m₀, hm₀, rfl⟩ := List.mem_map.mp hx
  have hany : s.atL2.any (fun m => decide (m.val.phyAddr = fill.phyAddr)) :=
    List.any_eq_true.mpr ⟨m₀, hm₀, decide_eq_true hxfill⟩
  rw [← List.findIdx?_isSome] at hany
  obtain ⟨i, hi⟩ := Option.isSome_iff_exists.mp hany
  obtain ⟨hlt, hp, -⟩ := List.findIdx?_eq_some_iff_getElem.mp hi
  have hget : s.atL2[i]? = some s.atL2[i] := List.getElem?_eq_getElem hlt
  have haddr : s.atL2[i].val.phyAddr = fill.phyAddr := of_decide_eq_true hp
  have hle := hdue _ (List.getElem_mem hlt) haddr
  refine ⟨i, step_eq_ok.mpr ⟨hphase, ?_, ?_⟩⟩
  · simp only [due, canAnswer, hget, Option.any_some, hle, decide_true]
  · have hfill : ({ s.atL2[i].val with cacheState := .hit } : L2Access) = fill := by
      rcases fill with ⟨a, c⟩
      exact congrArg₂ L2Access.mk haddr hhit.symm
    have herase : s.atL2.eraseP (fun m => decide (m.val.phyAddr = fill.phyAddr)) =
        s.atL2.eraseIdx i := by
      rw [List.eraseP_eq_eraseIdx, hi]
    simp only [handle, hget, hfill, receive, hhit, if_true, herase]

theorem receive_asked {fill : L2Access} (hhit : fill.cacheState = .hit)
    (hmem : fill.phyAddr ∈ s.asked) : s.asked.Perm (fill.phyAddr :: (s.receive fill).asked) := by
  obtain ⟨x, hx, hxfill⟩ := List.mem_map.mp hmem
  obtain ⟨m₀, hm₀, rfl⟩ := List.mem_map.mp hx
  obtain ⟨m, hm⟩ := Option.isSome_iff_exists.mp (List.find?_isSome
    (p := fun m : Arrival L2Access => decide (m.val.phyAddr = fill.phyAddr)) |>.mpr
      ⟨m₀, hm₀, decide_eq_true hxfill⟩)
  have haddr : m.val.phyAddr = fill.phyAddr := by simpa using List.find?_some hm
  have hperm := ((perm_cons_eraseP hm).map Arrival.val).map L2Access.phyAddr
  simp only [List.map_cons, haddr] at hperm
  simpa only [asked, Port.vals, receive, hhit, if_true] using hperm

/-- A cache at rest that has a credit of the L2 cache has answered every request. -/
theorem AtRest.answered (R : AtRest s) (h : Run.Reachable (step addr) ({} : ICacheSystem p) s)
    (hcredit : s.ic.l2cacheCredits ≠ 0) {r : ℕ} (hr : r < s.requested) :
    s.returned.count r = 1 ∧ (s.seen r = [.hit] ∨ s.seen r = [.miss, .hit]) := by
  have H := Sound.of_reachable h
  have P : s.Placed := H.placed
  have hplaces := P.places
  rw [R.held_eq_nil H (Awake.of_reachable h) hcredit, List.append_nil] at hplaces
  have hmem : r ∈ s.returned := hplaces.mem_iff.mpr (List.mem_range.mpr hr)
  have hseen : s.voice r = s.seen r := by simp [voice, seen, R.resps, R.respond]
  refine ⟨List.count_eq_one_of_mem (List.nodup_append.mp P.nodup).1 hmem, ?_⟩
  rw [← hseen]
  exact (H.voiced.answered r hmem).2

end ICacheSystem

end Olympia
