import Olympia.DispatchEvent

/-!
# What a dispatch session takes

`dispatchInstructions_` looks at the front of the queue, sends it to a dispatcher that can accept
it, and stops at the first instruction for which there is none.  A dispatcher accepts one
instruction in a session, whichever pipe it is for, so whether it can accept is known from the
state before the session and the dispatchers used since (`Able`).  `Greedy` is the choice of the
loop in these terms, and `Session` all that a session has done.
-/

namespace Olympia

/-- The credits returned to Rename: one message with the size of the group, if there is one. -/
def DispatchOut.queueCredits (out : DispatchOut) : Option ℕ :=
  if out.toRob.isEmpty then none else some out.toRob.length

namespace Dispatch

variable {p : DispatchParams} {s s' : DispatchState} {T T' : InstTable} {out out' : DispatchOut}

/-! ## The dispatcher that is chosen -/

/-- The body of the search for the dispatcher with the most credits. -/
def better (s : DispatchState) (best : Option UnitId × ℕ) (d : UnitId) : Option UnitId × ℕ :=
  if (s.dispatchers d).canAccept ∧ (s.dispatchers d).unitCredits > best.2 then
    (some d, (s.dispatchers d).unitCredits)
  else best

theorem canAccept_iff {d : DispatcherState} :
    d.canAccept = true ↔ d.unitCredits ≠ 0 ∧ d.numCanDispatch ≠ 0 := by
  simp [DispatcherState.canAccept]

/-- `max_credits` goes with the best dispatcher so far, and is 0 without one. -/
def Maximum (s : DispatchState) (best : Option UnitId × ℕ) : Prop :=
  (best.1 = none → best.2 = 0) ∧ ∀ d, best.1 = some d → (s.dispatchers d).unitCredits = best.2

theorem Maximum.better {best : Option UnitId × ℕ} (H : Maximum s best) (d : UnitId) :
    Maximum s (better s best d) := by
  unfold Dispatch.better
  split
  · constructor
    · intro hnone
      cases hnone
    · intro e he
      rw [← Option.some.inj he]
  · exact H

theorem le_better (s : DispatchState) (best : Option UnitId × ℕ) (d : UnitId) :
    best.2 ≤ (better s best d).2 := by
  unfold better
  split
  · rename_i hd
    exact hd.2.le
  · exact le_rfl

theorem credits_le_better {best : Option UnitId × ℕ} {d : UnitId}
    (hd : (s.dispatchers d).canAccept = true) :
    (s.dispatchers d).unitCredits ≤ (better s best d).2 := by
  unfold better
  split
  · exact le_rfl
  · rename_i hnot
    exact not_lt.mp fun hlt => hnot ⟨hd, hlt⟩

theorem foldl_better (ds : List UnitId) {best : Option UnitId × ℕ} (H : Maximum s best) :
    Maximum s (ds.foldl (better s) best) ∧ best.2 ≤ (ds.foldl (better s) best).2 ∧
      ∀ d ∈ ds, (s.dispatchers d).canAccept = true →
        (s.dispatchers d).unitCredits ≤ (ds.foldl (better s) best).2 := by
  induction ds generalizing best with
  | nil => exact ⟨H, le_rfl, fun d hd => by cases hd⟩
  | cons d ds ih =>
    obtain ⟨hmax, hle, hall⟩ := ih (H.better d)
    rw [List.foldl_cons]
    refine ⟨hmax, (le_better s best d).trans hle, fun e he hacc => ?_⟩
    rcases List.mem_cons.mp he with rfl | he
    · exact (credits_le_better hacc).trans hle
    · exact hall e he hacc

theorem maximum_none (s : DispatchState) : Maximum s (none, 0) :=
  ⟨fun _ => rfl, fun d hd => by cases hd⟩

/-- No dispatcher is chosen only when none can accept. -/
theorem chooseDispatcher_none {pipe : TargetPipe} (h : chooseDispatcher p s pipe = none) :
    ∀ d ∈ p.dispatchers pipe, (s.dispatchers d).canAccept = false := by
  intro d hd
  unfold chooseDispatcher at h
  split at h
  · obtain ⟨hmax, -, hall⟩ := foldl_better (p.dispatchers pipe) (maximum_none s)
    have hzero := hmax.1 h
    by_contra hacc
    have hacc : (s.dispatchers d).canAccept = true := by simpa using hacc
    have hle := hall d hd hacc
    rw [hzero] at hle
    exact (canAccept_iff.mp hacc).1 (Nat.le_zero.mp hle)
  · simpa using List.find?_eq_none.mp h d hd

/-- Outside of the LSU the chosen dispatcher has the most credits of those that can accept. -/
theorem chooseDispatcher_most {pipe : TargetPipe} {d : UnitId}
    (h : chooseDispatcher p s pipe = some d) (hpipe : pipe ≠ .lsu) :
    ∀ e ∈ p.dispatchers pipe, (s.dispatchers e).canAccept = true →
      (s.dispatchers e).unitCredits ≤ (s.dispatchers d).unitCredits := by
  intro e he hacc
  unfold chooseDispatcher at h
  rw [if_pos hpipe] at h
  obtain ⟨hmax, -, hall⟩ := foldl_better (p.dispatchers pipe) (maximum_none s)
  rw [hmax.2 d h]
  exact hall e he hacc

/-! ## The choices of a session -/

/-- The dispatcher can accept, when the session has used the dispatchers `used`. -/
def Able (s : DispatchState) (used : List UnitId) (d : UnitId) : Prop :=
  (s.dispatchers d).unitCredits ≠ 0 ∧ d ∉ used

/-- A dispatcher for the pipe that can accept; outside of the LSU one with the most credits. -/
structure Chosen (p : DispatchParams) (s : DispatchState) (used : List UnitId)
    (pipe : TargetPipe) (d : UnitId) : Prop where
  serves : d ∈ p.dispatchers pipe
  able : Able s used d
  most : pipe ≠ .lsu → ∀ e ∈ p.dispatchers pipe, Able s used e →
    (s.dispatchers e).unitCredits ≤ (s.dispatchers d).unitCredits

/-- Each instruction goes to a dispatcher chosen among those not used before. -/
def Greedy (p : DispatchParams) (s : DispatchState) :
    List UnitId → List (UnitId × RenamedInst) → Prop
  | _, [] => True
  | used, (d, ri) :: rest => Chosen p s used ri.inst.pipe d ∧ Greedy p s (used ++ [d]) rest

/-- No dispatcher is used twice. -/
theorem Greedy.nodup {used : List UnitId} {sends : List (UnitId × RenamedInst)}
    (H : Greedy p s used sends) (hused : used.Nodup) :
    (used ++ sends.map Prod.fst).Nodup := by
  induction sends generalizing used with
  | nil => simpa using hused
  | cons m rest ih =>
    obtain ⟨d, ri⟩ := m
    obtain ⟨hd, hrest⟩ := H
    have hnew : (used ++ [d]).Nodup :=
      hused.append (List.nodup_singleton d) (List.disjoint_singleton.mpr hd.able.2)
    rw [List.map_cons, List.append_cons]
    exact ih hrest hnew

/-- The dispatchers used have no bandwidth left, and the others are as they were. -/
structure Used (s₀ s : DispatchState) (used : List UnitId) : Prop where
  bandwidth : ∀ d ∈ used, (s.dispatchers d).numCanDispatch = 0
  untouched : ∀ d, d ∉ used → s.dispatchers d = s₀.dispatchers d

variable {s₀ : DispatchState} {used : List UnitId}

/-- What a dispatcher can do in the session, in terms of the state before it. -/
theorem Used.canAccept_iff (U : Used s₀ s used)
    (hone : ∀ d, (s₀.dispatchers d).numCanDispatch = 1) (d : UnitId) :
    (s.dispatchers d).canAccept = true ↔ Able s₀ used d := by
  rw [Dispatch.canAccept_iff]
  by_cases hd : d ∈ used
  · simp [Able, hd, U.bandwidth d hd]
  · simp [Able, hd, U.untouched d hd, hone d]

theorem Used.chosen {pipe : TargetPipe} {d : UnitId} (U : Used s₀ s used)
    (hone : ∀ d, (s₀.dispatchers d).numCanDispatch = 1)
    (h : chooseDispatcher p s pipe = some d) : Chosen p s₀ used pipe d := by
  obtain ⟨hserves, hacc⟩ := chooseDispatcher_some h
  have hable := (U.canAccept_iff hone d).mp hacc
  refine ⟨hserves, hable, fun hpipe e he heable => ?_⟩
  have hle := chooseDispatcher_most h hpipe e he ((U.canAccept_iff hone e).mpr heable)
  rwa [U.untouched d hable.2, U.untouched e heable.2] at hle

theorem used_nil (s : DispatchState) : Used s { s with currentStall := none } [] where
  bandwidth _ hd := absurd hd List.not_mem_nil
  untouched _ _ := rfl

/-- The session uses one dispatcher more. -/
theorem Used.accept {d : UnitId} {disp : DispatcherState} (U : Used s₀ s used)
    (hdisp : disp.numCanDispatch = 0)
    (hs' : s'.dispatchers = Function.update s.dispatchers d disp) :
    Used s₀ s' (used ++ [d]) where
  bandwidth e he := by
    rw [hs']
    by_cases hed : e = d
    · rw [hed, Function.update_self, hdisp]
    · rw [Function.update_of_ne hed]
      rcases List.mem_append.mp he with he | he
      · exact U.bandwidth e he
      · exact absurd (List.mem_singleton.mp he) hed
  untouched e he := by
    obtain ⟨he, hed⟩ := not_or.mp (mt List.mem_append.mpr he)
    rw [hs', Function.update_of_ne (mt List.mem_singleton.mpr hed)]
    exact U.untouched e he

/-- The session stops at an instruction that no dispatcher for its pipe can accept. -/
def Stopped (p : DispatchParams) (s₀ s : DispatchState) (used : List UnitId) : Prop :=
  ∃ ri rest, s.dispatchQueue = ri :: rest ∧ ∀ d ∈ p.dispatchers ri.inst.pipe, ¬Able s₀ used d

/-- The loop with `n` instructions still to dispatch. -/
theorem dispatchLoop_greedy (hone : ∀ d, (s₀.dispatchers d).numCanDispatch = 1) :
    ∀ (n : ℕ) (out : DispatchOut) {s s' : DispatchState} {T T' : InstTable} {out' : DispatchOut},
      Used s₀ s (out.sends.map Prod.fst) →
      dispatchLoop p n s T out = .ok (s', T', out') →
      ∃ sends, out'.sends = out.sends ++ sends ∧ sends.length ≤ n ∧
        Greedy p s₀ (out.sends.map Prod.fst) sends ∧
        (sends.length < n → Stopped p s₀ s' (out'.sends.map Prod.fst))
  | 0, out, s, s', T, T', out', _, h => by
    cases Except.ok.inj h
    exact ⟨[], by simp, le_rfl, trivial, fun hlt => absurd hlt (Nat.lt_irrefl 0)⟩
  | n + 1, out, s, s', T, T', out', U, h => by
    obtain ⟨⟨s₁, T₁, out₁, goOn⟩, hbody, h⟩ := Run.bind_eq_ok.mp h
    unfold dispatchOne at hbody
    rcases hq : s.dispatchQueue with _ | ⟨ri, rest⟩
    · rw [hq] at hbody
      cases hbody
    · rw [hq] at hbody
      dsimp only at hbody h
      obtain ⟨-, -, hbody⟩ := Run.bind_eq_ok.mp hbody
      obtain ⟨-, -, hbody⟩ := Run.bind_eq_ok.mp hbody
      rcases hch : chooseDispatcher p s ri.inst.pipe with _ | d
      · -- the loop ends here
        simp only [hch] at hbody
        cases Except.ok.inj hbody
        cases Except.ok.inj h
        refine ⟨[], by simp, Nat.zero_le _, trivial, fun _ => ⟨ri, rest, rfl, fun d hd hable => ?_⟩⟩
        have hnot := chooseDispatcher_none hch d hd
        rw [(U.canAccept_iff hone d).mpr hable] at hnot
        cases hnot
      · simp only [hch] at hbody
        obtain ⟨disp, hacc, hbody⟩ := Run.bind_eq_ok.mp hbody
        have hchosen := U.chosen hone hch
        have hdisp : disp.numCanDispatch = 0 := by
          obtain ⟨-, -, hacc⟩ := Run.bind_eq_ok.mp hacc
          obtain ⟨-, -, hacc⟩ := Run.bind_eq_ok.mp hacc
          cases Except.ok.inj hacc
          show (s.dispatchers d).numCanDispatch - 1 = 0
          rw [U.untouched d hchosen.able.2, hone d]
        cases Except.ok.inj hbody
        have U₁ : Used s₀ { s with
            dispatchQueue := rest
            creditsRob := u32Sub s.creditsRob 1
            dispatchers := Function.update s.dispatchers d disp
            blockingDispatcher := noteBlocking p s ri.inst.pipe }
          (out.sends.map Prod.fst ++ [d]) := U.accept hdisp rfl
        obtain ⟨sends, hsends, hlen, hgreedy, hstop⟩ := dispatchLoop_greedy hone n
          ⟨out.toRob ++ [ri], out.sends ++ [(d, ri)]⟩ (by simpa using U₁) h
        refine ⟨(d, ri) :: sends, by simpa using hsends, Nat.succ_le_succ hlen,
          ⟨hchosen, by simpa using hgreedy⟩, fun hlt => hstop (Nat.lt_of_succ_lt_succ hlt)⟩

/-! ## What can stop a session -/

/-- The dispatcher that is chosen accepts. -/
theorem acceptInst_of_canAccept {d : DispatcherState} (h : d.canAccept = true) :
    d.acceptInst = .ok ⟨u32Sub d.unitCredits 1, d.numCanDispatch - 1⟩ := by
  obtain ⟨hcredits, hband⟩ := canAccept_iff.mp h
  unfold DispatcherState.acceptInst
  simp [spartaAssert, hcredits, hband]
  rfl

/-- The assertions about an instruction that has nowhere to go. -/
def NowhereToGo (a : Assertion) : Prop := a = .unknownTargetPipe ∨ a = .noDispatcher

theorem dispatchLoop_nowhere : ∀ (n : ℕ) (s : DispatchState) (T : InstTable) (out : DispatchOut),
    n ≤ s.dispatchQueue.length → Run.FailsIn NowhereToGo (dispatchLoop p n s T out)
  | 0, _, _, _, _ => .ok _
  | n + 1, s, T, out, hn => by
    rcases hq : s.dispatchQueue with _ | ⟨ri, rest⟩
    · rw [hq] at hn
      cases hn
    · rw [hq] at hn
      refine .bind_of_ok ?_ fun st hone => ?_
      · unfold dispatchOne
        rw [hq]
        refine .bind (spartaAssert_failsIn (.inl rfl)) fun _ => ?_
        refine .bind (spartaAssert_failsIn (.inr rfl)) fun _ => ?_
        dsimp only
        split
        · rename_i d hch
          rw [acceptInst_of_canAccept (chooseDispatcher_some hch).2]
          exact .ok _
        · exact .ok _
      · obtain ⟨s₁, T₁, out₁, goOn⟩ := st
        dsimp only
        split
        · rename_i hgo
          refine dispatchLoop_nowhere n s₁ T₁ out₁ ?_
          unfold dispatchOne at hone
          rw [hq] at hone
          dsimp only at hone
          obtain ⟨-, -, hone⟩ := Run.bind_eq_ok.mp hone
          obtain ⟨-, -, hone⟩ := Run.bind_eq_ok.mp hone
          split at hone
          · obtain ⟨disp, -, hone⟩ := Run.bind_eq_ok.mp hone
            cases Except.ok.inj hone
            exact Nat.le_of_succ_le_succ hn
          · cases Except.ok.inj hone
            cases hgo
        · exact .ok _

/-- No session runs out of credits or of instructions. -/
theorem dispatchInstructions_nowhere (s : DispatchState) (T : InstTable) :
    Run.FailsIn NowhereToGo (dispatchInstructions p s T) := by
  unfold dispatchInstructions
  dsimp only
  split
  · exact .ok _
  · refine .bind (dispatchLoop_nowhere _ _ _ _ ?_) fun st => .ok _
    exact (min_le_right _ _).trans (min_le_left _ _)

/-! ## Sessions -/

/-- What a session has done: a first part of the queue went to the ROB as one group and, each
instruction to a dispatcher of its own, to the units; nothing else changed, and the session
stopped early only at an instruction that no dispatcher could accept. -/
structure Session (p : DispatchParams) (s s' : DispatchState) (T T' : InstTable)
    (out : DispatchOut) : Prop where
  queue : s.dispatchQueue = out.toRob ++ s'.dispatchQueue
  size_le : out.toRob.length ≤ min p.numToDispatch (min s.creditsRob s.dispatchQueue.length)
  sends : out.sends.map Prod.snd = out.toRob
  once : (out.sends.map Prod.fst).Nodup
  greedy : Greedy p s [] out.sends
  status : T'.status = fun k => if k ∈ out.toRob.map RenamedInst.key then .dispatched
    else T.status k
  mispredicted : T'.mispredicted = T.mispredicted
  creditsRob : s'.creditsRob + out.toRob.length = s.creditsRob
  unitCredits : ∀ d, (s'.dispatchers d).unitCredits +
    (if d ∈ out.sends.map Prod.fst then 1 else 0) = (s.dispatchers d).unitCredits
  queueCredits : out.queueCredits.getD 0 = out.toRob.length
  maximal : out.toRob.length < min p.numToDispatch (min s.creditsRob s.dispatchQueue.length) →
    Stopped p s s' (out.sends.map Prod.fst)

/-- With each dispatcher used once, the number of its instructions is 1 or 0. -/
theorem length_filter_of_nodup {sends : List (UnitId × RenamedInst)}
    (h : (sends.map Prod.fst).Nodup) (d : UnitId) :
    (sends.filter fun x => x.1 = d).length = if d ∈ sends.map Prod.fst then 1 else 0 := by
  have hcount : (sends.filter fun x => x.1 = d).length = (sends.map Prod.fst).count d := by
    rw [List.count, List.countP_map, List.countP_eq_length_filter]
    rfl
  rw [hcount]
  split
  · rename_i hd
    exact List.count_eq_one_of_mem h hd
  · rename_i hd
    exact List.count_eq_zero_of_not_mem hd

theorem queueCredits_getD (out : DispatchOut) : out.queueCredits.getD 0 = out.toRob.length := by
  unfold DispatchOut.queueCredits
  split
  · rename_i hempty
    rw [List.isEmpty_iff.mp hempty]
    rfl
  · rfl

theorem dispatchInstructions_session (hrob : s.creditsRob < 2 ^ 32)
    (hunit : ∀ d, (s.dispatchers d).unitCredits < 2 ^ 32)
    (hone : ∀ d, (s.dispatchers d).numCanDispatch = 1)
    (h : dispatchInstructions p s T = .ok (s', T', out)) : Session p s s' T T' out := by
  have D := dispatchInstructions_spec hrob hunit h
  have hchoices : out.sends.length ≤ numDispatch p s ∧ Greedy p s [] out.sends ∧
      (out.sends.length < numDispatch p s → Stopped p s s' (out.sends.map Prod.fst)) := by
    unfold dispatchInstructions at h
    dsimp only at h
    split at h
    · rename_i hzero
      cases Except.ok.inj h
      refine ⟨Nat.zero_le _, trivial, fun hlt => ?_⟩
      rw [numDispatch, hzero] at hlt
      cases hlt
    · obtain ⟨⟨s₁, T₁, out₁⟩, hloop, h⟩ := Run.bind_eq_ok.mp h
      cases Except.ok.inj h
      obtain ⟨sends, hsends, hlen, hgreedy, hstop⟩ := dispatchLoop_greedy hone _ {}
        (used_nil s) hloop
      obtain rfl : out₁.sends = sends := by simpa using hsends
      exact ⟨hlen, hgreedy, hstop⟩
  obtain ⟨hlen, hgreedy, hstop⟩ := hchoices
  have hsame : out.sends.length = out.toRob.length := by
    rw [← D.sends_new, List.length_map]
  have hnum : numDispatch p s =
      min p.numToDispatch (min s.creditsRob s.dispatchQueue.length) := by
    unfold numDispatch
    omega
  rw [hsame, hnum] at hlen hstop
  have honce : (out.sends.map Prod.fst).Nodup := by
    simpa using hgreedy.nodup List.nodup_nil
  exact {
    queue := D.queue
    size_le := hlen
    sends := D.sends_new
    once := honce
    greedy := hgreedy
    status := D.status
    mispredicted := D.mispredicted
    creditsRob := D.creditsRob
    unitCredits := fun d => by
      rw [← length_filter_of_nodup honce]
      exact D.unitCredits d
    queueCredits := queueCredits_getD out
    maximal := hstop }

end Dispatch

/-! ## Reachable states -/

namespace DispatchEvent

/-- Between two handlers the counters are in range and every dispatcher has its bandwidth. -/
structure Idle (s : DispatchEvent) : Prop where
  rob_lt : s.dispatch.creditsRob < 2 ^ 32
  unit_lt : ∀ d, (s.dispatch.dispatchers d).unitCredits < 2 ^ 32
  one : ∀ d, (s.dispatch.dispatchers d).numCanDispatch = 1

variable {p : DispatchParams} {s s' : DispatchEvent} {op : DispatchEventOp}

theorem idle_arrive {d : DispatchState} (hrob : d.creditsRob < 2 ^ 32)
    (hunit : ∀ e, (d.dispatchers e).unitCredits < 2 ^ 32)
    (hone : ∀ e, (d.dispatchers e).numCanDispatch = 1) : (s.arrive p d).Idle := by
  constructor
  · simpa [arrive] using hrob
  · simpa [arrive] using hunit
  · simpa [arrive] using hone

/-- The end of a session gives every dispatcher its bandwidth back. -/
theorem dispatchInstructions_one {d d' : DispatchState} {T T' : InstTable} {out : DispatchOut}
    (hone : ∀ e, (d.dispatchers e).numCanDispatch = 1)
    (h : Dispatch.dispatchInstructions p d T = .ok (d', T', out)) (e : UnitId) :
    (d'.dispatchers e).numCanDispatch = 1 := by
  unfold Dispatch.dispatchInstructions at h
  dsimp only at h
  split at h
  · cases Except.ok.inj h
    exact hone e
  · obtain ⟨⟨d₁, T₁, out₁⟩, -, h⟩ := Run.bind_eq_ok.mp h
    cases Except.ok.inj h
    rfl

theorem Idle.step (H : s.Idle) (hstep : s.step p op = .ok s') : s'.Idle := by
  cases op with
  | appended insts =>
    obtain ⟨-, -, hstep⟩ := Run.bind_eq_ok.mp hstep
    obtain rfl := Except.ok.inj hstep
    exact idle_arrive H.rob_lt H.unit_lt H.one
  | robCredits n =>
    obtain rfl := Except.ok.inj hstep
    exact idle_arrive (u32Add_lt _ _) H.unit_lt H.one
  | unitCredits d n =>
    obtain rfl := Except.ok.inj hstep
    refine idle_arrive H.rob_lt (fun e => ?_) fun e => ?_
    · by_cases hed : e = d
      · simpa [hed] using u32Add_lt _ _
      · simpa [Function.update_of_ne hed] using H.unit_lt e
    · by_cases hed : e = d
      · simpa [hed] using H.one d
      · simpa [Function.update_of_ne hed] using H.one e
  | flush =>
    obtain rfl := Except.ok.inj hstep
    exact ⟨H.rob_lt, H.unit_lt, H.one⟩
  | dispatch =>
    obtain ⟨-, -, hstep⟩ := Run.bind_eq_ok.mp hstep
    obtain ⟨⟨d, T, out⟩, hd, hstep⟩ := Run.bind_eq_ok.mp hstep
    obtain rfl := Except.ok.inj hstep
    have hd := checked_eq_ok.mp hd
    have S := Dispatch.dispatchInstructions_session H.rob_lt H.unit_lt H.one hd
    have hrob := H.rob_lt
    have hcredits := S.creditsRob
    refine ⟨by dsimp only; omega, fun e => ?_, dispatchInstructions_one H.one hd⟩
    have hunit := H.unit_lt e
    have hused := S.unitCredits e
    dsimp only
    omega
  | nextCycle =>
    obtain ⟨-, -, hstep⟩ := Run.bind_eq_ok.mp hstep
    obtain rfl := Except.ok.inj hstep
    exact ⟨H.rob_lt, H.unit_lt, H.one⟩

theorem reachable_idle (h : Run.Reachable (step p) {} s) : s.Idle := by
  refine h.invariant ⟨by decide, fun _ => Nat.two_pow_pos 32, fun _ => rfl⟩ ?_
  exact fun _ _ _ H hstep => H.step hstep

end DispatchEvent

/-- In every reachable state a session takes an exact first part of the dispatch queue, whatever
the statuses are; it can only fail at an instruction whose target pipe has no dispatcher. -/
theorem dispatch_session_exact (p : DispatchParams) {s : DispatchEvent}
    (h : Run.Reachable (DispatchEvent.step p) {} s) (T : InstTable) :
    Run.FailsIn Dispatch.NowhereToGo (Dispatch.dispatchInstructions p s.dispatch T) ∧
      ∀ d T' out, Dispatch.dispatchInstructions p s.dispatch T = .ok (d, T', out) →
        Dispatch.Session p s.dispatch d T T' out := by
  have H := DispatchEvent.reachable_idle h
  constructor
  · exact Dispatch.dispatchInstructions_nowhere _ _
  · intro d T' out hd
    exact Dispatch.dispatchInstructions_session H.rob_lt H.unit_lt H.one hd

/-- Two integer units, of which the second also serves branches. -/
def sharedUnits : DispatchParams where
  dispatchers
    | .int => [.iq 0, .iq 1]
    | .br => [.iq 1]
    | _ => []

/-- Two integer instructions and a branch, with more credits of the shared unit. -/
def sharedOps : List DispatchEventOp :=
  [.robCredits 30, .unitCredits (.iq 0) 4, .unitCredits (.iq 1) 8,
   .appended [{ inst := { uniqueId := 1 } }, { inst := { uniqueId := 2, pipe := .br } },
     { inst := { uniqueId := 3 } }]]

/-- The first instruction takes the shared unit, so the branch has to wait. -/
theorem dispatch_session_exact_sample :
    ∃ s d T' out, sharedOps.foldlM (DispatchEvent.step sharedUnits) {} = .ok s ∧
      Dispatch.dispatchInstructions sharedUnits s.dispatch s.table = .ok (d, T', out) ∧
      Dispatch.Session sharedUnits s.dispatch d s.table T' out ∧
      out.sends.map (fun x => (x.1, x.2.inst.uniqueId)) = [(.iq 1, 1)] := by
  have heval : ((sharedOps.foldlM (DispatchEvent.step sharedUnits) {}).toOption.map
      fun s => (Dispatch.dispatchInstructions sharedUnits s.dispatch s.table).toOption.map
        fun r => r.2.2.sends.map fun x => (x.1, x.2.inst.uniqueId)) = some (some [(.iq 1, 1)]) := by
    decide +kernel
  obtain ⟨s, hrun, heval⟩ := Run.ok_of_eval heval
  obtain ⟨⟨d, T', out⟩, hd, hsends⟩ := Run.ok_of_eval heval
  exact ⟨s, d, T', out, hrun, hd,
    (dispatch_session_exact sharedUnits ⟨sharedOps, hrun⟩ s.table).2 d T' out hd, hsends⟩

end Olympia
