import Olympia.Mss.MemSystem

/-!
# The bus of the memory system

The other half of `MemSystem.reachable_l2`: a run of the memory system is a run of `BusSystem`, in
which the L2 cache of the repository sends the transactions.  It sends one only with a credit, and
its credits are those that `BusSystem` counts.  So the BIU and the MSS serve its transactions once
and in order, and no assertion of theirs fails.
-/

namespace Olympia

open L2Cache

namespace L2System

variable {p : L2Params} {s s' : L2System p} {op : L2Op}

/-- Only a transaction and the credits of the BIU change `l2cache_biu_credits_`. -/
theorem biuCredits_step (hsend : op ≠ .handleBiuReq) (hcred : ∀ n, op ≠ .biuCredits n)
    (h : s.step p op = .ok s') : s'.l2.biuCredits = s.l2.biuCredits := by
  obtain ⟨-, -, h⟩ := step_eq_ok.mp h
  cases op with
  | handleBiuReq => exact absurd rfl hsend
  | biuCredits n => exact absurd rfl (hcred n)
  | req c r =>
    obtain ⟨l2, hl2, h⟩ := Run.bind_eq_ok.mp h
    obtain rfl := Except.ok.inj h
    obtain ⟨l2', happ, hl2⟩ := Run.bind_eq_ok.mp hl2
    obtain rfl := Except.ok.inj hl2
    obtain ⟨q, -, happ⟩ := Run.bind_eq_ok.mp happ
    obtain rfl := Except.ok.inj happ
    rfl
  | biuResp i =>
    rcases ht : s.atBiu[i]? with _ | t
    · simp only [handle, ht] at h
      obtain rfl := Except.ok.inj h
      rfl
    · simp only [handle, ht] at h
      obtain ⟨l2, hl2, h⟩ := Run.bind_eq_ok.mp h
      obtain rfl := Except.ok.inj h
      obtain ⟨q, -, hl2⟩ := Run.bind_eq_ok.mp hl2
      obtain ⟨u, -, hl2⟩ := Run.bind_eq_ok.mp hl2
      obtain rfl := Except.ok.inj hl2
      rfl
  | handleReq c =>
    obtain rfl := Except.ok.inj h
    simp only [handleReq]
    split <;> rfl
  | handleBiuResp =>
    obtain rfl := Except.ok.inj h
    simp only [handleBiuResp]
    split <;> rfl
  | handleResp c =>
    obtain ⟨⟨l2, r⟩, hl2, h⟩ := Run.bind_eq_ok.mp h
    obtain rfl := Except.ok.inj h
    unfold handleResp at hl2
    split at hl2
    · cases hl2
    · obtain ⟨rfl, -⟩ := Prod.mk.inj (Except.ok.inj hl2)
      rfl
  | lookup =>
    obtain ⟨l2, hl2, h⟩ := Run.bind_eq_ok.mp h
    obtain rfl := Except.ok.inj h
    obtain ⟨req, hit, cache, -, rfl⟩ := handleCacheAccessRequest_cases hl2
    rfl
  | result =>
    obtain ⟨l2, hl2, h⟩ := Run.bind_eq_ok.mp h
    obtain rfl := Except.ok.inj h
    obtain ⟨req, -, ⟨-, c, -, -, rfl⟩ | ⟨-, hmiss⟩⟩ := handleCacheAccessResult_cases hl2
    · rfl
    · obtain ⟨-, ⟨-, rfl⟩ | ⟨-, -, rfl⟩⟩ := handleMiss_cases hmiss <;> rfl
  | createReq =>
    obtain ⟨⟨l2, credit⟩, hl2, h⟩ := Run.bind_eq_ok.mp h
    obtain rfl := Except.ok.inj h
    obtain ⟨-, sel, ⟨-, rfl, -⟩ | ⟨-, -, t, rest, r, -, -, rfl⟩ |
      ⟨-, c, r, rest, -, -, -, -, rfl⟩⟩ := createReq_cases hl2 <;> rfl
  | issueReq =>
    obtain ⟨l2, hl2, h⟩ := Run.bind_eq_ok.mp h
    obtain rfl := Except.ok.inj h
    obtain ⟨r, rest, -, -, -, rfl⟩ | rfl := issueReq_cases hl2 <;> rfl
  | _ =>
    obtain rfl := Except.ok.inj h
    rfl

/-- Only the clock changes the phase. -/
theorem phase_step (htick : op ≠ .tick) (hpost : op ≠ .postTick) (hnext : op ≠ .nextCycle)
    (h : s.step p op = .ok s') : s'.phase = s.phase := by
  rw [handle_phase (step_eq_ok.mp h).2.2]
  cases op with
  | tick => exact absurd rfl htick
  | postTick => exact absurd rfl hpost
  | nextCycle => exact absurd rfl hnext
  | _ => rfl

end L2System

namespace MemSystem

variable {p : L2Params} {q : BusParams} {s s' : MemSystem p q} {b : BusSystem q}

/-- The phase of the bus, which has nothing to do after the tick phase. -/
def busPhase : MssPhase → MssPhase
  | .portUpdate => .portUpdate
  | .tick | .postTick => .tick

/-- The bus of the memory system is in a state of `BusSystem`. -/
structure Carries (s : MemSystem p q) (b : BusSystem q) : Prop where
  bus : b.bus = s.bus
  credits : b.l2Credits = s.l2.l2.biuCredits
  phase : b.phase = busPhase s.l2.phase
  done : s.l2.phase = .postTick → s.bus.tickDone = true

theorem Carries.step_l2 (H : Carries s b) {op : L2Op} (h : s.step p q (.l2 op) = .ok s') :
    ∃ b', Carries s' b' ∧ (b' = b ∨ ∃ bop, b.step q bop = .ok b') := by
  obtain ⟨u, hready, h⟩ := Run.bind_eq_ok.mp h
  obtain ⟨l2, hl2, h⟩ := Run.bind_eq_ok.mp h
  obtain rfl := Except.ok.inj h
  have hready := enabled_eq_ok.mp hready
  obtain ⟨hphase, hdue, hhandle⟩ := L2System.step_eq_ok.mp hl2
  by_cases hsend : op = .handleBiuReq
  · subst hsend
    have hbphase : b.phase = .tick := by rw [H.phase, hphase]; rfl
    rcases L2System.handleBiuReq_cases s.l2.l2 with ⟨t, rest, hq, hcred, heq⟩ | ⟨-, heq⟩
    · simp only [L2System.handle, heq] at hhandle
      obtain rfl := Except.ok.inj hhandle
      have hdue : b.due (.request t) = true := by simpa [BusSystem.due, H.credits] using hcred
      have hstep := BusSystem.step_eq_ok.mpr ⟨hbphase, hdue, rfl⟩
      refine ⟨_, ?_, .inr ⟨_, hstep⟩⟩
      refine ⟨?_, ?_, hbphase.trans (by rw [hphase]; rfl), fun hpost => ?_⟩
      · simp [follow, heq, H.bus]
      · simp [H.credits]
      · rw [hphase] at hpost
        cases hpost
    · simp only [L2System.handle, heq] at hhandle
      obtain rfl := Except.ok.inj hhandle
      refine ⟨b, ⟨?_, H.credits, hbphase.trans (by rw [hphase]; rfl), fun hpost => ?_⟩, .inl rfl⟩
      · simp [follow, heq, H.bus]
      · rw [hphase] at hpost
        cases hpost
  · have hcred : ∀ n, op ≠ .biuCredits n := by
      rintro n rfl
      cases hready
    have hcredits := H.credits.trans (L2System.biuCredits_step hsend hcred hl2).symm
    by_cases hclock : op = .tick ∨ op = .postTick ∨ op = .nextCycle
    · rcases hclock with rfl | rfl | rfl
      · obtain rfl := Except.ok.inj hhandle
        have hbphase : b.phase = .portUpdate := by rw [H.phase, hphase]; rfl
        have hdue : b.due .tick = true := by
          have hports : s.bus.portsDone = true := hready
          rw [BusSystem.due, H.bus, hports]
        have hstep := BusSystem.step_eq_ok.mpr ⟨hbphase, hdue, rfl⟩
        refine ⟨_, ?_, .inr ⟨_, hstep⟩⟩
        exact ⟨H.bus, hcredits, rfl, fun hpost => by cases hpost⟩
      · obtain rfl := Except.ok.inj hhandle
        have hbphase : b.phase = .tick := by rw [H.phase, hphase]; rfl
        exact ⟨b, ⟨H.bus, hcredits, hbphase, fun _ => hready⟩, .inl rfl⟩
      · obtain rfl := Except.ok.inj hhandle
        have hbphase : b.phase = .tick := by rw [H.phase, hphase]; rfl
        have hdue : b.due .nextCycle = true := by
          simpa [BusSystem.due, H.bus] using H.done hphase
        have hstep := BusSystem.step_eq_ok.mpr ⟨hbphase, hdue, rfl⟩
        refine ⟨_, ?_, .inr ⟨_, hstep⟩⟩
        refine ⟨?_, hcredits, rfl, fun hpost => by cases hpost⟩
        simp [follow, H.bus]
    · simp only [not_or] at hclock
      obtain ⟨htick, hpost, hnext⟩ := hclock
      have hfollow : s.follow op = s.bus := by
        cases op with
        | handleBiuReq => exact absurd rfl hsend
        | nextCycle => exact absurd rfl hnext
        | _ => rfl
      have hsame := L2System.phase_step htick hpost hnext hl2
      refine ⟨b, ⟨?_, hcredits, ?_, ?_⟩, .inl rfl⟩
      · rw [H.bus, hfollow]
      · rw [H.phase, hsame]
      · rw [hsame, hfollow]
        exact H.done

/-- A step of the memory system is a step of the bus or leaves it alone. -/
theorem Carries.step (H : Carries s b) {op : MemOp} (h : s.step p q op = .ok s') :
    ∃ b', Carries s' b' ∧ (b' = b ∨ ∃ bop, b.step q bop = .ok b') := by
  cases op with
  | l2 op => exact H.step_l2 h
  | bus op =>
    obtain ⟨u, hen, h⟩ := Run.bind_eq_ok.mp h
    obtain ⟨bus, hbus, h⟩ := Run.bind_eq_ok.mp h
    obtain rfl := Except.ok.inj h
    obtain ⟨hphase, hdue⟩ := of_decide_eq_true (enabled_eq_ok.mp hen)
    have hbphase : b.phase = op.phase := by
      rw [H.phase, hphase]
      cases op <;> rfl
    have hbdue : b.due (.bus op) = true := by simpa [BusSystem.due, H.bus] using hdue
    have hhandle : op.handle q b.bus = .ok bus := H.bus ▸ checked_eq_ok.mp hbus
    have hstep := BusSystem.step_eq_ok.mpr
      ⟨hbphase, hbdue, Run.bind_eq_ok.mpr ⟨bus, hhandle, rfl⟩⟩
    refine ⟨_, ?_, .inr ⟨_, hstep⟩⟩
    refine ⟨rfl, H.credits, H.phase, fun hpost => ?_⟩
    have hpost : s.l2.phase = .postTick := hpost
    rw [hphase] at hpost
    cases op <;> cases hpost
  | respArrives =>
    obtain ⟨u, hen, h⟩ := Run.bind_eq_ok.mp h
    have hphase : s.l2.phase = .portUpdate := of_decide_eq_true (enabled_eq_ok.mp hen)
    have hbphase : b.phase = .portUpdate := by rw [H.phase, hphase]; rfl
    rcases hfront : Port.front s.bus.resps s.bus.now with _ | ⟨t, rest⟩
    · simp only [hfront] at h
      cases h
    · simp only [hfront] at h
      obtain ⟨l2, hl2, h⟩ := Run.bind_eq_ok.mp (checked_eq_ok.mp h)
      obtain rfl := Except.ok.inj h
      obtain ⟨l, -, hl2⟩ := Run.bind_eq_ok.mp hl2
      obtain ⟨u, -, hl2⟩ := Run.bind_eq_ok.mp hl2
      obtain rfl := Except.ok.inj hl2
      have hbfront : Port.front b.bus.resps b.bus.now = some (t, rest) := by rw [H.bus, hfront]
      have hdue : b.due .respArrives = true := by simp [BusSystem.due, hbfront]
      have hhandle : b.handle q .respArrives = .ok { b with
          bus := { b.bus with resps := rest }, answered := b.answered ++ [t] } := by
        simp only [BusSystem.handle, hbfront]
      have hstep := BusSystem.step_eq_ok.mpr ⟨hbphase, hdue, hhandle⟩
      refine ⟨_, ?_, .inr ⟨_, hstep⟩⟩
      refine ⟨?_, ?_, ?_, fun hpost => ?_⟩
      · simp [H.bus]
      · exact H.credits
      · exact H.phase
      · exact H.done hpost
  | creditsArrive =>
    obtain ⟨u, hen, h⟩ := Run.bind_eq_ok.mp h
    have hphase : s.l2.phase = .portUpdate := of_decide_eq_true (enabled_eq_ok.mp hen)
    have hbphase : b.phase = .portUpdate := by rw [H.phase, hphase]; rfl
    rcases hfront : Port.front s.bus.credits s.bus.now with _ | ⟨n, rest⟩
    · simp only [hfront] at h
      cases h
    · simp only [hfront] at h
      obtain rfl := Except.ok.inj h
      have hbfront : Port.front b.bus.credits b.bus.now = some (n, rest) := by rw [H.bus, hfront]
      have hdue : b.due .creditsArrive = true := by simp [BusSystem.due, hbfront]
      have hhandle : b.handle q .creditsArrive = .ok { b with
          bus := { b.bus with credits := rest }, l2Credits := u32Add b.l2Credits n } := by
        simp only [BusSystem.handle, hbfront]
      have hstep := BusSystem.step_eq_ok.mpr ⟨hbphase, hdue, hhandle⟩
      refine ⟨_, ?_, .inr ⟨_, hstep⟩⟩
      refine ⟨?_, ?_, ?_, fun hpost => ?_⟩
      · simp [getCredits, H.bus]
      · simp [getCredits, getCreditsFromBIU, H.credits]
      · exact H.phase
      · exact H.done hpost

/-- The bus of a run of the memory system is in a state that it reaches with any L2 cache. -/
theorem reachable_bus (h : Run.Reachable (MemSystem.step p q) {} s) :
    ∃ b : BusSystem q, Carries s b ∧ Run.Reachable (BusSystem.step q) {} b := by
  refine h.invariant (I := fun s => ∃ b : BusSystem q, Carries s b ∧
    Run.Reachable (BusSystem.step q) {} b) ?_ ?_
  · exact ⟨{}, ⟨rfl, rfl, rfl, fun hpost => by cases hpost⟩, .refl _ _⟩
  · rintro op s s' ⟨b, H, hreach⟩ hstep
    obtain ⟨b', H', rfl | ⟨bop, hbop⟩⟩ := H.step hstep
    · exact ⟨b', H', hreach⟩
    · exact ⟨b', H', hreach.step hbop⟩

/-- The only assertions of the memory system that can fail are those on the number of answers of
the BIU. -/
theorem assertion_of_reachable (h : Run.Reachable (MemSystem.step p q) {} s) {op : MemOp}
    {a : Assertion} (hstep : s.step p q op = .error (.assertion a)) :
    op = .respArrives ∧ (a = .biuRespQueueOverflow ∨ a = .biuRespNotServiced) := by
  obtain ⟨-, hreach⟩ := reachable_l2 h
  obtain ⟨b, H, hbus⟩ := reachable_bus h
  cases op with
  | l2 op =>
    rcases Run.bind_eq_error.mp hstep with hen | ⟨u, hready, hstep⟩
    · exact absurd hen enabled_ne_assertion
    rcases Run.bind_eq_error.mp hstep with hl2 | ⟨l2, -, hstep⟩
    · obtain ⟨⟨i, rfl⟩, -⟩ := L2System.assertion_of_reachable hreach hl2
      cases enabled_eq_ok.mp hready
    · cases hstep
  | bus op =>
    rcases Run.bind_eq_error.mp hstep with hen | ⟨u, hen, hstep⟩
    · exact absurd hen enabled_ne_assertion
    -- the bus makes the same step, and does not stop
    obtain ⟨-, hdue⟩ := of_decide_eq_true (enabled_eq_ok.mp hen)
    have hbdue : b.due (.bus op) = true := by simpa [BusSystem.due, H.bus] using hdue
    obtain ⟨b', hb'⟩ := (BusSystem.Served.of_reachable hbus).handle_ok hbdue
    obtain ⟨bus, hok, -⟩ := Run.bind_eq_ok.mp hb'
    rw [H.bus] at hok
    rw [hok] at hstep
    cases hstep
  | respArrives =>
    rcases Run.bind_eq_error.mp hstep with hen | ⟨u, -, hstep⟩
    · exact absurd hen enabled_ne_assertion
    refine ⟨rfl, ?_⟩
    rcases hfront : Port.front s.bus.resps s.bus.now with _ | ⟨t, rest⟩
    · simp only [hfront] at hstep
      cases hstep
    · have hfails : Run.FailsIn (fun a => a = .biuRespQueueOverflow ∨ a = .biuRespNotServiced)
          (s.getResp t rest) := by
        refine Run.FailsIn.bind ?_ fun l2 => .ok _
        refine Run.FailsIn.bind ?_ fun q => ?_
        · refine Run.FailsIn.bind (spartaAssert_failsIn (.inl rfl)) fun _ => .ok _
        · refine Run.FailsIn.bind (spartaAssert_failsIn (.inr rfl)) fun _ => .ok _
      rcases hget : s.getResp t rest with e | s'
      · simp only [hfront, hget] at hstep
        obtain rfl : e = a := by simpa [checked] using hstep
        exact hfails _ hget
      · simp only [hfront, hget] at hstep
        cases hstep
  | creditsArrive =>
    rcases Run.bind_eq_error.mp hstep with hen | ⟨u, -, hstep⟩
    · exact absurd hen enabled_ne_assertion
    rcases hfront : Port.front s.bus.credits s.bus.now with _ | ⟨n, rest⟩
    · simp only [hfront] at hstep
      cases hstep
    · simp only [hfront] at hstep
      cases hstep

end MemSystem

end Olympia
