import Olympia.DecodeEvent
import Olympia.UopGeneration

/-!
# Uop sequences

What Decode sends for the instructions it takes, over as many sessions as the credits allow and
with flushes in between.  A session turns the uops remaining before it and those of the
instructions it takes into what it sends and the uops remaining after it
(`Decode.decodeLoop_emits`), and so does a run in which no flush takes the instruction that the
generator is at (`uop_sequences_complete`).
-/

namespace Olympia

open VectorUopGenerator

namespace Decode

/-! ## Sessions -/

/-- The instructions that decoding a queue under a configuration takes with `n` places left, as
configured: each takes a place for each of its uops, but at least one, and a vset that blocks is
the last one. -/
def reachedWithin : List Inst → ℕ → VectorConfig → List Inst
  | [], _, _ => []
  | i :: rest, n, c =>
    if n = 0 then []
    else
      let cfg := configure c i
      cfg.inst ::
        if cfg.blocks then []
        else reachedWithin rest (n - max 1 (uopSerials cfg.inst).length) cfg.config

/-- The instructions that the loop takes with `n` places left. -/
def reached (n : ℕ) (s : DecodeState) : List Inst :=
  if s.waitingOnVset then []
  else reachedWithin s.fetchQueue (n - (remaining s.vecUopGen).length) s.vectorConfig

/-- The loop takes only instructions with at least one uop. -/
def TakesSome (n : ℕ) (s : DecodeState) : Prop :=
  ∀ i ∈ reached n s, usesUopGen i = true → uopCount i ≠ 0

variable {m : Mavis} {s s' : DecodeState} {grp grp' : DecodeGroup} {n : ℕ}

theorem reachedWithin_zero (q : List Inst) (c : VectorConfig) : reachedWithin q 0 c = [] := by
  cases q <;> rfl

/-- What a pass of the loop takes and emits, with `n + 1` places left. -/
theorem decodeOne_emits {r : Option (DecodeState × DecodeGroup)} (H : Consistent s.vecUopGen)
    (hwait : s.waitingOnVset = false) (hsome : TakesSome (n + 1) s)
    (h : decodeOne m s grp = .ok r) :
    (r = none ∧ reached (n + 1) s = [] ∧ remaining s.vecUopGen = []) ∨
      ∃ s' uids uop taken, r = some (s', ⟨grp.insts ++ [uop], uids⟩) ∧ Consistent s'.vecUopGen ∧
        reached (n + 1) s = taken ++ reached n s' ∧
        remaining s.vecUopGen ++ taken.flatMap uopSerials =
          serial uop :: remaining s'.vecUopGen ∧
        ∀ i, s'.vecUopGen.currentInst = some i →
          s.vecUopGen.currentInst = some i ∨ i ∈ taken := by
  unfold decodeOne at h
  split at h
  · -- a uop of the current instruction
    obtain ⟨⟨uop, gen⟩, hgen, h⟩ := Run.bind_eq_ok.mp h
    obtain rfl := Except.ok.inj h
    obtain ⟨H', hrem, hsame⟩ := H.generateUop hgen
    refine .inr ⟨_, _, uop, [], rfl, H', ?_, by simpa using hrem, fun i hi => .inl (hsame i hi)⟩
    simp [reached, hwait, hrem]
  · rename_i hzero
    have hidle := H.idle_of_zero (by omega)
    have hrem := remaining_of_idle hidle
    rcases hq : s.fetchQueue with _ | ⟨i, rest⟩
    · rw [hq] at h
      obtain rfl := Except.ok.inj h
      exact .inl ⟨rfl, by simp [reached, hq, reachedWithin], hrem⟩
    · rw [hq] at h
      dsimp only at h
      have hreached : reached (n + 1) s = (configure s.vectorConfig i).inst ::
          if (configure s.vectorConfig i).blocks then []
          else reachedWithin rest
            (n + 1 - max 1 (uopSerials (configure s.vectorConfig i).inst).length)
            (configure s.vectorConfig i).config := by
        simp [reached, hwait, hq, hrem, reachedWithin]
      have hcount := hsome (configure s.vectorConfig i).inst (by simp [hreached])
      generalize configure s.vectorConfig i = cfg at h hreached hcount
      -- one of the places is taken by what is sent now, the others by what remains
      have hrest : ∀ {uop : Inst} {gen : VecUopGen},
          uopSerials cfg.inst = serial uop :: remaining gen →
          reached (n + 1) s = [cfg.inst] ++ reached n { s with
            fetchQueue := rest
            vectorConfig := cfg.config
            waitingOnVset := s.waitingOnVset || cfg.blocks
            vecUopGen := gen } := by
        intro uop gen hserials
        rw [hreached, hserials]
        simp [reached, hwait]
      split at h
      · rename_i huses
        obtain ⟨gen, hset, h⟩ := Run.bind_eq_ok.mp h
        obtain ⟨⟨uop, gen'⟩, hgen, h⟩ := Run.bind_eq_ok.mp h
        obtain rfl := Except.ok.inj h
        obtain ⟨H₁, hrem₁⟩ := H.setInst huses (hcount huses) hset
        obtain ⟨H₂, hrem₂, hsame⟩ := H₁.generateUop hgen
        rw [hrem₁] at hrem₂
        refine .inr ⟨_, _, uop, [cfg.inst], rfl, H₂, hrest hrem₂, by simpa [hrem] using hrem₂,
          fun j hj => .inr ?_⟩
        obtain rfl := Option.some.inj ((setInst_spec hset).2.1.symm.trans (hsame j hj))
        exact List.mem_singleton_self _
      · rename_i huses
        obtain rfl := Except.ok.inj h
        have hserials : uopSerials cfg.inst = serial cfg.inst :: remaining s.vecUopGen := by
          rw [hrem]
          simp [uopSerials, huses]
        exact .inr ⟨_, _, cfg.inst, [cfg.inst], rfl, H, hrest hserials, by
          simpa [hrem] using hserials, fun _ h => .inl h⟩

/-- The loop sends the uops remaining before it and those of the instructions it takes, up to the
uops remaining after it; some remain only if there was no place for them or Decode waits. -/
theorem decodeLoop_emits : ∀ (n : ℕ) {s s' : DecodeState} {grp grp' : DecodeGroup},
    Consistent s.vecUopGen → TakesSome n s → decodeLoop m n s grp = .ok (s', grp') →
    Consistent s'.vecUopGen ∧ ∃ out, grp'.insts = grp.insts ++ out ∧
      remaining s.vecUopGen ++ (reached n s).flatMap uopSerials =
        out.map serial ++ remaining s'.vecUopGen ∧
      (remaining s'.vecUopGen ≠ [] → out.length = n ∨ s'.waitingOnVset = true)
  | 0, s, s', grp, grp', H, _, h => by
    obtain ⟨rfl, rfl⟩ := Prod.mk.inj (Except.ok.inj h)
    refine ⟨H, [], by simp, ?_, fun _ => .inl rfl⟩
    simp [reached, reachedWithin_zero]
  | n + 1, s, s', grp, grp', H, hsome, h => by
    unfold decodeLoop at h
    split at h
    · rename_i hwait
      obtain ⟨rfl, rfl⟩ := Prod.mk.inj (Except.ok.inj h)
      refine ⟨H, [], by simp, ?_, fun _ => .inr hwait⟩
      simp [reached, hwait]
    · rename_i hwait
      obtain ⟨r, hone, h⟩ := Run.bind_eq_ok.mp h
      rcases decodeOne_emits H (by simpa using hwait) hsome hone with ⟨rfl, hreached, hrem⟩ |
        ⟨s₁, uids, uop, taken, rfl, H₁, hreached, hrem, -⟩
      · obtain ⟨rfl, rfl⟩ := Prod.mk.inj (Except.ok.inj h)
        refine ⟨H, [], by simp, ?_, fun hne => absurd hrem hne⟩
        simp [hreached]
      · have hsome₁ : TakesSome n s₁ := fun i hi =>
          hsome i (by rw [hreached]; exact List.mem_append_right _ hi)
        obtain ⟨H', out, hout, heq, hfull⟩ := decodeLoop_emits n H₁ hsome₁ h
        refine ⟨H', uop :: out, by simp [hout], ?_, fun hne => ?_⟩
        · calc remaining s.vecUopGen ++ (reached (n + 1) s).flatMap uopSerials
              = (remaining s.vecUopGen ++ taken.flatMap uopSerials) ++
                  (reached n s₁).flatMap uopSerials := by simp [hreached]
            _ = serial uop :: (remaining s₁.vecUopGen ++
                  (reached n s₁).flatMap uopSerials) := by rw [hrem]; rfl
            _ = (uop :: out).map serial ++ remaining s'.vecUopGen := by rw [heq]; rfl
        · exact (hfull hne).imp_left (by simp)

/-- A pass of the loop fails only for an instruction that cannot be split. -/
theorem decodeOne_eq_ok (H : Consistent s.vecUopGen) (hwait : s.waitingOnVset = false)
    (hcur : ∀ i, s.vecUopGen.currentInst = some i → Splittable i)
    (hsplit : ∀ i ∈ reached (n + 1) s, usesUopGen i = true → Splittable i) :
    ∃ r, decodeOne m s grp = .ok r := by
  unfold decodeOne
  split
  · rename_i hpos
    obtain ⟨i, hi⟩ := Consistent.busy_of_pos hpos
    obtain ⟨r, hr⟩ := H.generateUop_eq_ok (m := m) hi (hcur i hi)
    rw [hr]
    exact ⟨_, rfl⟩
  · rename_i hzero
    have hidle := H.idle_of_zero (by omega)
    rcases hq : s.fetchQueue with _ | ⟨i, rest⟩
    · exact ⟨_, rfl⟩
    · dsimp only
      split
      · rename_i huses
        have h := hsplit (configure s.vectorConfig i).inst
          (by simp [reached, hwait, hq, remaining_of_idle hidle, reachedWithin]) huses
        obtain ⟨g, hg⟩ :=
          Consistent.setInst_eq_ok hidle h.supported.2 h.lmul_le h.uopCount_le
        obtain ⟨Hg, -⟩ := H.setInst huses h.some hg
        obtain ⟨r, hr⟩ := Hg.generateUop_eq_ok (m := m) (setInst_spec hg).2.1 h
        rw [hg]
        simp only [bind, Except.bind, hr]
        exact ⟨_, rfl⟩
      · exact ⟨_, rfl⟩

theorem decodeOne_failsIn (H : Consistent s.vecUopGen) :
    Run.FailsIn (· ≠ .uopGenBusy) (decodeOne m s grp) := by
  unfold decodeOne
  split
  · exact (generateUop_failsIn _ _).bind fun _ => .ok _
  · rename_i hzero
    have hidle := H.idle_of_zero (by omega)
    split
    · exact .ok _
    · dsimp only
      refine .ite ?_ (.ok _)
      exact (setInst_failsIn hidle _).bind fun _ =>
        (generateUop_failsIn _ _).bind fun _ => .ok _

/-- The loop succeeds if the instructions it comes to can be split. -/
theorem decodeLoop_eq_ok : ∀ (n : ℕ) {s : DecodeState} {grp : DecodeGroup},
    Consistent s.vecUopGen → (∀ i, s.vecUopGen.currentInst = some i → Splittable i) →
    (∀ i ∈ reached n s, usesUopGen i = true → Splittable i) →
    ∃ r, decodeLoop m n s grp = .ok r
  | 0, s, grp, _, _, _ => ⟨_, rfl⟩
  | n + 1, s, grp, H, hcur, hsplit => by
    unfold decodeLoop
    split
    · exact ⟨_, rfl⟩
    · rename_i hwait
      have hwait : s.waitingOnVset = false := by simpa using hwait
      have hsome : TakesSome (n + 1) s := fun i hi huses => (hsplit i hi huses).some
      obtain ⟨r, hone⟩ : ∃ r, decodeOne m s grp = .ok r := decodeOne_eq_ok H hwait hcur hsplit
      rw [hone]
      rcases decodeOne_emits H hwait hsome hone with ⟨rfl, -, -⟩ |
        ⟨s₁, uids, uop, taken, rfl, H₁, hreached, -, hfrom⟩
      · exact ⟨_, rfl⟩
      · refine decodeLoop_eq_ok n H₁ (fun i hi => ?_) fun i hi =>
          hsplit i (by rw [hreached]; exact List.mem_append_right _ hi)
        rcases hfrom i hi with hi' | hi'
        · exact hcur i hi'
        · exact hsplit i (by rw [hreached]; exact List.mem_append_left _ hi') (H₁.busy i hi).1

/-- The loop never hands the generator an instruction while it has another one. -/
theorem decodeLoop_failsIn : ∀ (n : ℕ) {s : DecodeState} {grp : DecodeGroup},
    Consistent s.vecUopGen → TakesSome n s →
    Run.FailsIn (· ≠ .uopGenBusy) (decodeLoop m n s grp)
  | 0, s, grp, _, _ => .ok _
  | n + 1, s, grp, H, hsome => by
    unfold decodeLoop
    split
    · exact .ok _
    · rename_i hwait
      refine (decodeOne_failsIn H).bind_of_ok fun r hone => ?_
      rcases decodeOne_emits H (by simpa using hwait) hsome hone with ⟨rfl, -, -⟩ |
        ⟨s₁, uids, uop, taken, rfl, H₁, hreached, -, -⟩
      · exact .ok _
      · exact decodeLoop_failsIn n H₁ fun i hi =>
          hsome i (by rw [hreached]; exact List.mem_append_right _ hi)

/-- The instructions that a session takes, as configured. -/
def taken (p : DecodeParams) (s : DecodeState) : List Inst :=
  if putsOff p s then [] else reached (numToDecode p s) s

variable {p : DecodeParams}

theorem taken_eq (hoff : putsOff p s = false) :
    taken p s = reached (numToDecode p s) { s with latencyCount := 0 } := by
  simp [taken, hoff, reached]

theorem decodeInsts_emits {out : Option (List Inst)} (H : Consistent s.vecUopGen)
    (hsome : ∀ i ∈ taken p s, usesUopGen i = true → uopCount i ≠ 0)
    (h : decodeInsts p s = .ok (s', out)) :
    Consistent s'.vecUopGen ∧
      remaining s.vecUopGen ++ (taken p s).flatMap uopSerials =
        (out.getD []).map serial ++ remaining s'.vecUopGen ∧
      (remaining s'.vecUopGen ≠ [] → putsOff p s = false →
        (out.getD []).length = numToDecode p s ∨ s'.waitingOnVset = true) := by
  rcases decodeInsts_cases h with ⟨hoff, rfl, rfl⟩ | ⟨hoff, s₁, grp, hloop, rfl, rfl⟩
  · refine ⟨H, by simp [taken, hoff], fun _ hnot => ?_⟩
    rw [hnot] at hoff
    cases hoff
  · rw [taken_eq hoff] at hsome ⊢
    obtain ⟨H', out', hout, hrem, hfull⟩ := decodeLoop_emits _ (s := { s with latencyCount := 0 })
      H hsome hloop
    obtain rfl : grp.insts = out' := by simpa using hout
    exact ⟨H', hrem, fun hne _ => hfull hne⟩

/-- A session fails where its loop or the fusion passes do. -/
theorem decodeInsts_failsIn {E : Assertion → Prop}
    (hfuse : ∀ e ∈ [Assertion.fusionWatchDog, .fusionOutOfRange], E e)
    (hloop : putsOff p s = false →
      Run.FailsIn E (decodeLoop p.mavis (numToDecode p s) { s with latencyCount := 0 } {})) :
    Run.FailsIn E (decodeInsts p s) := by
  unfold decodeInsts
  split
  · exact .ok _
  · rename_i hoff
    refine (hloop (by simpa using hoff)).bind fun r => ?_
    dsimp only
    split
    · exact ((p.fuse_failsIn _ _).mono hfuse).bind fun _ => .ok _
    · exact .ok _

end Decode

/-! ## Runs -/

/-- What a session takes and what it sends. -/
structure DecodeSession where
  taken : List Inst
  sent : List Inst

namespace DecodeEvent

def obs (p : DecodeParams) (s : DecodeEvent) : DecodeOp → List DecodeSession
  | .decode =>
    match Decode.decodeInsts p s.decode with
    | .ok (_, out) => [⟨Decode.taken p s.decode, out.getD []⟩]
    | .error _ => []
  | _ => []

/-- The flush takes the instruction that the generator is at. -/
def cuts (s : DecodeEvent) (c : FlushingCriteria) : Bool :=
  s.decode.vecUopGen.currentInst.any c.includedInFlush

/-- Each instruction that a step takes and splits has a uop. -/
def TakesSome (p : DecodeParams) (s : DecodeEvent) : DecodeOp → Prop
  | .decode => ∀ i ∈ Decode.taken p s.decode, Decode.usesUopGen i = true → uopCount i ≠ 0
  | _ => True

instance (p : DecodeParams) (s : DecodeEvent) : (op : DecodeOp) → Decidable (TakesSome p s op)
  | .decode => inferInstanceAs (Decidable (∀ i ∈ _, _ → _))
  | .credits _ | .appended _ | .vset _ | .flush _ | .nextCycle => inferInstanceAs (Decidable True)

variable {p : DecodeParams} {s s' : DecodeEvent} {op : DecodeOp}

theorem consistent_step (H : Consistent s.decode.vecUopGen) (hsome : s.TakesSome p op)
    (hstep : s.step p op = .ok s') : Consistent s'.decode.vecUopGen := by
  cases op with
  | credits n =>
    obtain ⟨-, -, hstep⟩ := Run.bind_eq_ok.mp hstep
    obtain rfl := Except.ok.inj hstep
    exact H
  | appended insts =>
    obtain ⟨-, -, hstep⟩ := Run.bind_eq_ok.mp hstep
    obtain rfl := Except.ok.inj hstep
    exact H
  | vset i =>
    obtain ⟨-, -, hstep⟩ := Run.bind_eq_ok.mp hstep
    obtain rfl := Except.ok.inj hstep
    exact H
  | flush c =>
    obtain rfl := Except.ok.inj hstep
    exact H.handleFlush c
  | decode =>
    obtain ⟨-, -, hstep⟩ := Run.bind_eq_ok.mp hstep
    obtain ⟨⟨d, out⟩, hd, hstep⟩ := Run.bind_eq_ok.mp hstep
    obtain rfl := Except.ok.inj hstep
    exact (Decode.decodeInsts_emits H hsome (checked_eq_ok.mp hd)).1
  | nextCycle =>
    obtain ⟨-, -, hstep⟩ := Run.bind_eq_ok.mp hstep
    obtain rfl := Except.ok.inj hstep
    exact H

/-- A step that does not cut off the current instruction loses no uop and adds none. -/
theorem remaining_step (H : Consistent s.decode.vecUopGen) (hsome : s.TakesSome p op)
    (hcut : ∀ c, op = .flush c → s.cuts c = false) (hstep : s.step p op = .ok s') :
    remaining s.decode.vecUopGen ++ (s.obs p op).flatMap (·.taken.flatMap uopSerials) =
      (s.obs p op).flatMap (·.sent.map serial) ++ remaining s'.decode.vecUopGen := by
  cases op with
  | credits n =>
    obtain ⟨-, -, hstep⟩ := Run.bind_eq_ok.mp hstep
    obtain rfl := Except.ok.inj hstep
    simp [obs, Decode.receiveUopQueueCredits]
  | appended insts =>
    obtain ⟨-, -, hstep⟩ := Run.bind_eq_ok.mp hstep
    obtain rfl := Except.ok.inj hstep
    simp [obs, Decode.fetchBufferAppended]
  | vset i =>
    obtain ⟨-, -, hstep⟩ := Run.bind_eq_ok.mp hstep
    obtain rfl := Except.ok.inj hstep
    simp [obs, Decode.processVset]
  | flush c =>
    obtain rfl := Except.ok.inj hstep
    have hnot := hcut c rfl
    unfold cuts at hnot
    simp [obs, Decode.handleFlush, VectorUopGenerator.handleFlush, hnot]
  | decode =>
    obtain ⟨-, -, hstep⟩ := Run.bind_eq_ok.mp hstep
    obtain ⟨⟨d, out⟩, hd, hstep⟩ := Run.bind_eq_ok.mp hstep
    obtain rfl := Except.ok.inj hstep
    have hd := checked_eq_ok.mp hd
    obtain ⟨-, hrem, -⟩ := Decode.decodeInsts_emits H hsome hd
    simpa [obs, hd] using hrem
  | nextCycle =>
    obtain ⟨-, -, hstep⟩ := Run.bind_eq_ok.mp hstep
    obtain rfl := Except.ok.inj hstep
    simp [obs]

/-- What the generator does from the state `s` on: it is idle when nothing remains, a flush of its
instruction makes it idle, and a session leaves something only for want of places.  A session
whose instructions have uops does not find it busy with another one, and one whose instructions
can be split fails in the fusion passes only. -/
structure Splits (p : DecodeParams) (s : DecodeEvent) : Prop where
  idle : remaining s.decode.vecUopGen = [] → s.decode.vecUopGen.currentInst = none ∧
    s.decode.vecUopGen.numUopsToGenerate = 0 ∧ s.decode.vecUopGen.numUopsGenerated = 0
  flushed : ∀ c, s.cuts c = true →
    VectorUopGenerator.handleFlush s.decode.vecUopGen c = VectorUopGenerator.reset
  fills : ∀ d insts, s.TakesSome p .decode → Decode.decodeInsts p s.decode = .ok (d, some insts) →
    remaining d.vecUopGen ≠ [] →
    insts.length = Decode.numToDecode p s.decode ∨ d.waitingOnVset = true
  notBusy : s.TakesSome p .decode → Decode.decodeInsts p s.decode ≠ .error .uopGenBusy
  succeeds : (∀ i, s.decode.vecUopGen.currentInst = some i → Splittable i) →
    (∀ i ∈ Decode.taken p s.decode, Decode.usesUopGen i = true → Splittable i) →
    Run.FailsIn (· ∈ [Assertion.fusionWatchDog, .fusionOutOfRange])
      (Decode.decodeInsts p s.decode)

theorem splits (H : Consistent s.decode.vecUopGen) : s.Splits p := by
  refine ⟨fun hrem => ?_, fun c hc => if_pos hc, fun d insts hsome hd hne => ?_, fun hsome => ?_,
    fun hcur hsplit => ?_⟩
  · have hidle := H.idle_iff.mpr hrem
    exact ⟨hidle, s.decode.vecUopGen.idle_eq hidle⟩
  · have hoff : Decode.putsOff p s.decode = false := by
      cases hoff : Decode.putsOff p s.decode with
      | true =>
        unfold Decode.decodeInsts at hd
        rw [if_pos hoff] at hd
        cases hd
      | false => rfl
    exact (Decode.decodeInsts_emits H hsome hd).2.2 hne hoff
  · refine (Decode.decodeInsts_failsIn (E := (· ≠ .uopGenBusy)) (by decide) fun hoff => ?_).ne
      (not_not_intro rfl)
    refine Decode.decodeLoop_failsIn _ (s := { s.decode with latencyCount := 0 }) H ?_
    have htaken :
        ∀ i ∈ Decode.taken p s.decode, Decode.usesUopGen i = true → uopCount i ≠ 0 := hsome
    rw [Decode.taken_eq hoff] at htaken
    exact htaken
  · refine Decode.decodeInsts_failsIn (fun e he => he) fun hoff => ?_
    rw [Decode.taken_eq hoff] at hsplit
    obtain ⟨r, hr⟩ :
        ∃ r, Decode.decodeLoop p.mavis _ { s.decode with latencyCount := 0 } {} = .ok r :=
      Decode.decodeLoop_eq_ok _ H hcur hsplit
    exact .of_eq_ok hr

end DecodeEvent

/-- In a run whose split instructions all have a uop, and between two of its states without a
flush that takes the instruction the generator is at: what is sent is what remained to emit in the
first state and the uops of the instructions taken since, in order, up to what remains in the
second. -/
theorem uop_sequences_complete (p : DecodeParams) {ops₁ ops₂ : List DecodeOp}
    {t t' : DecodeEvent} {hist : List DecodeSession}
    (hsome : ∀ s op, Run.Takes (DecodeEvent.step p) {} (ops₁ ++ ops₂) s op → s.TakesSome p op)
    (hrun₁ : ops₁.foldlM (DecodeEvent.step p) {} = .ok t)
    (hrun₂ : ops₂.foldlM (Run.traced (DecodeEvent.step p) (DecodeEvent.obs p)) ([], t) =
      .ok (hist, t'))
    (hcut : ∀ s c, Run.Takes (DecodeEvent.step p) t ops₂ s (.flush c) → s.cuts c = false) :
    remaining t.decode.vecUopGen ++ hist.flatMap (·.taken.flatMap uopSerials) =
        hist.flatMap (·.sent.map serial) ++ remaining t'.decode.vecUopGen ∧
      t'.Splits p := by
  have hreset : Consistent ({} : DecodeEvent).decode.vecUopGen := consistent_reset
  have H₁ : Consistent t.decode.vecUopGen := by
    refine (Run.Visits.last hrun₁).invariant (I := fun s => Consistent s.decode.vecUopGen) hreset ?_
    rintro op s s' H ⟨l₁, l₂, hl, hl₁⟩ hstep
    exact DecodeEvent.consistent_step H (hsome s op ⟨l₁, l₂ ++ ops₂, by simp [hl], hl₁⟩) hstep
  -- what holds of each start of the second part
  have H₂ : Consistent t'.decode.vecUopGen ∧
      remaining t.decode.vecUopGen ++ hist.flatMap (·.taken.flatMap uopSerials) =
        hist.flatMap (·.sent.map serial) ++ remaining t'.decode.vecUopGen := by
    refine (Run.Visits.last hrun₂).invariant (I := fun hs =>
      Consistent hs.2.decode.vecUopGen ∧
        remaining t.decode.vecUopGen ++ hs.1.flatMap (·.taken.flatMap uopSerials) =
          hs.1.flatMap (·.sent.map serial) ++ remaining hs.2.decode.vecUopGen) ⟨H₁, by simp⟩ ?_
    rintro op hs hs' ⟨H, heq⟩ ⟨l₁, l₂, hl, hl₁⟩ hone
    obtain ⟨hstep, hhist⟩ := Run.traced_eq_ok.mp hone
    have hl₁ := Run.foldlM_of_traced hl₁
    have htakes : Run.Takes (DecodeEvent.step p) t ops₂ hs.2 op := ⟨l₁, l₂, hl, hl₁⟩
    have hone := hsome hs.2 op (.append hrun₁ htakes)
    have hrem := DecodeEvent.remaining_step H hone
      (fun c hop => hcut hs.2 c (by rw [← hop]; exact htakes)) hstep
    refine ⟨DecodeEvent.consistent_step H hone hstep, ?_⟩
    rw [hhist, List.flatMap_append, List.flatMap_append, ← List.append_assoc, heq,
      List.append_assoc, hrem, List.append_assoc]
  exact ⟨H₂.2, DecodeEvent.splits H₂.1⟩

/-- The first uop of a widening instruction has been sent. -/
def firstUopOps : List DecodeOp :=
  [.credits 1, .appended [wideningAdd, { uniqueId := 2 }], .decode, .nextCycle]

/-- A flush takes the instruction behind it, and the second uop is sent with the next one. -/
def secondUopOps : List DecodeOp :=
  [.flush ⟨.misprediction, false, 1⟩, .appended [{ uniqueId := 3 }], .credits 2, .decode]

theorem uop_sequences_complete_sample :
    ∃ t t' hist, firstUopOps.foldlM (DecodeEvent.step { mavis := plainMavis }) {} = .ok t ∧
      secondUopOps.foldlM (Run.traced (DecodeEvent.step { mavis := plainMavis })
        (DecodeEvent.obs { mavis := plainMavis })) ([], t) = .ok (hist, t') ∧
      hist.flatMap (·.sent.map serial) = [(1, 0, 1), (3, 0, 0)] ∧
      remaining t.decode.vecUopGen ++ hist.flatMap (·.taken.flatMap uopSerials) =
        hist.flatMap (·.sent.map serial) ++ remaining t'.decode.vecUopGen ∧
      t'.Splits { mavis := plainMavis } := by
  have hall : Run.along (DecodeEvent.step { mavis := plainMavis }) (fun s op =>
      decide (s.TakesSome { mavis := plainMavis } op) &&
        (match op with
          | .flush c => !s.cuts c
          | _ => true)) {} (firstUopOps ++ secondUopOps) = true := by
    decide +kernel
  have heval : (do
      let t ← firstUopOps.foldlM (DecodeEvent.step { mavis := plainMavis }) {}
      let r ← secondUopOps.foldlM (Run.traced (DecodeEvent.step { mavis := plainMavis })
        (DecodeEvent.obs { mavis := plainMavis })) ([], t)
      return r.1.flatMap (·.sent.map serial) : Except Stop _).toOption.map id =
        some [(1, 0, 1), (3, 0, 0)] := by
    decide +kernel
  obtain ⟨sent, heval, rfl⟩ := Run.ok_of_eval heval
  obtain ⟨t, hrun₁, heval⟩ := Run.bind_eq_ok.mp heval
  obtain ⟨⟨hist, t'⟩, hrun₂, heval⟩ := Run.bind_eq_ok.mp heval
  have hsome : ∀ s op, Run.Takes (DecodeEvent.step { mavis := plainMavis }) {}
      (firstUopOps ++ secondUopOps) s op → s.TakesSome { mavis := plainMavis } op := by
    intro s op htakes
    have htest := Run.Takes.of_along hall htakes
    exact of_decide_eq_true (Bool.and_eq_true_iff.mp htest).1
  have hcut : ∀ s c, Run.Takes (DecodeEvent.step { mavis := plainMavis }) t secondUopOps s
      (.flush c) → s.cuts c = false := by
    intro s c htakes
    have htest := Run.Takes.of_along hall (htakes.append hrun₁)
    simpa using (Bool.and_eq_true_iff.mp htest).2
  exact ⟨t, t', hist, hrun₁, hrun₂, Except.ok.inj heval,
    uop_sequences_complete _ hsome hrun₁ hrun₂ hcut⟩

/-- A load of two whole registers. -/
def wholeLoad : Inst where
  uniqueId := 1
  pipe := .vload
  isLoad := true
  isVector := true
  isVectorWholeRegister := true
  uopGen := .elementwise
  nf := 2

/-- The number of uops of a whole-register load is not that of the registers its elements fill. -/
theorem whole_register_load_uops :
    ¬∀ (ops : List DecodeOp) (hist : List DecodeSession) (s : DecodeEvent) (i : Inst),
      ops.foldlM (Run.traced (DecodeEvent.step { mavis := plainMavis })
        (DecodeEvent.obs { mavis := plainMavis })) ([], {}) = .ok (hist, s) →
      hist.flatMap (·.taken) = [i] → Decode.usesUopGen i = true → isWide i.uopGen = false →
      i.mavisUid ∉ [MavisUid.vmv1r, .vmv2r, .vmv4r, .vmv8r] →
      i.vectorConfig.vl ≤ i.vectorConfig.vlmax → s.decode.vecUopGen.currentInst = none →
      (hist.flatMap (·.sent)).length =
        max 1 (i.vectorConfig.vl ⌈/⌉ (VectorConfig.vlen / i.vectorConfig.sew)) := by
  intro hall
  have heval : ([.credits 4, .appended [wholeLoad], .decode].foldlM
      (Run.traced (DecodeEvent.step { mavis := plainMavis })
        (DecodeEvent.obs { mavis := plainMavis })) ([], {})).toOption.map (fun hs =>
      ((hs.1.flatMap (·.taken)).map fun i =>
        (Decode.usesUopGen i, i.uopGen, i.mavisUid, i.vectorConfig),
       hs.2.decode.vecUopGen.currentInst.isNone, (hs.1.flatMap (·.sent)).length)) =
      some ([(true, .elementwise, .other 0, { vl := 128 })], true, 2) := by
    decide +kernel
  obtain ⟨⟨hist, s⟩, hrun, hval⟩ := Run.ok_of_eval heval
  obtain ⟨htaken, hval⟩ := Prod.mk.inj hval
  obtain ⟨hidle, hlen⟩ := Prod.mk.inj hval
  obtain ⟨i, htaken', hi⟩ := List.map_eq_singleton_iff.mp htaken
  obtain ⟨huses, hval⟩ := Prod.mk.inj hi
  obtain ⟨htype, hval⟩ := Prod.mk.inj hval
  obtain ⟨hmavis, hconfig⟩ := Prod.mk.inj hval
  have hcount := hall _ hist s i hrun htaken' huses (by rw [htype]; rfl) (by rw [hmavis]; decide)
    (by rw [hconfig]; decide) (by simpa using hidle)
  rw [hlen, hconfig] at hcount
  exact absurd hcount (by decide)

end Olympia
