import Olympia.InStepFlow
import Olympia.ProgramIds

/-!
# The program from Decode to the ROB

If the program identifiers of what Decode has and of what is on its way from there to the ROB go up
by one from `expected_program_id_`, they do so after each step, so the comparison of
`retireInstructions_` never fails: `InStep.Sequence` and `DecodeCore.Sequence`.  A flush empties all
units, and the ROB expects what comes after the instruction that it names.
-/

namespace Olympia

/-! ## Rename, Dispatch and the ROB -/

namespace InStep

/-- The instructions that Rename has been sent and that have not retired, oldest first. -/
def upcoming (s : InStep) : List Inst :=
  s.unretired.map RenamedInst.inst ++ s.rename.uopQueue

/-- What the ROB relies on.  `more` is what follows at Decode. -/
structure Sequence (K : ℕ → ℕ → Prop) (s : InStep) (more : List ℕ) : Prop where
  counts : ∀ u ∈ s.upcoming, u.Counts K
  ids : Consecutive s.rob.expectedProgramID (firstIds s.upcoming ++ more)
  flush : ∀ c, s.pendingFlush = some c →
    c.isInclusive = false ∧ ∃ n, K c.uniqueId n ∧ n + 1 = s.rob.expectedProgramID

variable {K : ℕ → ℕ → Prop} {p : RenameParams} {x0 : ℕ} {pd : DispatchParams} {pr : RobParams}
variable {s s' : InStep} {op : InStepOp} {more : List ℕ}

namespace Sequence

theorem mono {K' : ℕ → ℕ → Prop} (hK : ∀ u n, K u n → K' u n) (H : Sequence K s more) :
    Sequence K' s more where
  counts u hu := (H.counts u hu).mono hK
  ids := H.ids
  flush c hc := by
    obtain ⟨hexcl, n, hn, hnext⟩ := H.flush c hc
    exact ⟨hexcl, n, hK _ _ hn, hnext⟩

theorem countsOne (H : Sequence K s more) : Rob.CountsOne s.rob := by
  intro ri hri
  apply (H.counts ri.inst _).increment
  simp only [upcoming, unretired, List.map_append, List.mem_append, List.append_assoc]
  exact .inl (List.mem_map_of_mem hri)

theorem hasExpected (H : Sequence K s more) : Rob.HasExpected s.rob := by
  have hids := H.ids
  simp only [upcoming, unretired, List.map_append, firstIds_append, List.append_assoc] at hids
  exact (Consecutive.append.mp hids).1

/-- A step that changes neither what is on its way to the ROB nor what the ROB expects. -/
theorem of_same (H : Sequence K s more) (hup : s'.upcoming = s.upcoming)
    (hrob : s'.rob.expectedProgramID = s.rob.expectedProgramID)
    (hflush : s'.pendingFlush = s.pendingFlush) : Sequence K s' more := by
  constructor
  · rw [hup]
    exact H.counts
  · rw [hup, hrob]
    exact H.ids
  · rw [hflush, hrob]
    exact H.flush

/-- A group arrives from Decode. -/
theorem decoded {insts : List Inst} (H : Sequence K s (firstIds insts ++ more))
    (hinsts : ∀ u ∈ insts, u.Counts K) (hstep : s.step p pd pr (.decoded insts) = .ok s') :
    Sequence K s' more ∧ s'.rob.expectedProgramID = s.rob.expectedProgramID ∧
      s'.lastDecoded = insts.getLast?.or s.lastDecoded := by
  cases step_stepped hstep
  have hup : ∀ T last, upcoming { s with
      rename := updateRegcountData p { s.rename with uopQueue := s.rename.uopQueue ++ insts }
      table := T
      lastDecoded := last } = s.upcoming ++ insts := by
    intro T last
    simp [upcoming, unretired, updateRegcountData]
  refine ⟨⟨?_, ?_, H.flush⟩, rfl, rfl⟩
  · rw [hup]
    intro u hu
    rcases List.mem_append.mp hu with hu | hu
    · exact H.counts u hu
    · exact hinsts u hu
  · rw [hup, firstIds_append, List.append_assoc]
    exact H.ids

/-- A flush leaves everything as it is, or nothing is on its way to the ROB any more and the trace
goes on behind the instruction that has retired last. -/
theorem flush_step (O : Ordered p x0 s) (H : Sequence K s more)
    (hstep : s.step p pd pr .flush = .ok s') :
    s'.rob.expectedProgramID = s.rob.expectedProgramID ∧
      match FlushManager.forwardUpper s.pendingFlush with
      | none => Sequence K s' more
      | some c => s'.upcoming = [] ∧ s'.pendingFlush = none ∧ c.isInclusive = false ∧
        ∃ n, K c.uniqueId n ∧ n + 1 = s'.rob.expectedProgramID := by
  obtain ⟨-, hun⟩ := O.flush_unretired hstep
  obtain ⟨-, -, hcase⟩ := O.flush_spec hstep
  cases step_stepped hstep with
  | noFlush _ _ hforward =>
    rw [hforward]
    exact ⟨rfl, H.counts, H.ids, fun c hc => by cases hc⟩
  | @flush c _ _ _ _ _ _ hforward _ hrob =>
    rw [hforward] at hun hcase ⊢
    have hpend : s.pendingFlush = some c := (Option.filter_eq_some_iff.mp hforward).1
    obtain ⟨-, -, hrob⟩ := Run.bind_eq_ok.mp hrob
    obtain ⟨rfl, -⟩ := Prod.mk.inj (Except.ok.inj hrob)
    refine ⟨rfl, ?_, rfl, H.flush c hpend⟩
    rw [upcoming, hun.1]
    rfl

end Sequence

/-- What Rename has been sent goes on, except for what retires now. -/
theorem FlowSpec.upcoming (F : FrontSpec p pd pr s s' op) (L : FlowSpec p pd pr s s' op) :
    ∃ insts, (insts = [] ∨ op = .decoded insts) ∧
      s.upcoming ++ insts = (s.retires pr op).map RenamedInst.inst ++ s'.upcoming := by
  obtain ⟨rest, insts, huop, huop', hinsts, -⟩ := F.uops
  refine ⟨insts, hinsts, ?_⟩
  calc s.unretired.map RenamedInst.inst ++ s.rename.uopQueue ++ insts
      = (s.unretired ++ s.renames p op).map RenamedInst.inst ++ (rest ++ insts) := by
        rw [huop]
        simp
    _ = (s.retires pr op).map RenamedInst.inst ++ s'.upcoming := by
        rw [L.unretired F, InStep.upcoming, huop']
        simp

/-- What the ROB counts in a step. -/
structure Counted (s s' : InStep) (new : List RenamedInst) : Prop where
  ids : Consecutive s.rob.expectedProgramID (firstIds (new.map RenamedInst.inst))
  expected : s'.rob.expectedProgramID =
    s.rob.expectedProgramID + (firstIds (new.map RenamedInst.inst)).length

theorem Counted.of_same (h : s'.rob.expectedProgramID = s.rob.expectedProgramID) :
    Counted s s' [] := ⟨.nil _, h⟩

namespace Sequence

/-- What retires is known. -/
theorem known (H : Sequence K s more) (hstep : s.step p pd pr op = .ok s') :
    ∀ ri ∈ s.retires pr op, K ri.inst.uniqueId ri.inst.programId := by
  intro ri hri
  cases step_stepped hstep with
  | @retire r T out _ hr =>
    have hretires : s.retires pr .retire = out.retired := by simp only [retires, hr]
    rw [hretires] at hri
    apply (H.counts ri.inst _).known
    refine List.mem_append_left _ (List.mem_map_of_mem ?_)
    rw [unretired, (Rob.retireInstructions_expected H.countsOne hr).buffer]
    simp [hri]
  | _ => cases hri

/-- A group retires: the ROB expects the next identifier, and the flush it may ask for names the
instruction that has retired last. -/
theorem retire (O : Ordered p x0 s) (H : Sequence K s more)
    (hstep : s.step p pd pr .retire = .ok s') :
    Sequence K s' more ∧ Counted s s' (s.retires pr .retire) ∧ s'.lastDecoded = s.lastDecoded := by
  obtain ⟨insts, hinsts, hup⟩ := FlowSpec.upcoming (O.frontSpec rfl hstep) (O.flowSpec rfl hstep)
  obtain rfl : insts = [] := hinsts.resolve_right fun h => by cases h
  rw [List.append_nil] at hup
  cases step_stepped hstep with
  | @retire r T out _ hr =>
    have hretires : s.retires pr .retire = out.retired := by simp only [retires, hr]
    have E := Rob.retireInstructions_expected H.countsOne hr
    rw [hretires] at hup ⊢
    have hids := H.ids
    rw [hup, firstIds_append, List.append_assoc, Consecutive.append, ← E.expected] at hids
    refine ⟨⟨fun u hu => ?_, hids.2, fun c hc => ?_⟩, ⟨E.ids, E.expected⟩, rfl⟩
    · apply H.counts
      rw [hup]
      exact List.mem_append_right _ hu
    · obtain ⟨R, hidle⟩ := Rob.retireInstructions_spec hr
      have hcov := O.covers
      unfold FlushCovers at hcov
      rcases hpend : s.pendingFlush with _ | c₀
      · rw [hpend] at hcov
        rcases R.flush with ⟨-, hfl⟩ | ⟨front, ri, cause, c', hnew, hcause, hmake, -, hfl⟩
        · have hnone : out.flush = none := hfl
          simp only [hpend, hnone] at hc
          cases hc
        · have hri : ri ∈ s.rename.instQueue := by
            rw [O.queue]
            simp [unretired, R.buffer, hnew]
          obtain ⟨hexcl, hid, -⟩ := O.criteria_of_flushCause hri hcause hmake
          have hcounts : ri.inst.Counts K := by
            apply H.counts
            rw [hup, hnew]
            simp
          have hfirst := hcounts.flush (O.canFlush_of_flushCause hri hcause).1
          obtain rfl : c = c' := by
            simp only [hfl, FlushManager.receiveFlush, hpend] at hc
            exact (Option.some.inj hc).symm
          refine ⟨hexcl, ri.inst.programId, by rw [hid]; exact hcounts.known, ?_⟩
          -- the last identifier of the group is the one before what the ROB expects next
          have hlast := E.ids
          have hexp := E.expected
          rw [hnew, List.map_append, firstIds_append, List.map_singleton, firstIds_cons,
            if_pos hfirst] at hlast hexp
          have hri' := (Consecutive.cons.mp (Consecutive.append.mp hlast).2).1
          simp only [List.length_append, List.length_singleton, firstIds_nil,
            List.append_nil] at hexp
          show ri.inst.programId + 1 = r.expectedProgramID
          omega
      · rw [hpend] at hcov
        obtain ⟨rfl, -, rfl⟩ := hidle hcov.1
        exact H.flush c hc

/-- The steps of the front end. -/
theorem front (O : Ordered p x0 s) (H : Sequence K s more) (hop : op.isFront = true)
    (hdecoded : ∀ insts, op ≠ .decoded insts) (hstep : s.step p pd pr op = .ok s') :
    Sequence K s' more ∧ Counted s s' (s.retires pr op) ∧ s'.lastDecoded = s.lastDecoded := by
  by_cases hretire : op = .retire
  · subst hretire
    exact H.retire O hstep
  · have S := still_of_front hop hretire hstep
    obtain ⟨insts, hinsts, hup⟩ := FlowSpec.upcoming (O.frontSpec hop hstep) (O.flowSpec hop hstep)
    obtain rfl : insts = [] := hinsts.resolve_right fun h => hdecoded insts h
    rw [S.retires] at hup ⊢
    rw [List.append_nil] at hup
    exact ⟨H.of_same hup.symm S.expected S.pendingFlush, .of_same S.expected,
      S.lastDecoded hdecoded⟩

end Sequence

end InStep

/-! ## The core -/

namespace Core

variable {p : RenameParams} {pd : DispatchParams} {pr : RobParams} {pu : UnitsParams}
variable {c c' : Core} {op : CoreOp}

/-- A step of the units does not touch what is on its way to the ROB. -/
theorem upcoming_kept (hfront : ∀ op', op ≠ .front op') (hflush : op ≠ .flush)
    (hstep : c.step p pd pr pu op = .ok c') :
    c'.front.upcoming = c.front.upcoming ∧
      c'.front.rob.expectedProgramID = c.front.rob.expectedProgramID := by
  cases step_stepped hstep with
  | @front op => exact absurd rfl (hfront op)
  | flush => exact absurd rfl hflush
  | _ => exact ⟨rfl, rfl⟩

end Core

namespace DecodeCore

/-- The instructions that a step retires. -/
def retires (pr : RobParams) (s : DecodeCore) : DecodeCoreOp → List RenamedInst
  | .core op => s.core.retires pr op
  | _ => []

/-- The last uop that Decode has sent. -/
def lastSent (s : DecodeCore) : Option Inst := s.toRename.getLast?.or s.core.front.lastDecoded

/-- The program from the ROB to Decode.  `more` are the program identifiers of what follows at
Fetch. -/
structure Sequence (K : ℕ → ℕ → Prop) (s : DecodeCore) (more : List ℕ) : Prop where
  decode : Decode.Known K s.decode
  toRename : ∀ u ∈ s.toRename, u.Counts K
  order : inProgramOrder s.core.front.lastDecoded s.toRename = true
  ahead : Decode.Ahead s.lastSent s.lastFetched s.decode
  core : s.core.front.Sequence K
    (firstIds s.toRename ++ (s.decode.fetchQueue.map Inst.programId ++ more))

variable {K : ℕ → ℕ → Prop} {q : DecodeParams} {p : RenameParams} {x0 : ℕ} {pd : DispatchParams}
variable {pr : RobParams} {pu : UnitsParams} {hist : List DecodeCoreEvent} {s s' : DecodeCore}
variable {more more' : List ℕ}

namespace Sequence

theorem mono {K' : ℕ → ℕ → Prop} (hK : ∀ u n, K u n → K' u n) (H : Sequence K s more) :
    Sequence K' s more where
  decode := H.decode.mono hK
  toRename u hu := (H.toRename u hu).mono hK
  order := H.order
  ahead := H.ahead
  core := H.core.mono hK

/-- Fetch may get more of the program. -/
theorem extend {k : ℕ} (H : Sequence K s (more ++ [k])) (h : Consecutive k more') :
    Sequence K s (more ++ more') := by
  refine ⟨H.decode, H.toRename, H.order, H.ahead, H.core.counts, ?_, H.core.flush⟩
  have hids := H.core.ids
  simp only [← List.append_assoc] at hids ⊢
  exact hids.extend h

/-- The steps of Decode that change neither its queue nor its generator. -/
theorem of_decode {d : DecodeState} (H : Sequence K s more)
    (hqueue : d.fetchQueue = s.decode.fetchQueue) (hgen : d.vecUopGen = s.decode.vecUopGen) :
    Sequence K { s with decode := d } more := by
  refine ⟨⟨?_, ?_⟩, H.toRename, H.order, ⟨?_, ?_, ?_⟩, ?_⟩
  · rw [hqueue]
    exact H.decode.queue
  · rw [hgen]
    exact H.decode.gen
  · rw [hqueue]
    exact H.ahead.increasing
  · rw [hqueue]
    exact H.ahead.future
  · rw [hgen]
    exact H.ahead.gen
  · dsimp only
    rw [hqueue]
    exact H.core

theorem appended {insts : List Inst} (H : Sequence K s (insts.map Inst.programId ++ more))
    (hinsts : ∀ i ∈ insts, Decode.Whole K i)
    (hstep : s.step q p pd pr pu (.appended insts) = .ok s') : Sequence K s' more := by
  cases step_stepped hstep with
  | appended horder _ =>
    obtain ⟨hpair, hfollow, hlast⟩ := inProgramOrder_spec horder
    -- an instruction that is no uop comes after all identifiers before it
    have hlt : ∀ i j : Inst, i.before j = true → j.uopId = 0 → i.uniqueId < j.uniqueId := by
      intro i j hij hj
      rcases Inst.before_iff.mp hij with h | ⟨-, h, -⟩
      · exact h
      · omega
    have hids : ∀ d : DecodeState, d.fetchQueue = s.decode.fetchQueue ++ insts →
        (s.lastSent.toList ++ d.fetchQueue).map Inst.uniqueId =
          (s.lastSent.toList ++ s.decode.fetchQueue).map Inst.uniqueId ++
            insts.map Inst.uniqueId := by
      intro d hd
      rw [hd]
      simp
    refine ⟨⟨fun i hi => ?_, H.decode.gen⟩, H.toRename, H.order, ⟨?_, fun j hj hj0 => ?_,
      H.ahead.gen⟩, ?_⟩
    · rcases List.mem_append.mp hi with hi | hi
      · exact H.decode.queue i hi
      · exact hinsts i hi
    · refine (congrArg _ (hids _ rfl)).mpr (List.pairwise_append.mpr ⟨H.ahead.increasing, ?_, ?_⟩)
      · exact List.pairwise_map.mpr
          (hpair.imp_of_mem fun hi hj hij => hlt _ _ hij (hinsts _ hj).uopId)
      · intro a ha b hb
        obtain ⟨j, hj, rfl⟩ := List.mem_map.mp hb
        exact H.ahead.future j (hfollow j hj) (hinsts j hj).uopId a ha
    · obtain ⟨hbefore, hold⟩ := hlast j hj
      intro a ha
      rcases List.mem_append.mp ((congrArg (a ∈ ·) (hids _ rfl)).mp ha) with ha | ha
      · exact H.ahead.future j hold hj0 a ha
      · obtain ⟨i, hi, rfl⟩ := List.mem_map.mp ha
        exact hlt i j (hbefore i hi) hj0
    · have hcore := H.core
      rw [← List.append_assoc (s.decode.fetchQueue.map _), ← List.map_append] at hcore
      exact hcore

theorem decodes (hm : q.mavis.MakesUops) (H : Sequence K s more)
    (hstep : s.step q p pd pr pu .decode = .ok s') : Sequence K s' more := by
  cases step_stepped hstep with
  | decode _ hd =>
    have S := Decode.decodeInsts_sends hm H.decode H.ahead hd
    refine ⟨S.known, fun u hu => ?_, ?_, ?_, ?_⟩
    · rcases List.mem_append.mp hu with hu | hu
      · exact H.toRename u hu
      · exact S.counts u hu
    · rw [inProgramOrder_append, H.order, Bool.true_and]
      exact S.order
    · have hahead := S.ahead
      rw [lastSent, ← Option.or_assoc, ← List.getLast?_append] at hahead
      exact hahead
    · have hcore := H.core
      rw [← S.ids] at hcore
      simpa only [firstIds_append, List.append_assoc] using hcore

theorem deliverUops (H : Sequence K s more)
    (hstep : s.step q p pd pr pu .deliverUops = .ok s') :
    Sequence K s' more ∧ s'.core.front.rob.expectedProgramID =
      s.core.front.rob.expectedProgramID := by
  cases step_stepped hstep with
  | deliverUops hcore =>
    cases Core.step_stepped hcore with
    | @front _ front _ hfront =>
      obtain ⟨S, hexp, hlast⟩ := H.core.decoded H.toRename hfront
      refine ⟨⟨H.decode, fun u hu => (by cases hu), rfl, ?_, S⟩, hexp⟩
      rw [show DecodeCore.lastSent _ = front.lastDecoded from rfl, hlast]
      exact H.ahead

theorem core_step {op : CoreOp} (I : CoreInv p x0 pd hist s) (H : Sequence K s more)
    (hstep : s.step q p pd pr pu (.core op) = .ok s') :
    Sequence K s' more ∧ s.core.front.Counted s'.core.front (s.core.retires pr op) := by
  cases step_stepped hstep with
  | @core _ core hinner hcore =>
    suffices hboth : InStep.Sequence K core.front
        (firstIds s.toRename ++ (s.decode.fetchQueue.map Inst.programId ++ more)) ∧
        s.core.front.Counted core.front (s.core.retires pr op) ∧
        core.front.lastDecoded = s.core.front.lastDecoded by
      obtain ⟨S, C, hlast⟩ := hboth
      refine ⟨⟨H.decode, H.toRename, ?_, ?_, S⟩, C⟩
      · rw [hlast]
        exact H.order
      · rw [show DecodeCore.lastSent _ = s.toRename.getLast?.or core.front.lastDecoded from rfl,
          hlast]
        exact H.ahead
    have hkept : (∀ op', op ≠ .front op') → op ≠ .flush → s.core.retires pr op = [] →
        InStep.Sequence K core.front
          (firstIds s.toRename ++ (s.decode.fetchQueue.map Inst.programId ++ more)) ∧
          s.core.front.Counted core.front (s.core.retires pr op) ∧
          core.front.lastDecoded = s.core.front.lastDecoded := by
      intro hfront hflush hretires
      obtain ⟨hup, hexp⟩ := Core.upcoming_kept hfront hflush hcore
      have F := Core.frontKept_step hfront hflush hcore
      rw [hretires]
      exact ⟨H.core.of_same hup hexp F.pendingFlush, .of_same hexp, F.lastDecoded⟩
    cases Core.step_stepped hcore with
    | front hop hfront =>
      refine H.core.front I.core.ordered hop ?_ hfront
      rintro insts rfl
      cases hinner
    | flush => cases hinner
    | _ => exact hkept (by simp) (by simp) rfl

theorem known {op : DecodeCoreOp} (H : Sequence K s more)
    (hstep : s.step q p pd pr pu op = .ok s') :
    ∀ ri ∈ s.retires pr op, K ri.inst.uniqueId ri.inst.programId := by
  intro ri hri
  cases step_stepped hstep with
  | core _ hcore =>
    cases Core.step_stepped hcore with
    | front _ hfront => exact H.core.known hfront ri hri
    | _ => cases hri
  | _ => cases hri

/-- The steps that Fetch takes no part in. -/
theorem step {op : DecodeCoreOp} (hm : q.mavis.MakesUops) (I : CoreInv p x0 pd hist s)
    (H : Sequence K s more) (hop : ∀ insts, op ≠ .appended insts) (hflush : op ≠ .flush)
    (hstep : s.step q p pd pr pu op = .ok s') :
    Sequence K s' more ∧ s.core.front.Counted s'.core.front (s.retires pr op) := by
  cases step_stepped hstep with
  | @appended insts => exact absurd rfl (hop insts)
  | flush => exact absurd rfl hflush
  | core => exact H.core_step I hstep
  | credits => exact ⟨H.of_decode rfl rfl, .of_same rfl⟩
  | decode => exact ⟨H.decodes hm hstep, .of_same rfl⟩
  | deliverUops =>
    obtain ⟨H', hexp⟩ := H.deliverUops hstep
    exact ⟨H', .of_same hexp⟩
  | @deliverVset v rest =>
    have H' : Sequence K { s with decode := Decode.processVset s.decode v } more :=
      H.of_decode rfl rfl
    exact ⟨⟨H'.decode, H'.toRename, H'.order, H'.ahead, H'.core⟩, .of_same rfl⟩

/-- After a flush the trace goes on behind the instruction that has retired last. -/
theorem flush (I : CoreInv p x0 pd hist s) (H : Sequence K s more)
    (hstep : s.step q p pd pr pu .flush = .ok s') :
    s.core.front.Counted s'.core.front [] ∧
      match FlushManager.forwardUpper s.core.front.pendingFlush with
      | none => Sequence K s' more
      | some c => c.isInclusive = false ∧
        ∃ n, K c.uniqueId n ∧ ∀ more', Consecutive (n + 1) more' → Sequence K s' more' := by
  cases step_stepped hstep with
  | flush hempty _ hcore =>
    cases Core.step_stepped hcore with
    | @flush front _ _ hfront =>
      obtain ⟨hexp, hcase⟩ := H.core.flush_step I.core.ordered hfront
      obtain ⟨hlast, -⟩ := I.core.ordered.flush_spec hfront
      have hsent : s.toRename.getLast?.or front.lastDecoded = s.lastSent := by
        rw [hlast]
        rfl
      refine ⟨.of_same hexp, ?_⟩
      rcases hforward : FlushManager.forwardUpper s.core.front.pendingFlush with _ | c
      · rw [hforward] at hcase
        refine ⟨H.decode, H.toRename, ?_, ?_, hcase⟩
        · rw [hlast]
          exact H.order
        · rw [show DecodeCore.lastSent _ = s.toRename.getLast?.or front.lastDecoded from rfl, hsent]
          exact H.ahead
      · rw [hforward] at hcase
        obtain ⟨hup, hpend, hexcl, n, hn, hnext⟩ := hcase
        have hgen : (Decode.handleFlush s.decode c).1.vecUopGen = VectorUopGenerator.reset ∨
            (Decode.handleFlush s.decode c).1.vecUopGen = s.decode.vecUopGen := by
          dsimp only [Decode.handleFlush, VectorUopGenerator.handleFlush]
          split
          · exact .inl rfl
          · exact .inr rfl
        have hsub : ((s.lastSent.toList ++ []).map Inst.uniqueId).Sublist
            ((s.lastSent.toList ++ s.decode.fetchQueue).map Inst.uniqueId) :=
          ((List.nil_sublist _).append_left _).map _
        refine ⟨hexcl, n, hn, fun more' hmore => ⟨⟨fun i hi => (by cases hi), ?_⟩, H.toRename,
          ?_, ?_, ?_⟩⟩
        · rcases hgen with hgen | hgen
          · exact hgen ▸ .reset K
          · exact hgen ▸ H.decode.gen
        · rw [hempty]
          rfl
        · rw [show DecodeCore.lastSent _ = s.toRename.getLast?.or front.lastDecoded from rfl, hsent]
          refine ⟨H.ahead.increasing.sublist hsub,
            fun j hj hj0 u hu => H.ahead.future j hj hj0 u (hsub.subset hu), fun hpos => ?_⟩
          rcases hgen with hgen | hgen
          · rw [hgen] at hpos
            cases hpos
          · rw [hgen] at hpos ⊢
            exact H.ahead.gen hpos
        · refine ⟨fun v hv => ?_, ?_, fun c' hc' => ?_⟩
          · rw [hup] at hv
            cases hv
          · rw [hup, hempty, ← hnext]
            exact hmore
          · rw [hpend] at hc'
            cases hc'

end Sequence

end DecodeCore

end Olympia
