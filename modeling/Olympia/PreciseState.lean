import Olympia.ProgramValues

/-!
# What retires has executed, and leaves a precise state

An instruction moves on only from places before the end of its execution, so it executes at most
once (`Core.executions`), and it is completed only when it has executed its final pass or has been
issued by the LSU.  The ROB retires what is completed.  So everything that has retired has
executed, and the registers that the retired instructions have mapped hold the values of the
retired program, whatever is in flight and whatever has been flushed.
-/

namespace Olympia

namespace Core

/-- A unit may have completed the instruction. -/
def Done (hist : List Move) (k : InstKey) : Prop := (placeAfter hist k).any Place.done = true

/-- How often the instruction has executed its final pass. -/
def executions (hist : List Move) (k : InstKey) : ℕ :=
  hist.countP fun m => decide (m.key = k) && decide (m.place = .executed)

/-- What a step may do to the places of instructions. -/
structure PlaceSpec (hist moves : List Move) : Prop where
  nodup : (moves.map Move.key).Nodup
  unexecuted : ∀ m ∈ moves, placeAfter hist m.key ≠ some .executed
  undone : ∀ m ∈ moves, m.place.done = false →
    ∀ pl, placeAfter hist m.key = some pl → pl.done = false

/-- Whatever has happened, executions are counted where they have ended, and what is completed or
has retired has been in a place where its unit may complete it. -/
structure Executes (pd : DispatchParams) (retired : List RenamedInst) (hist : List Move)
    (c : Core) : Prop where
  executions : ∀ k, executions hist k = if placeAfter hist k = some .executed then 1 else 0
  lsu : ∀ m ∈ hist, m.place = .lsuIssued → .lsu ∈ pd.dispatchers m.inst.inst.pipe
  completed : ∀ k, c.front.table.status k = .completed ∨ c.front.table.status k = .retired →
    Done hist k
  retired : ∀ ri ∈ retired, ⟨ri, .renamed⟩ ∈ hist ∧ Done hist ri.key

section Places

variable {p : RenameParams} {x0 : ℕ} {pd : DispatchParams} {pr : RobParams} {pu : UnitsParams}
variable {C : Inst → Prop} {hist moves : List Move} {c c' : Core} {k : InstKey}

theorem PlaceSpec.nil (hist : List Move) : PlaceSpec hist [] :=
  ⟨by simp, by simp, by simp⟩

/-- What may be completed stays so. -/
theorem PlaceSpec.done (P : PlaceSpec hist moves) (h : Done hist k) : Done (hist ++ moves) k := by
  have hmoved := moved_placeAfter hist P.nodup
  obtain ⟨pl, hpl, hdone⟩ := (Option.any_eq_true _ _).mp h
  unfold Done
  by_cases hmove : ∃ m ∈ moves, m.key = k
  · obtain ⟨m, hm, rfl⟩ := hmove
    rw [hmoved.moved m hm, Option.any_some]
    by_contra hnot
    rw [P.undone m hm (by simpa using hnot) pl hpl] at hdone
    cases hdone
  · rw [hmoved.stays k fun m hm heq => hmove ⟨m, hm, heq⟩]
    exact h

theorem PlaceSpec.executions (P : PlaceSpec hist moves)
    (h : Core.executions hist k = if placeAfter hist k = some .executed then 1 else 0) :
    Core.executions (hist ++ moves) k =
      if placeAfter (hist ++ moves) k = some .executed then 1 else 0 := by
  have hmoved := moved_placeAfter hist P.nodup
  have hzero : ∀ l : List Move, (∀ m ∈ l, m.key ≠ k) → Core.executions l k = 0 := by
    intro l hl
    refine List.countP_eq_zero.mpr fun m hm => ?_
    simp [hl m hm]
  have happend : ∀ l l' : List Move,
      Core.executions (l ++ l') k = Core.executions l k + Core.executions l' k := fun l l' =>
    List.countP_append
  rw [happend]
  by_cases hmove : ∃ m ∈ moves, m.key = k
  · obtain ⟨m, hm, rfl⟩ := hmove
    -- before the only move of the instruction it had not executed
    rw [h, if_neg (P.unexecuted m hm), hmoved.moved m hm, Nat.zero_add]
    obtain ⟨before, after, rfl⟩ := List.append_of_mem hm
    have hnodup := P.nodup
    rw [List.map_append, List.map_cons, List.nodup_append, List.nodup_cons] at hnodup
    obtain ⟨-, ⟨hafter, -⟩, hbefore⟩ := hnodup
    rw [happend, ← List.singleton_append, happend,
      hzero before fun m' hm' => hbefore _ (List.mem_map_of_mem hm') _ List.mem_cons_self,
      hzero after fun m' hm' heq => hafter (List.mem_map.mpr ⟨m', hm', heq⟩)]
    simp [Core.executions, List.countP_cons]
  · have hne : ∀ m ∈ moves, m.key ≠ k := fun m hm heq => hmove ⟨m, hm, heq⟩
    rw [hzero moves hne, Nat.add_zero, hmoved.stays k hne, h]

/-- Every step moves instructions so. -/
theorem placeSpec {op : CoreOp} (I : Inv p x0 pd C hist c)
    (hstep : c.step p pd pr pu op = .ok c') : PlaceSpec hist (c.moves p pd pu op) := by
  cases step_stepped hstep with
  | @front op _ hop hs' =>
    obtain ⟨hnodup, hfrom⟩ := I.front_moves pu (I.ordered.frontSpec hop hs')
    refine ⟨hnodup, fun m hm hexe => ?_, fun m hm _ pl hpl => ?_⟩
    · rcases hfrom m hm with h | h <;> cases h.symm.trans hexe
    · rcases hfrom m hm with h | h
      · cases h.symm.trans hpl
      · obtain rfl := Option.some.inj (h.symm.trans hpl)
        rfl
  | flush => exact .nil hist
  | @deliverUnit i d ri _ _ _ hi _ =>
    have hmoves : c.moves p pd pu (.deliverUnit i) = [⟨ri, .waiting d⟩] := by simp [moves, hi]
    rw [hmoves]
    have hsent := (I.toUnit (d, ri) (List.mem_of_getElem? hi)).2.1
    refine ⟨by simp, fun m hm hexe => ?_, fun m hm _ pl hpl => ?_⟩
    · rw [List.mem_singleton.mp hm] at hexe
      cases hsent.symm.trans hexe
    · rw [List.mem_singleton.mp hm] at hpl
      obtain rfl := Option.some.inj (hsent.symm.trans hpl)
      rfl
  | deliverStoreAck => exact .nil hist
  | @units op out hout =>
    have D := I.units.step I.view_unique hout
    have hmoves : c.moves p pd pu (.units op) = out.moves := by simp only [moves, hout]
    rw [hmoves]
    exact ⟨D.nodup, D.unexecuted, D.undone⟩

/-- What retires is in the queue of Rename, and completed. -/
theorem retires_spec {op : CoreOp} {ri : RenamedInst} (I : Inv p x0 pd C hist c)
    (hstep : c.step p pd pr pu op = .ok c') (hri : ri ∈ c.retires pr op) :
    ri ∈ c.front.rename.instQueue ∧ c.front.table.status ri.key = .completed := by
  cases step_stepped hstep with
  | @front op s' hop hs' =>
    cases InStep.step_stepped hs' with
    | @retire rob T out _ hret =>
      have hretires : c.retires pr (.front .retire) = out.retired := by
        simp only [retires, InStep.retires, hret]
      rw [hretires] at hri
      obtain ⟨R, -⟩ := Rob.retireInstructions_spec hret
      refine ⟨?_, R.completed ri hri⟩
      rw [I.ordered.queue]
      simp [InStep.unretired, R.buffer, hri]
    | _ => cases hri
  | _ => cases hri

end Places

namespace Executes

variable {p : RenameParams} {x0 : ℕ} {pd : DispatchParams} {pr : RobParams} {pu : UnitsParams}
variable {C : Inst → Prop} {retired : List RenamedInst} {hist : List Move} {c c' : Core}

theorem init (p : RenameParams) (x0 : ℕ) (pd : DispatchParams) :
    Executes pd [] [] (Core.init p x0) where
  executions _ := rfl
  lsu := by simp
  completed _ h := by rcases h with h | h <;> cases h
  retired := by simp

/-- A step of the front end completes nothing, and retires what is completed. -/
theorem completed_front {op : InStepOp} {s' : InStep} {k : InstKey} (I : Inv p x0 pd C hist c)
    (H : Executes pd retired hist c) (hop : op.isFront = true)
    (hs' : c.front.step p pd pr op = .ok s')
    (hk : s'.table.status k = .completed ∨ s'.table.status k = .retired) : Done hist k := by
  -- a status that the step has not written
  have hold : s'.table.status k = c.front.table.status k → Done hist k := by
    intro heq
    rw [heq] at hk
    exact H.completed k hk
  cases InStep.step_stepped hs' with
  | @decoded insts =>
    by_cases hmem : k ∈ insts.map Inst.key
    · simp only [hmem, if_true] at hk
      rcases hk with hk | hk <;> cases hk
    · exact hold (if_neg hmem)
  | @rename stall r out =>
    by_cases hmem : k ∈ out.dispatchGroup.map RenamedInst.key
    · simp only [InstTable.setStatuses, hmem, if_true] at hk
      rcases hk with hk | hk <;> cases hk
    · exact hold (if_neg hmem)
  | @dispatch d T out _ hdisp =>
    have D := Dispatch.dispatchInstructions_spec I.ordered.rob_lt I.ordered.unit_lt hdisp
    dsimp only at hk hold
    rw [D.status] at hk hold
    dsimp only at hk hold
    by_cases hmem : k ∈ out.toRob.map RenamedInst.key
    · simp only [hmem, if_true] at hk
      rcases hk with hk | hk <;> cases hk
    · exact hold (if_neg hmem)
  | @retire rob T out _ hret =>
    obtain ⟨R, -⟩ := Rob.retireInstructions_spec hret
    dsimp only at hk hold
    rw [R.status] at hk hold
    dsimp only at hk hold
    by_cases hmem : k ∈ out.retired.map RenamedInst.key
    · obtain ⟨ri, hri, rfl⟩ := List.mem_map.mp hmem
      exact H.completed _ (.inl (R.completed ri hri))
    · exact hold (if_neg hmem)
  | flush | noFlush | complete => cases hop
  | _ => exact hold rfl

/-- A flush completes nothing. -/
theorem completed_flush {s' : InStep} {k : InstKey} (H : Executes pd retired hist c)
    (hs' : c.front.step p pd pr .flush = .ok s')
    (hk : s'.table.status k = .completed ∨ s'.table.status k = .retired) : Done hist k := by
  cases InStep.step_stepped hs' with
  | noFlush => exact H.completed k hk
  | @flush criteria t rob T credits _ _ _ _ hrob =>
    obtain ⟨-, -, hrob⟩ := Run.bind_eq_ok.mp hrob
    obtain ⟨-, rfl, -⟩ : _ ∧ _ ∧ _ := by simpa using Except.ok.inj hrob
    dsimp only [InstTable.setStatuses] at hk
    split at hk
    · rcases hk with hk | hk <;> cases hk
    · exact H.completed k hk

/-- A unit completes what it has executed or issued. -/
theorem completed_progress {hist' : List Move} {T : InstTable} {P : RenamedInst → Prop}
    {k : InstKey} (H : Executes pd retired hist c) (hT : c.front.table.Progress P T)
    (hP : ∀ ri, P ri → Done hist' ri.key) (hdone : Done hist k → Done hist' k)
    (hk : T.status k = .completed ∨ T.status k = .retired) : Done hist' k := by
  rcases hT.status k with hst | hst | ⟨-, ri, hri, rfl⟩
  · rw [hst] at hk
    exact hdone (H.completed k hk)
  · rw [hst] at hk
    rcases hk with hk | hk <;> cases hk
  · exact hP ri hri

/-- What is completed or retired after a step may have been completed by its unit. -/
theorem completed_step {op : CoreOp} (I : Inv p x0 pd C hist c)
    (H : Executes pd retired hist c) (hstep : c.step p pd pr pu op = .ok c') (k : InstKey)
    (hk : c'.front.table.status k = .completed ∨ c'.front.table.status k = .retired) :
    Done (hist ++ c.moves p pd pu op) k := by
  have P := placeSpec I hstep
  cases step_stepped hstep with
  | front hop hs' => exact P.done (H.completed_front I hop hs' hk)
  | flush _ _ hs' => exact P.done (H.completed_flush hs' hk)
  | deliverUnit _ hi hrec =>
    refine H.completed_progress (I.progress_of_receive hi hrec) (fun ri hri => P.done ?_) P.done hk
    have hplace : placeAfter hist ri.key = some .lsuIssued := hri.2
    simp [Done, hplace, Place.done]
  | deliverStoreAck => exact P.done (H.completed k hk)
  | @units op out hout =>
    have D := I.units.step I.view_unique hout
    have hmoves : c.moves p pd pu (.units op) = out.moves := by simp only [moves, hout]
    refine H.completed_progress D.table (fun ri hri => ?_) P.done hk
    rcases hri.2 with ⟨pl, hpl, hdone⟩ | hmem
    · exact P.done ((Option.any_eq_true _ _).mpr ⟨pl, hpl, hdone⟩)
    · rw [hmoves] at P ⊢
      have hplace := (moved_placeAfter hist P.nodup).moved _ hmem
      have hplace : placeAfter (hist ++ out.moves) ri.key = some .executed := hplace
      simp [Done, hplace, Place.done]

theorem step {op : CoreOp} (I : Inv p x0 pd C hist c) (H : Executes pd retired hist c)
    (hstep : c.step p pd pr pu op = .ok c') :
    Executes pd (retired ++ c.retires pr op) (hist ++ c.moves p pd pu op) c' where
  executions k := (placeSpec I hstep).executions (H.executions k)
  lsu m hm hplace := by
    rcases List.mem_append.mp hm with hm | hm
    · exact H.lsu m hm hplace
    · exact lsu_of_issued I hstep hm hplace
  completed k hk := H.completed_step I hstep k hk
  retired ri hri := by
    have P := placeSpec I hstep
    rcases List.mem_append.mp hri with hri | hri
    · exact ⟨List.mem_append_left _ (H.retired ri hri).1, P.done (H.retired ri hri).2⟩
    · obtain ⟨hmem, hcompleted⟩ := retires_spec I hstep hri
      exact ⟨List.mem_append_left _ (I.queue ri hmem), P.done (H.completed _ (.inl hcompleted))⟩

end Executes

section Runs

variable {p : RenameParams} {x0 : ℕ} {pd : DispatchParams} {pr : RobParams} {pu : UnitsParams}
variable {V : Type} {sem : RegisterSemantics p V} {regs : RegFile × ℕ → V} {C : Inst → Prop}
variable {h retired : List RenamedInst} {hist : List Move} {c : Core} {r : ArchReg}

theorem run_executes {ops : List CoreOp}
    (hrun : ops.foldlM (retiring p pd pr pu) ([], [], Core.init p x0) = .ok (retired, hist, c)) :
    Inv p x0 pd (fun _ => True) hist c ∧ Executes pd retired hist c := by
  refine Run.foldlM_ok_induct (f := retiring p pd pr pu)
    (I := fun _ s => Inv p x0 pd (fun _ => True) s.2.1 s.2.2 ∧ Executes pd s.1 s.2.1 s.2.2) ?_
    ⟨inv_init p x0 pd _, .init p x0 pd⟩ hrun
  rintro op l ⟨rs, h₁, c₁⟩ ⟨rs', h₂, c₂⟩ ⟨I, H⟩ hone
  obtain ⟨hone, hretired⟩ := Run.traced_eq_ok.mp hone
  obtain ⟨hstep, hhist⟩ := Run.traced_eq_ok.mp hone
  dsimp only at hstep hhist hretired I H
  subst hhist hretired
  exact ⟨I.step (fun _ _ _ _ => trivial) hstep, H.step I hstep⟩

/-- What is done and writes a register has written it. -/
theorem Executes.hasWritten (I : Inv p x0 pd (Inst.runsInPipes pd) hist c)
    (H : Executes pd retired hist c) {ri : RenamedInst} (hri : ri ∈ retired)
    (hwrites : ri.inst.writes r = true) : HasWritten hist ri := by
  obtain ⟨hren, hdone⟩ := H.retired ri hri
  obtain ⟨pl, hpl, hdone⟩ := (Option.any_eq_true _ _).mp hdone
  obtain ⟨rj, hrj, hkey⟩ := mem_of_placeAfter hpl
  obtain rfl := I.unique rj ri (I.moved _ hrj) hren hkey
  cases pl with
  | executed => exact hrj
  | lsuIssued =>
    -- the LSU gets no instruction that writes
    obtain ⟨o, ho, hreg⟩ := List.any_eq_true.mp hwrites
    rw [(I.renamed rj hren).2.1 (H.lsu _ hrj rfl) o ho] at hreg
    cases hreg
  | renamed | sent | waiting | working => cases hdone

/-- The registers that the retired instructions have mapped hold the values of the retired
program. -/
theorem Tracks.precise (I : Inv p x0 pd (Inst.runsInPipes pd) hist c)
    (H : Tracks sem x0 regs h retired hist c) (E : Executes pd retired hist c)
    (hr : isArchReg r) :
    (valuesOf sem x0 regs hist).store (r.1, tableAfter x0 retired r) =
      sem.execute (initialRegs x0 regs) (retired.map RenamedInst.inst) r := by
  have horigin := Dataflow.Computes.origin H.flows _ _ I.ordered.queue r hr
  have hlog : h ++ c.front.rename.instQueue = (h ++ c.front.retireAck) ++ c.front.unretired := by
    rw [I.ordered.queue, List.append_assoc]
  rw [← H.retired] at horigin hlog
  refine horigin.value H.flows hlog fun n hn => ?_
  unfold Dataflow.Origin at horigin
  rw [hn] at horigin
  obtain ⟨before, after, r', hsplit, hdest, -⟩ := horigin
  have hwrites := (Dataflow.Computes.renamed H.flows before n (after ++ c.front.unretired)
    (by rw [hlog, hsplit]; simp)).dest_writes _ _ hdest
  exact E.hasWritten I (by rw [hsplit]; simp) hwrites

/-- If nothing is in flight, the map table is as the retired instructions have it. -/
theorem Tracks.mapTable_of_unretired (I : Inv p x0 pd C hist c)
    (H : Tracks sem x0 regs h retired hist c) (hnone : c.front.unretired = []) :
    c.front.rename.mapTable = tableAfter x0 retired := by
  rw [H.tables.mapTable_eq, I.ordered.queue, hnone, List.append_nil, ← H.retired]

/-- A flush that is forwarded leaves nothing in flight. -/
theorem unretired_of_flush {c' : Core} (I : Inv p x0 pd C hist c)
    (hflush : c.step p pd pr pu .flush = .ok c')
    (hforward : FlushManager.forwardUpper c.front.pendingFlush ≠ none) :
    c'.front.unretired = [] := by
  obtain ⟨criteria, hcriteria⟩ := Option.ne_none_iff_exists'.mp hforward
  have I' := I.flush hflush
  have hqueue : c'.front.rename.instQueue = [] := by
    cases step_stepped hflush with
    | @flush s' _ _ hs' =>
      obtain ⟨-, -, hcase⟩ := I.ordered.flush_spec hs'
      simp only [hcriteria] at hcase
      exact hcase.1
  rw [I'.ordered.queue] at hqueue
  exact (List.append_eq_nil_iff.mp hqueue).2

end Runs

end Core

/-- In every run an instruction executes its final pass at most once, and an instruction that has
retired has executed it, unless the LSU has issued it, which only gets what Dispatch may send
there. -/
theorem retired_executed_once (p : RenameParams) (x0 : ℕ) (pd : DispatchParams)
    (pr : RobParams) (pu : UnitsParams) {ops : List CoreOp} {retired : List RenamedInst}
    {hist : List Move} {c : Core}
    (hrun : ops.foldlM (Core.retiring p pd pr pu) ([], [], Core.init p x0) =
      .ok (retired, hist, c)) :
    (∀ k, Core.executions hist k ≤ 1) ∧
      ∀ ri ∈ retired, Core.executions hist ri.key = 1 ∨
        .lsu ∈ pd.dispatchers ri.inst.pipe ∧ ⟨ri, .lsuIssued⟩ ∈ hist := by
  obtain ⟨I, H⟩ := Core.run_executes hrun
  constructor
  · intro k
    rw [H.executions]
    split <;> omega
  · intro ri hri
    obtain ⟨hren, hdone⟩ := H.retired ri hri
    obtain ⟨pl, hpl, hdone⟩ := (Option.any_eq_true _ _).mp hdone
    obtain ⟨rj, hrj, hkey⟩ := mem_of_placeAfter hpl
    obtain rfl := I.unique rj ri (I.moved _ hrj) hren hkey
    cases pl with
    | executed => exact .inl (by rw [H.executions, hpl, if_pos rfl])
    | lsuIssued => exact .inr ⟨H.lsu _ hrj rfl, hrj⟩
    | renamed | sent | waiting | working => cases hdone

/-- The state is precise in every run of programs whose register writers all execute in the pipes
and have their operands tested there: the registers that the retired instructions have mapped hold
the values of the retired program, whatever is in flight, and a flush that is forwarded maps the
architectural registers to them. -/
theorem precise_state {V : Type} (p : RenameParams) (x0 : ℕ) (pd : DispatchParams)
    (pr : RobParams) (pu : UnitsParams) (sem : RegisterSemantics p V) (regs : RegFile × ℕ → V)
    {ops : List CoreOp} {retired : List RenamedInst} {hist : List Move} {c : Core}
    (hpipes : ∀ i ∈ Core.decoded ops, i.runsInPipes pd)
    (hrun : ops.foldlM (Core.retiring p pd pr pu) ([], [], Core.init p x0) =
      .ok (retired, hist, c)) {r : ArchReg} (hr : isArchReg r) :
    (valuesOf sem x0 regs hist).store (r.1, tableAfter x0 retired r) =
        sem.execute (initialRegs x0 regs) (retired.map RenamedInst.inst) r ∧
      ∀ c', c.step p pd pr pu .flush = .ok c' →
        FlushManager.forwardUpper c.front.pendingFlush ≠ none →
        (valuesOf sem x0 regs hist).store (r.1, c'.front.rename.mapTable r) =
          sem.execute (initialRegs x0 regs) (retired.map RenamedInst.inst) r := by
  obtain ⟨I, -, h, H⟩ := Core.run_tracks sem regs hpipes hrun
  obtain ⟨-, E⟩ := Core.run_executes hrun
  have hprecise := H.precise I E hr
  refine ⟨hprecise, fun c' hflush hforward => ?_⟩
  rw [(H.flush hflush).mapTable_of_unretired (I.flush hflush)
    (Core.unretired_of_flush I hflush hforward)]
  exact hprecise

/-! ## A run -/

/-- A branch, which finds itself mispredicted. -/
def mispredictedBranch : Inst := { uniqueId := 2, programId := 2, isBranch := true }

def wrongPath : Inst := { consumer with uniqueId := 3, programId := 3 }

def mispredictingUnits : UnitsParams :=
  { smallUnits with pipe := fun _ => { enableRandomMisprediction := true } }

/-- The instruction after the branch executes before the branch retires. -/
def wrongPathOps : List CoreOp :=
  [.front (.dispatchCredits 10), .front (.robCredits 30), .front (.unitCredits (.iq 0) 8),
   .front .nextCycle, .front (.decoded [producer, mispredictedBranch, wrongPath]), .flush,
   .front .rename, .front .nextCycle, .front .deliverRenamed, .flush, .front .dispatch,
   .front .nextCycle, .front .deliverDispatched, .deliverUnit 0, .flush, .front .dispatch,
   .units (.sendReadyInsts 0), .units (.executeInst 0 0 false),
   .front .nextCycle, .front .deliverDispatched, .deliverUnit 0, .flush, .front .dispatch,
   .units (.completePipe 0 0), .units (.sendReadyInsts 0), .units (.executeInst 0 0 true),
   .front .nextCycle, .front .deliverDispatched, .deliverUnit 0, .flush,
   .units (.completePipe 0 0), .units (.sendReadyInsts 0), .units (.executeInst 0 0 false),
   .front .retire, .front .nextCycle, .front .deliverAck]

theorem retired_executed_once_sample :
    ∃ retired hist c, wrongPathOps.foldlM (Core.retiring {} smallDispatch {} mispredictingUnits)
        ([], [], Core.init {} 0) = .ok (retired, hist, c) ∧ retired.length = 2 ∧
      ∀ k, Core.executions hist k ≤ 1 := by
  have heval : (wrongPathOps.foldlM (Core.retiring {} smallDispatch {} mispredictingUnits)
      ([], [], Core.init {} 0)).toOption.map (fun s => s.1.length) = some 2 := by
    decide +kernel
  obtain ⟨⟨retired, hist, c⟩, hrun, hretired⟩ := Run.ok_of_eval heval
  exact ⟨retired, hist, c, hrun, hretired,
    (retired_executed_once {} 0 smallDispatch {} mispredictingUnits hrun).1⟩

/-- `x3` has its value of before the instruction on the wrong path, which has written another. -/
theorem precise_state_sample :
    ∃ retired hist c c', wrongPathOps.foldlM
        (Core.retiring {} smallDispatch {} mispredictingUnits) ([], [], Core.init {} 0) =
          .ok (retired, hist, c) ∧
      c.step {} smallDispatch {} mispredictingUnits .flush = .ok c' ∧
      (valuesOf (summing {} rfl) 0 (fun t => 100 * t.2) hist).store
        (.integer, c.front.rename.mapTable (.integer, 3)) = 104 ∧
      (valuesOf (summing {} rfl) 0 (fun t => 100 * t.2) hist).store
        (.integer, c'.front.rename.mapTable (.integer, 3)) =
          (summing {} rfl).execute (initialRegs 0 fun t => 100 * t.2) (retired.map RenamedInst.inst)
            (.integer, 3) := by
  have heval : (wrongPathOps.foldlM (Core.retiring {} smallDispatch {} mispredictingUnits)
      ([], [], Core.init {} 0)).toOption.map (fun s =>
        ((valuesOf (summing {} rfl) 0 (fun t => 100 * t.2) s.2.1).store
          (.integer, s.2.2.front.rename.mapTable (.integer, 3)),
        (FlushManager.forwardUpper s.2.2.front.pendingFlush).isSome,
        (s.2.2.step {} smallDispatch {} mispredictingUnits .flush).toOption.map fun _ => ())) =
      some (104, true, some ()) := by
    decide +kernel
  obtain ⟨⟨retired, hist, c⟩, hrun, hval⟩ := Run.ok_of_eval heval
  obtain ⟨hwrong, hval⟩ := Prod.mk.inj hval
  obtain ⟨hforward, hflush⟩ := Prod.mk.inj hval
  obtain ⟨c', hstep, -⟩ := Run.ok_of_eval hflush
  have hpipes : ∀ i ∈ Core.decoded wrongPathOps, i.runsInPipes smallDispatch := by
    unfold Inst.runsInPipes Inst.writesInPipes
    intro i hi
    have hi : i = producer ∨ i = mispredictedBranch ∨ i = wrongPath := by
      simpa [Core.decoded, wrongPathOps] using hi
    rcases hi with rfl | rfl | rfl
    · exact ⟨by decide, fun n hn => rfl⟩
    · exact ⟨by decide, fun n hn => rfl⟩
    · exact ⟨by decide, fun n hn => rfl⟩
  have hx3 : isArchReg (.integer, 3) := by
    unfold isArchReg
    decide
  refine ⟨retired, hist, c, c', hrun, hstep, hwrong, ?_⟩
  refine (precise_state {} 0 smallDispatch {} mispredictingUnits (summing {} rfl) _ hpipes hrun
    (r := (.integer, 3)) hx3).2 c' hstep fun hnone => ?_
  rw [hnone] at hforward
  cases hforward

end Olympia
