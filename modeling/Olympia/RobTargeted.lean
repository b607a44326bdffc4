import Olympia.Core

/-!
# Instructions for the ROB only

An instruction is marked for the ROB when its pipe is `rob`, or when Rename eliminates it as a
move (`Inst.robTargeted`).  It has nothing to execute, and should go from Dispatch to the ROB
alone and be complete there (`BypassesExecution`).  `dispatchInstructions_` never looks at the
mark: it sends every instruction to a dispatcher for its pipe.  So a session does as it should
exactly when none of its instructions is marked.
-/

namespace Olympia

namespace Inst

/-- `renameDests_` eliminates the move: one of its destinations is renamed, and a source has been
recorded in the same register file. -/
def eliminated (p : RenameParams) (i : Inst) : Bool :=
  p.moveElimination && i.isMove && i.dests.any fun d => !d.isX0 &&
    i.srcs.any fun o => (!o.isX0 && !i.isDataOperand o) && o.regFile == d.regFile

/-- `isTargetROB`, once the instruction is renamed. -/
def robTargeted (p : RenameParams) (i : Inst) : Bool := i.pipe == .rob || i.eliminated p

end Inst

variable {p : RenameParams} {x0 : ℕ} {pd : DispatchParams} {pr : RobParams}

/-! ## The mark -/

theorem renameSource_targetROB (t : RenameTables) (ri : RenamedInst) (o : OpInfo) :
    (renameSource t ri o).targetROB = ri.targetROB := by
  unfold renameSource
  dsimp only
  split_ifs <;> rfl

theorem renameSources_targetROB (t : RenameTables) (ri : RenamedInst) :
    (renameSources t ri).targetROB = ri.targetROB := by
  unfold renameSources
  induction ri.inst.srcs generalizing ri with
  | nil => rfl
  | cons o l ih =>
    rw [List.foldl_cons, ih]
    exact renameSource_targetROB t ri o

/-- A move has something to be eliminated to when a source was recorded in the register file. -/
theorem moveSource_isSome {m : ArchReg → ℕ} {ri : RenamedInst} (f : RegFile)
    (hrec : ri.SourcesRecorded m ri.inst.srcs) :
    (moveSource p ri f).isSome = (p.moveElimination && ri.inst.isMove &&
      ri.inst.srcs.any fun o => (!o.isX0 && !ri.inst.isDataOperand o) && o.regFile == f) := by
  have hhead : (ri.getSourceList f).head?.isSome =
      ri.inst.srcs.any fun o => (!o.isX0 && !ri.inst.isDataOperand o) && o.regFile == f := by
    rw [Bool.eq_iff_iff, List.isSome_head?, List.any_eq_true]
    unfold RenamedInst.getSourceList
    rw [hrec.src_eq]
    constructor
    · intro hne
      obtain ⟨r, hr⟩ := List.exists_mem_of_ne_nil _ hne
      obtain ⟨hr, hfile⟩ := List.mem_filter.mp hr
      obtain ⟨o, ho, rfl⟩ := List.mem_map.mp hr
      obtain ⟨ho, hkeep⟩ := List.mem_filter.mp ho
      exact ⟨o, ho, by
        rw [hkeep]
        exact beq_iff_eq.mpr (of_decide_eq_true hfile)⟩
    · rintro ⟨o, ho, hkeep⟩
      obtain ⟨hkeep, hfile⟩ := (Bool.and_eq_true _ _).mp hkeep
      refine List.ne_nil_of_mem (a := readReg m o) (List.mem_filter.mpr ⟨?_, ?_⟩)
      · exact List.mem_map_of_mem (List.mem_filter.mpr ⟨ho, hkeep⟩)
      · exact decide_eq_true (beq_iff_eq.mp hfile)
  unfold moveSource
  cases hmove : p.moveElimination && ri.inst.isMove with
  | false => rfl
  | true => simpa using hhead

/-- One destination: the mark is set when the move is eliminated to a source. -/
theorem renameDest_targetROB {t t' : RenameTables} {ri ri' : RenamedInst} {o : OpInfo}
    (h : renameDest p (t, ri) o = .ok (t', ri')) :
    ri'.targetROB = (ri.targetROB || (!o.isX0 && (moveSource p ri o.regFile).isSome)) ∧
      ∀ f, moveSource p ri' f = moveSource p ri f := by
  rcases renameDest_cases h with ⟨hx0, -, rfl⟩ | ⟨hx0, r, hmove, -, rfl⟩ |
    ⟨hx0, front, rest, hmove, -, -, rfl⟩
  · exact ⟨by simp [hx0], fun _ => rfl⟩
  · exact ⟨by simp [hx0, hmove, RenamedInst.addDestRegister], fun _ => rfl⟩
  · exact ⟨by simp [hmove, RenamedInst.addDestRegister, RenamedInst.setDestRegisterBit],
      fun _ => rfl⟩

theorem renameDests_targetROB : ∀ (dests : List OpInfo) {t t' : RenameTables}
    {ri ri' : RenamedInst}, dests.foldlM (renameDest p) (t, ri) = .ok (t', ri') →
    ri'.targetROB = (ri.targetROB ||
      dests.any fun o => !o.isX0 && (moveSource p ri o.regFile).isSome)
  | [], t, t', ri, ri', h => by
    obtain ⟨-, rfl⟩ := Prod.mk.inj (Except.ok.inj h)
    simp
  | o :: dests, t, t', ri, ri', h => by
    rw [List.foldlM_cons] at h
    obtain ⟨⟨t₁, ri₁⟩, hdest, hrest⟩ := Run.bind_eq_ok.mp h
    obtain ⟨hmark, hsource⟩ := renameDest_targetROB hdest
    rw [renameDests_targetROB dests hrest, hmark, List.any_cons, Bool.or_assoc]
    simp only [hsource]

/-- The mark depends on the instruction alone. -/
theorem renameInst_targetROB {t t' : RenameTables} {i : Inst} {ri : RenamedInst}
    (h : renameInst p t i = .ok (t', ri)) : ri.targetROB = i.robTargeted p := by
  unfold renameInst at h
  obtain ⟨⟨t₁, ri₁⟩, hdests, hpush⟩ := Run.bind_eq_ok.mp h
  obtain ⟨-, rfl⟩ := Prod.mk.inj (Except.ok.inj hpush)
  obtain ⟨hrec, hinst⟩ := renameSources_recorded t i
  unfold renameDests at hdests
  rw [renameDests_targetROB _ hdests, renameSources_targetROB, hinst]
  simp only [moveSource_isSome _ (show (renameSources t { inst := i }).SourcesRecorded
    t.mapTable (renameSources t { inst := i }).inst.srcs by rw [hinst]; exact hrec), hinst]
  unfold Inst.robTargeted Inst.eliminated
  cases p.moveElimination && i.isMove with
  | false => simp
  | true => simp

theorem renameDests_inst : ∀ (dests : List OpInfo) {t t' : RenameTables} {ri ri' : RenamedInst},
    dests.foldlM (renameDest p) (t, ri) = .ok (t', ri') → ri'.inst = ri.inst
  | [], t, t', ri, ri', h => by
    obtain ⟨-, rfl⟩ := Prod.mk.inj (Except.ok.inj h)
    rfl
  | o :: dests, t, t', ri, ri', h => by
    rw [List.foldlM_cons] at h
    obtain ⟨⟨t₁, ri₁⟩, hdest, hrest⟩ := Run.bind_eq_ok.mp h
    rw [renameDests_inst dests hrest]
    rcases renameDest_cases hdest with
      ⟨-, -, rfl⟩ | ⟨-, r, -, -, rfl⟩ | ⟨-, front, rest, -, -, -, rfl⟩
    · rfl
    · rfl
    · rfl

theorem renameInst_inst {t t' : RenameTables} {i : Inst} {ri : RenamedInst}
    (h : renameInst p t i = .ok (t', ri)) : ri.inst = i := by
  unfold renameInst at h
  obtain ⟨⟨t₁, ri₁⟩, hdests, hpush⟩ := Run.bind_eq_ok.mp h
  obtain ⟨-, rfl⟩ := Prod.mk.inj (Except.ok.inj hpush)
  unfold renameDests at hdests
  rw [renameDests_inst _ hdests]
  exact (renameSources_recorded t i).2

/-- What holds of every instruction that is renamed holds of the group. -/
theorem renameLoop_forall {P : RenamedInst → Prop}
    (hP : ∀ t i t' ri, renameInst p t i = .ok (t', ri) → P ri) :
    ∀ (n : ℕ) {s s' : RenameState} {insts insts' : List RenamedInst} {left : ℕ},
      renameLoop p n s insts = .ok (s', insts', left) → (∀ ri ∈ insts, P ri) →
      ∀ ri ∈ insts', P ri
  | 0, s, s', insts, insts', left, hloop, hall => by
    obtain ⟨-, rfl, -⟩ : s = s' ∧ insts = insts' ∧ 0 = left := by
      simpa [renameLoop] using hloop
    exact hall
  | n + 1, s, s', insts, insts', left, hloop, hall => by
    unfold renameLoop at hloop
    rcases huop : s.uopQueue with _ | ⟨i, rest⟩
    · rw [huop] at hloop
      cases hloop
    · rw [huop] at hloop
      dsimp only at hloop
      split at hloop
      · obtain ⟨-, rfl, -⟩ : _ = s' ∧ insts = insts' ∧ n + 1 = left := by
          simpa using hloop
        exact hall
      · obtain ⟨⟨t, ri⟩, hren, hrest⟩ := Run.bind_eq_ok.mp hloop
        refine renameLoop_forall hP n hrest fun rj hrj => ?_
        rcases List.mem_append.mp hrj with hrj | hrj
        · exact hall rj hrj
        · rw [List.mem_singleton.mp hrj]
          exact hP _ _ _ _ hren

theorem renameInstructions_forall {P : RenamedInst → Prop} {s s' : RenameState} {out : RenameOut}
    (hP : ∀ t i t' ri, renameInst p t i = .ok (t', ri) → P ri)
    (hren : renameInstructions p s = .ok (s', out)) : ∀ ri ∈ out.dispatchGroup, P ri := by
  unfold renameInstructions at hren
  obtain ⟨-, -, hren⟩ := Run.bind_eq_ok.mp hren
  obtain ⟨⟨s₁, insts, left⟩, hloop, hren⟩ := Run.bind_eq_ok.mp hren
  have hall := renameLoop_forall hP _ hloop fun ri hri => by cases hri
  dsimp only at hren
  split at hren
  · obtain ⟨-, -, hren⟩ := Run.bind_eq_ok.mp hren
    obtain ⟨-, -, hren⟩ := Run.bind_eq_ok.mp hren
    obtain ⟨-, rfl⟩ := Prod.mk.inj (Except.ok.inj hren)
    exact hall
  · obtain ⟨-, rfl⟩ := Prod.mk.inj (Except.ok.inj hren)
    exact hall

/-! ## The instructions in flight -/

namespace InStep

/-- Everything that has been renamed is marked as it should be. -/
def Marked (p : RenameParams) (s : InStep) : Prop :=
  ∀ ri ∈ s.rename.instQueue, ri.targetROB = ri.inst.robTargeted p

variable {s s' : InStep} {op : InStepOp}

/-- A step adds to `inst_queue_` what it renames. -/
theorem Ordered.mem_queue_step {ri : RenamedInst} (H : Ordered p x0 s)
    (hstep : s.step p pd pr op = .ok s') (hri : ri ∈ s'.rename.instQueue) :
    ri ∈ s.rename.instQueue ∨ ri ∈ s.renames p op := by
  by_cases hfront : op.isFront = true
  · exact (H.frontSpec hfront hstep).queue ri hri
  · refine .inl ?_
    cases op with
    | flush =>
      obtain ⟨-, -, hflush⟩ := H.flush_spec hstep
      split at hflush
      · rw [← hflush.1]
        exact hri
      · rw [hflush.1] at hri
        cases hri
    | complete k mispredicted =>
      cases step_stepped hstep
      exact hri
    | _ => exact absurd rfl hfront

theorem renames_forall {P : RenamedInst → Prop}
    (hP : ∀ t i t' ri, renameInst p t i = .ok (t', ri) → P ri) :
    ∀ ri ∈ s.renames p op, P ri := by
  cases op with
  | rename =>
    simp only [renames]
    split
    · split
      · rename_i hren
        exact renameInstructions_forall hP hren
      · exact fun ri hri => by cases hri
    · exact fun ri hri => by cases hri
  | _ => exact fun ri hri => by cases hri

theorem Ordered.marked_step (H : Ordered p x0 s) (hmark : s.Marked p)
    (hstep : s.step p pd pr op = .ok s') : s'.Marked p := by
  intro ri hri
  rcases H.mem_queue_step hstep hri with hri | hri
  · exact hmark ri hri
  · refine renames_forall (P := fun ri => ri.targetROB = ri.inst.robTargeted p) ?_ ri hri
    intro t i t' ri hren
    rw [renameInst_targetROB hren, renameInst_inst hren]

/-! ## Sessions -/

/-- What a session does as it should: every instruction that is not marked goes to one dispatcher,
in the order of the group, and the marked ones to none; these are complete. -/
def BypassesExecution (out : DispatchOut) (T : InstTable) : Prop :=
  out.sends.map Prod.snd = out.toRob.filter (fun ri => !ri.targetROB) ∧
    ∀ ri ∈ out.toRob, ri.targetROB = true → T.status ri.key = .completed

/-- The session does as it should when nothing it dispatches is marked, and only then. -/
theorem Ordered.bypasses_iff {d : DispatchState} {T : InstTable} {out : DispatchOut}
    (H : Ordered p x0 s) (hmark : s.Marked p)
    (hd : Dispatch.dispatchInstructions pd s.dispatch s.table = .ok (d, T, out)) :
    BypassesExecution out T ↔ ∀ ri ∈ out.toRob, ri.inst.robTargeted p = false := by
  have D := Dispatch.dispatchInstructions_spec H.rob_lt H.unit_lt hd
  have hqueue : ∀ ri ∈ out.toRob, ri.targetROB = ri.inst.robTargeted p := by
    intro ri hri
    refine hmark ri (H.mem_of_undispatched (List.mem_append_left _ ?_))
    rw [D.queue]
    exact List.mem_append_left _ hri
  constructor
  · rintro ⟨hsends, -⟩ ri hri
    rw [D.sends_new] at hsends
    rw [← hqueue ri hri]
    have hkept := List.filter_eq_self.mp hsends.symm ri hri
    simpa using hkept
  · intro hnone
    constructor
    · rw [D.sends_new, eq_comm, List.filter_eq_self]
      intro ri hri
      rw [hqueue ri hri, hnone ri hri]
      rfl
    · intro ri hri htarget
      rw [hqueue ri hri, hnone ri hri] at htarget
      cases htarget

/-- An instruction that Rename has came from Decode. -/
theorem Ordered.mem_insts_step {i : Inst} (H : Ordered p x0 s)
    (hstep : s.step p pd pr op = .ok s') (hi : i ∈ s'.insts) :
    i ∈ s.insts ∨ ∃ insts, op = .decoded insts ∧ i ∈ insts := by
  by_cases hfront : op.isFront = true
  · have F := H.frontSpec hfront hstep
    obtain ⟨rest, insts, huops, huops', hcame, -⟩ := F.uops
    rcases List.mem_append.mp hi with hi | hi
    · obtain ⟨ri, hri, rfl⟩ := List.mem_map.mp hi
      rcases F.queue ri hri with hri | hri
      · exact .inl (mem_insts_of_queue hri)
      · refine .inl (List.mem_append_right _ ?_)
        rw [huops]
        exact List.mem_append_left _ (List.mem_map_of_mem hri)
    · rw [huops'] at hi
      rcases List.mem_append.mp hi with hi | hi
      · refine .inl (List.mem_append_right _ ?_)
        rw [huops]
        exact List.mem_append_right _ hi
      · rcases hcame with rfl | hop
        · cases hi
        · exact .inr ⟨insts, hop, hi⟩
  · refine .inl ?_
    cases op with
    | flush =>
      obtain ⟨-, -, hflush⟩ := H.flush_spec hstep
      split at hflush
      · unfold InStep.insts at hi ⊢
        rw [← hflush.1]
        exact hi
      · unfold InStep.insts at hi
        rw [hflush.1, hflush.2.1] at hi
        cases hi
    | complete k mispredicted =>
      cases step_stepped hstep
      exact hi
    | _ => exact absurd rfl hfront

/-- The groups of a run from Decode. -/
def decodedInsts (ops : List InStepOp) : List Inst :=
  ops.flatMap fun
    | .decoded insts => insts
    | _ => []

/-- All instructions in flight came from Decode in the run, and are marked as they should be. -/
theorem visits_marked {ops : List InStepOp}
    (h : Run.Visits (step p pd pr) (init p x0) ops s) :
    Ordered p x0 s ∧ s.Marked p ∧ ∀ i ∈ s.insts, i ∈ decodedInsts ops := by
  refine h.invariant (I := fun s => Ordered p x0 s ∧ s.Marked p ∧
    ∀ i ∈ s.insts, i ∈ decodedInsts ops) ?_ ?_
  · refine ⟨ordered_init p x0, ?_, ?_⟩
    · intro ri hri
      cases hri
    · intro i hi
      cases hi
  · rintro op s s' ⟨H, hmark, hcame⟩ htakes hstep
    refine ⟨H.step hstep, H.marked_step hmark hstep, fun i hi => ?_⟩
    rcases H.mem_insts_step hstep hi with hi | ⟨insts, rfl, hi⟩
    · exact hcame i hi
    · obtain ⟨before, after, hops, -⟩ := htakes
      refine List.mem_flatMap.mpr ⟨.decoded insts, ?_, hi⟩
      rw [hops]
      exact List.mem_append_right _ List.mem_cons_self

end InStep

/-- In every reachable state, a session does as it should exactly when no instruction it
dispatches is for the ROB only; so in a run of a program without such instructions every session
does. -/
theorem rob_targeted_bypass (p : RenameParams) (x0 : ℕ) (pd : DispatchParams) (pr : RobParams)
    {ops : List InStepOp} {s : InStep}
    (hs : Run.Visits (InStep.step p pd pr) (InStep.init p x0) ops s) {d : DispatchState}
    {T : InstTable} {out : DispatchOut}
    (hd : Dispatch.dispatchInstructions pd s.dispatch s.table = .ok (d, T, out)) :
    (InStep.BypassesExecution out T ↔ ∀ ri ∈ out.toRob, ri.inst.robTargeted p = false) ∧
      ((∀ i ∈ InStep.decodedInsts ops, i.robTargeted p = false) →
        InStep.BypassesExecution out T) := by
  obtain ⟨H, hmark, hcame⟩ := InStep.visits_marked hs
  have hiff := H.bypasses_iff hmark hd
  refine ⟨hiff, fun hprog => hiff.mpr fun ri hri => hprog _ (hcame _ ?_)⟩
  have D := Dispatch.dispatchInstructions_spec H.rob_lt H.unit_lt hd
  refine InStep.Ordered.mem_insts_of_queue (H.mem_of_undispatched (List.mem_append_left _ ?_))
  rw [D.queue]
  exact List.mem_append_left _ hri

/-- A dispatcher for integer instructions. -/
def integerUnit : DispatchParams where
  dispatchers
    | .int => [.iq 0]
    | _ => []

/-- `addi x1, x2, ..` and `mv x3, x1`. -/
def addThenMove : List Inst :=
  [{ uniqueId := 1, srcs := [⟨2, .rs1, .integer⟩], dests := [⟨1, .rd, .integer⟩]
     srcs_lt := OpInfo.single_lt (nat_lit 2) .rs1
     dests_lt := OpInfo.single_lt (nat_lit 1) .rd
     dests_distinct := OpInfo.single_distinct (nat_lit 1) .rd },
   { uniqueId := 2, isMove := true, srcs := [⟨1, .rs1, .integer⟩],
     dests := [⟨3, .rd, .integer⟩]
     srcs_lt := OpInfo.single_lt (nat_lit 1) .rs1
     dests_lt := OpInfo.single_lt (nat_lit 3) .rd
     dests_distinct := OpInfo.single_distinct (nat_lit 3) .rd }]

/-- Both instructions are renamed, and Dispatch gets them with credits; it sends one in a cycle,
so that the second session is for the move. -/
def addThenMoveOps : List InStepOp :=
  [.nextCycle, .decoded addThenMove, .flush, .dispatchCredits 10, .robCredits 30,
   .unitCredits (.iq 0) 8, .rename, .nextCycle, .deliverRenamed, .flush, .dispatch, .nextCycle,
   .deliverDispatched, .flush]

/-- With move elimination the move is sent to the unit. -/
theorem eliminated_move_executes :
    ∃ s d T out, addThenMoveOps.foldlM
        (InStep.step { moveElimination := true } integerUnit {})
        (InStep.init { moveElimination := true } 0) = .ok s ∧
      Dispatch.dispatchInstructions integerUnit s.dispatch s.table = .ok (d, T, out) ∧
      ¬InStep.BypassesExecution out T := by
  have heval : ((addThenMoveOps.foldlM (InStep.step { moveElimination := true } integerUnit {})
      (InStep.init { moveElimination := true } 0)).toOption.map fun s =>
        (Dispatch.dispatchInstructions integerUnit s.dispatch s.table).toOption.map
          fun r => (r.2.2.sends.length, r.2.2.toRob.all RenamedInst.targetROB)) =
      some (some (1, true)) := by decide +kernel
  obtain ⟨s, hs, heval⟩ := Run.ok_of_eval heval
  obtain ⟨⟨d, T, out⟩, hd, heval⟩ := Run.ok_of_eval heval
  obtain ⟨hlen, hall⟩ := Prod.mk.inj heval
  refine ⟨s, d, T, out, hs, hd, ?_⟩
  rintro ⟨hsends, -⟩
  have hnone : out.toRob.filter (fun ri => !ri.targetROB) = [] := by
    rw [List.filter_eq_nil_iff]
    intro ri hri
    rw [List.all_eq_true.mp hall ri hri]
    decide
  rw [hnone, List.map_eq_nil_iff] at hsends
  have hlen : out.sends.length = 1 := hlen
  rw [hsends] at hlen
  cases hlen

/-- Without move elimination the same program is dispatched as it should be. -/
theorem rob_targeted_bypass_sample :
    ∃ s d T out, addThenMoveOps.foldlM (InStep.step {} integerUnit {}) (InStep.init {} 0) = .ok s ∧
      Dispatch.dispatchInstructions integerUnit s.dispatch s.table = .ok (d, T, out) ∧
      out.toRob.map RenamedInst.uniqueId = [2] ∧ InStep.BypassesExecution out T := by
  have heval : ((addThenMoveOps.foldlM (InStep.step {} integerUnit {})
      (InStep.init {} 0)).toOption.map fun s =>
        (Dispatch.dispatchInstructions integerUnit s.dispatch s.table).toOption.map
          fun r => r.2.2.toRob.map RenamedInst.uniqueId) = some (some [2]) := by decide +kernel
  obtain ⟨s, hs, heval⟩ := Run.ok_of_eval heval
  obtain ⟨⟨d, T, out⟩, hd, hids⟩ := Run.ok_of_eval heval
  exact ⟨s, d, T, out, hs, hd, hids,
    (rob_targeted_bypass {} 0 integerUnit {} (.last hs) hd).2 (by decide)⟩

end Olympia
