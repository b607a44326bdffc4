import Olympia.Core

/-!
# Instructions that have not been executed

An instruction of `inst_queue_` that is before the end of its execution is not dispatched, or still
to be completed by its unit (`Core.UndoneLive`), so it stays in the queue until it has executed or
is flushed.  `Core.Awaited` joins these instructions to those that are not renamed yet.  An awaited
instruction stays awaited until it has executed or the LSU has issued it, and none is awaited that
has not come from Decode (`Core.awaitedSpec`); a flush leaves none (`Core.awaited_flush`).
-/

namespace Olympia

namespace Core

/-- The instruction is known and neither executed nor issued by the LSU. -/
def Undone (hist : List Move) (k : InstKey) : Prop :=
  ∃ pl, placeAfter hist k = some pl ∧ pl.done = false

/-- An instruction that is not executed is not dispatched or not completed. -/
def UndoneLive (hist : List Move) (c : Core) : Prop :=
  ∀ ri ∈ c.front.rename.instQueue, Undone hist ri.key → ri ∈ c.front.undispatched ∨ c.front.Live ri

/-- The instruction has come from Decode and is neither flushed nor executed. -/
def Awaited (hist : List Move) (c : Core) (i : Inst) : Prop :=
  i ∈ c.front.rename.uopQueue ∨
    ∃ ri ∈ c.front.rename.instQueue, ri.inst = i ∧ Undone hist ri.key

section Steps

variable {p : RenameParams} {x0 : ℕ} {pd : DispatchParams} {pr : RobParams} {pu : UnitsParams}
variable {C : Inst → Prop} {hist : List Move} {c c' : Core} {ri : RenamedInst} {i : Inst}

theorem undone_of_place {pl : Place} (h : placeAfter hist ri.key = some pl)
    (hpl : pl.done = false) : Undone hist ri.key := ⟨pl, h, hpl⟩

/-- What is renamed has been somewhere. -/
theorem place_ne_none (I : Inv p x0 pd C hist c) (hri : ri ∈ c.front.rename.instQueue) :
    placeAfter hist ri.key ≠ none := by
  intro h
  exact placeAfter_eq_none.mp h _ (I.queue ri hri) rfl

/-! ### The front end -/

section Front

variable {op : InStepOp} {s' : InStep}

/-- Renaming and dispatching do not execute. -/
theorem undone_front_iff (I : Inv p x0 pd C hist c) (F : InStep.FrontSpec p pd pr c.front s' op)
    (hri : ri ∈ c.front.rename.instQueue) :
    Undone (hist ++ c.moves p pd pu (.front op)) ri.key ↔ Undone hist ri.key := by
  obtain ⟨hnodup, hfrom⟩ := I.front_moves pu F
  have hmoved := moved_placeAfter hist hnodup
  by_cases hmove : ∃ m ∈ c.moves p pd pu (.front op), m.key = ri.key
  · obtain ⟨m, hm, hkey⟩ := hmove
    have hbefore : placeAfter hist ri.key = some .renamed := by
      have h := hfrom m hm
      rw [hkey] at h
      exact h.resolve_left (place_ne_none I hri)
    have hafter := hmoved.moved m hm
    rw [hkey] at hafter
    have hdone : m.place.done = false := by
      rcases List.mem_append.mp hm with hm | hm
      · obtain ⟨rj, -, rfl⟩ := List.mem_map.mp hm
        rfl
      · obtain ⟨x, -, rfl⟩ := List.mem_map.mp hm
        rfl
    exact ⟨fun _ => ⟨_, hbefore, rfl⟩, fun _ => ⟨_, hafter, hdone⟩⟩
  · unfold Undone
    rw [hmoved.stays ri.key fun m hm heq => hmove ⟨m, hm, heq⟩]

/-- What is renamed now is not dispatched, or dispatched now. -/
theorem undone_of_renames (I : Inv p x0 pd C hist c) (F : InStep.FrontSpec p pd pr c.front s' op)
    (hri : ri ∈ c.front.renames p op) :
    Undone (hist ++ c.moves p pd pu (.front op)) ri.key ∧ (ri ∈ s'.undispatched ∨ s'.Live ri) := by
  obtain ⟨hnodup, -⟩ := I.front_moves pu F
  have hmoved := moved_placeAfter hist hnodup
  refine ⟨?_, ?_⟩
  · refine undone_of_place (hmoved.moved ⟨ri, .renamed⟩ ?_) rfl
    exact List.mem_append_left _ (List.mem_map_of_mem hri)
  · have hmem : ri ∈ (c.front.sends pd op).map Prod.snd ++ s'.undispatched := by
      rw [F.undispatched]
      exact List.mem_append_right _ hri
    rcases List.mem_append.mp hmem with hmem | hmem
    · obtain ⟨m, hm, rfl⟩ := List.mem_map.mp hmem
      exact .inr (F.sent m hm).2.1
    · exact .inl hmem

/-- An instruction that is not dispatched, or not completed, stays so. -/
theorem kept_front (F : InStep.FrontSpec p pd pr c.front s' op)
    (h : ri ∈ c.front.undispatched ∨ c.front.Live ri) : ri ∈ s'.undispatched ∨ s'.Live ri := by
  rcases h with h | h
  · have hmem : ri ∈ (c.front.sends pd op).map Prod.snd ++ s'.undispatched := by
      rw [F.undispatched]
      exact List.mem_append_left _ h
    rcases List.mem_append.mp hmem with hmem | hmem
    · obtain ⟨m, hm, rfl⟩ := List.mem_map.mp hmem
      exact .inr (F.sent m hm).2.1
    · exact .inl hmem
  · exact .inr (F.live ri h)

theorem mem_of_kept (O : s'.Ordered p x0) (h : ri ∈ s'.undispatched ∨ s'.Live ri) :
    ri ∈ s'.rename.instQueue := by
  rcases h with h | h
  · exact O.mem_of_undispatched h
  · exact O.mem_of_live h

end Front

/-! ### Steps -/

/-- What a step other than a flush does to the awaited instructions. -/
structure AwaitedSpec (hist moves : List Move) (c c' : Core) (op : CoreOp) : Prop where
  live : UndoneLive (hist ++ moves) c'
  stays : ∀ i, Awaited hist c i → Awaited (hist ++ moves) c' i ∨
    ∃ m ∈ moves, m.inst.inst = i ∧ m.place.done = true
  old : ∀ i, Awaited (hist ++ moves) c' i → Awaited hist c i ∨
    ∃ insts, op = .front (.decoded insts) ∧ i ∈ insts

theorem awaitedSpec_front {op : InStepOp} (I : Inv p x0 pd C hist c) (U : UndoneLive hist c)
    (hstep : c.step p pd pr pu (.front op) = .ok c') :
    AwaitedSpec hist (c.moves p pd pu (.front op)) c c' (.front op) := by
  cases step_stepped hstep with
  | @front _ s' hop hs' =>
    have F := I.ordered.frontSpec hop hs'
    have O := I.ordered.step hs'
    obtain ⟨rest, insts, huop, huop', hinsts, -⟩ := F.uops
    refine ⟨fun ri hri hun => ?_, fun i hi => .inl ?_, fun i hi => ?_⟩
    · rcases F.queue ri hri with hri | hri
      · exact kept_front F (U ri hri ((undone_front_iff I F hri).mp hun))
      · have hnew : Undone (hist ++ c.moves p pd pu (.front op)) ri.key ∧ _ :=
          undone_of_renames I F hri
        exact hnew.2
    · rcases hi with hi | ⟨ri, hri, rfl, hun⟩
      · rw [huop] at hi
        rcases List.mem_append.mp hi with hi | hi
        · obtain ⟨ri, hri, rfl⟩ := List.mem_map.mp hi
          exact .inr ⟨ri, F.renamed ri hri, rfl, (undone_of_renames I F hri).1⟩
        · refine .inl ?_
          show i ∈ s'.rename.uopQueue
          rw [huop']
          exact List.mem_append_left _ hi
      · refine .inr ⟨ri, mem_of_kept O (kept_front F (U ri hri hun)), rfl, ?_⟩
        exact (undone_front_iff I F hri).mpr hun
    · rcases hi with hi | ⟨ri, hri, rfl, hun⟩
      · have hi' : i ∈ rest ++ insts := by
          rw [← huop']
          exact hi
        rcases List.mem_append.mp hi' with hold | hnew
        · refine .inl (.inl ?_)
          rw [huop]
          exact List.mem_append_right _ hold
        · rcases hinsts with rfl | rfl
          · cases hnew
          · exact .inr ⟨insts, rfl, hnew⟩
      · rcases F.queue ri hri with hri | hri
        · exact .inl (.inr ⟨ri, hri, rfl, (undone_front_iff I F hri).mp hun⟩)
        · refine .inl (.inl ?_)
          rw [huop]
          exact List.mem_append_left _ (List.mem_map_of_mem hri)

/-- A step that leaves the queues of the front end alone. -/
theorem AwaitedSpec.of_moves {moves : List Move} {op : CoreOp} (U : UndoneLive hist c)
    (hq : c'.front.rename.instQueue = c.front.rename.instQueue)
    (huop : c'.front.rename.uopQueue = c.front.rename.uopQueue)
    (hund : c'.front.undispatched = c.front.undispatched)
    (hback : ∀ ri ∈ c.front.rename.instQueue, Undone (hist ++ moves) ri.key → Undone hist ri.key)
    (hforth : ∀ ri ∈ c.front.rename.instQueue, Undone hist ri.key →
      Undone (hist ++ moves) ri.key ∨ ∃ m ∈ moves, m.inst = ri ∧ m.place.done = true)
    (hlive : ∀ ri, c.front.Live ri → Undone (hist ++ moves) ri.key → c'.front.Live ri) :
    AwaitedSpec hist moves c c' op := by
  refine ⟨fun ri hri hun => ?_, fun i hi => ?_, fun i hi => ?_⟩
  · rw [hq] at hri
    rw [hund]
    exact (U ri hri (hback ri hri hun)).imp_right fun h => hlive ri h hun
  · rcases hi with hi | ⟨ri, hri, rfl, hun⟩
    · exact .inl (.inl (by rw [huop]; exact hi))
    · rcases hforth ri hri hun with hun | ⟨m, hm, rfl, hdone⟩
      · exact .inl (.inr ⟨ri, by rw [hq]; exact hri, rfl, hun⟩)
      · exact .inr ⟨m, hm, rfl, hdone⟩
  · rcases hi with hi | ⟨ri, hri, rfl, hun⟩
    · exact .inl (.inl (by rw [← huop]; exact hi))
    · rw [hq] at hri
      exact .inl (.inr ⟨ri, hri, rfl, hback ri hri hun⟩)

theorem awaitedSpec_deliverUnit {n : ℕ} (I : Inv p x0 pd C hist c) (U : UndoneLive hist c)
    (hstep : c.step p pd pr pu (.deliverUnit n) = .ok c') :
    AwaitedSpec hist (c.moves p pd pu (.deliverUnit n)) c c' (.deliverUnit n) := by
  cases step_stepped hstep with
  | @deliverUnit _ d ri units T _ hn hrec =>
    have hmoves : c.moves p pd pu (.deliverUnit n) = [⟨ri, .waiting d⟩] := by simp [moves, hn]
    rw [hmoves]
    obtain ⟨hknown, hsent, hlive⟩ := I.toUnit (d, ri) (List.mem_of_getElem? hn)
    have hmoved : Moved [⟨ri, .waiting d⟩] (placeAfter hist)
        (placeAfter (hist ++ [⟨ri, .waiting d⟩])) := moved_placeAfter _ (by simp)
    have hiff : ∀ k, Undone (hist ++ [⟨ri, .waiting d⟩]) k ↔ Undone hist k := by
      intro k
      by_cases hkey : ri.key = k
      · subst hkey
        exact ⟨fun _ => ⟨_, hsent, rfl⟩, fun _ => ⟨_, hmoved.moved _ List.mem_cons_self, rfl⟩⟩
      · unfold Undone
        rw [hmoved.stays k fun m hm heq => ?_]
        obtain rfl := List.mem_singleton.mp hm
        exact hkey heq
    refine .of_moves U rfl rfl rfl (fun rj _ h => (hiff _).mp h)
      (fun rj _ h => .inl ((hiff _).mpr h)) fun rj hrj hun => ?_
    obtain ⟨pl, hpl, hdone⟩ := (hiff _).mp hun
    exact I.live_deliverUnit hn hrec hpl hdone hrj

theorem awaitedSpec_units {op : UnitsOp} (I : Inv p x0 pd C hist c) (U : UndoneLive hist c)
    (hstep : c.step p pd pr pu (.units op) = .ok c') :
    AwaitedSpec hist (c.moves p pd pu (.units op)) c c' (.units op) := by
  cases step_stepped hstep with
  | @units _ out hout =>
    have D := I.units.step I.view_unique hout
    have hmoves : c.moves p pd pu (.units op) = out.moves := by simp only [moves, hout]
    rw [hmoves]
    have A := Inv.after_units D rfl
    refine .of_moves U rfl rfl rfl (fun ri hri hun => ?_) (fun ri hri hun => ?_)
      fun ri hri hun => ?_
    · obtain ⟨pl, hpl, hdone⟩ := hun
      by_cases hmove : ∃ m ∈ out.moves, m.key = ri.key
      · obtain ⟨m, hm, hkey⟩ := hmove
        have hafter := A.moved.moved m hm
        rw [hkey] at hafter
        obtain rfl := Option.some.inj (hafter.symm.trans hpl)
        obtain ⟨pl₀, hpl₀⟩ := Option.ne_none_iff_exists'.mp (place_ne_none I hri)
        exact ⟨pl₀, hpl₀, D.undone m hm hdone pl₀ (by rw [hkey]; exact hpl₀)⟩
      · refine ⟨pl, ?_, hdone⟩
        rw [← hpl]
        exact (A.moved.stays _ fun m hm heq => hmove ⟨m, hm, heq⟩).symm
    · obtain ⟨pl, hpl, hdone⟩ := hun
      by_cases hmove : ∃ m ∈ out.moves, m.key = ri.key
      · obtain ⟨m, hm, hkey⟩ := hmove
        have hafter := A.moved.moved m hm
        rw [hkey] at hafter
        by_cases hmdone : m.place.done = true
        · obtain ⟨-, -, d, hd⟩ := D.moves m hm
          exact .inr ⟨m, hm, I.unique _ _ hd.1 (I.queue ri hri) hkey, hmdone⟩
        · exact .inl ⟨_, hafter, by simpa using hmdone⟩
      · refine .inl ⟨pl, ?_, hdone⟩
        rw [← hpl]
        exact A.moved.stays _ fun m hm heq => hmove ⟨m, hm, heq⟩
    · refine A.live ri hri fun pl hpl => ?_
      obtain ⟨pl', hpl', hdone⟩ := hun
      obtain rfl := Option.some.inj (hpl'.symm.trans hpl)
      exact hdone

/-- A step other than a flush. -/
theorem awaitedSpec {op : CoreOp} (I : Inv p x0 pd C hist c) (U : UndoneLive hist c)
    (hop : op ≠ .flush) (hstep : c.step p pd pr pu op = .ok c') :
    AwaitedSpec hist (c.moves p pd pu op) c c' op := by
  cases step_stepped hstep with
  | front => exact awaitedSpec_front I U hstep
  | flush => exact absurd rfl hop
  | deliverUnit => exact awaitedSpec_deliverUnit I U hstep
  | deliverStoreAck =>
    have hsame : hist ++ c.moves p pd pu .deliverStoreAck = hist := by simp [moves]
    refine .of_moves U rfl rfl rfl (fun rj _ h => ?_) (fun rj _ h => .inl ?_) fun rj h _ => h
    · rwa [hsame] at h
    · rwa [hsame]
  | units => exact awaitedSpec_units I U hstep

/-- A flush that is forwarded leaves nothing to wait for; one that is not changes nothing. -/
theorem awaited_flush (I : Inv p x0 pd C hist c) (U : UndoneLive hist c)
    (hstep : c.step p pd pr pu .flush = .ok c') :
    UndoneLive hist c' ∧
      match FlushManager.forwardUpper c.front.pendingFlush with
      | none => ∀ i, Awaited hist c' i ↔ Awaited hist c i
      | some _ => ∀ i, ¬Awaited hist c' i := by
  cases step_stepped hstep with
  | @flush s' _ _ hs' =>
    obtain ⟨-, -, hcase⟩ := I.ordered.flush_spec hs'
    cases hforward : FlushManager.forwardUpper c.front.pendingFlush with
    | none =>
      simp only [hforward] at hcase ⊢
      obtain ⟨hrename, hund, hlive⟩ := hcase
      refine ⟨fun ri hri hun => ?_, fun i => ?_⟩
      · have hri' : ri ∈ c.front.rename.instQueue := by
          rw [← hrename]
          exact hri
        show ri ∈ s'.undispatched ∨ s'.Live ri
        rw [hund, hlive]
        exact U ri hri' hun
      · show (i ∈ s'.rename.uopQueue ∨ ∃ ri ∈ s'.rename.instQueue, _) ↔ _
        rw [hrename]
        rfl
    | some criteria =>
      simp only [hforward] at hcase ⊢
      obtain ⟨hq, huop, -, -⟩ := hcase
      refine ⟨fun ri hri => ?_, fun i hi => ?_⟩
      · have hri' : ri ∈ s'.rename.instQueue := hri
        rw [hq] at hri'
        cases hri'
      · have hi' : i ∈ s'.rename.uopQueue ∨ ∃ ri ∈ s'.rename.instQueue, ri.inst = i ∧
            Undone hist ri.key := hi
        rw [huop, hq] at hi'
        rcases hi' with hi' | ⟨ri, hri, -⟩
        · cases hi'
        · cases hri

/-! ### Executions -/

/-- What has executed its final pass was in an execution pipe. -/
theorem working_of_executed {u : Units} {T : InstTable} {sb : Scoreboards} {op : UnitsOp}
    {out : UnitsOut} (hsingle : ∀ e, ExecutePipe.Single (u.pipes e))
    (h : u.step pu T sb op = .ok out) (hex : out.executed = some ri) :
    ∃ e, ri ∈ ExecutePipe.working (u.pipes e) := by
  cases Units.step_stepped h with
  | @executeInst e _ _ _ _ _ executed hexe =>
    obtain ⟨rj, hworking, -, ⟨hnone, -⟩ | ⟨hsome, -⟩⟩ :=
      ExecutePipe.executeInst_spec (hsingle e) hexe
    · rw [show executed = none from hnone] at hex
      cases hex
    · obtain rfl := Option.some.inj (hsome.symm.trans hex)
      exact ⟨e, by simp [hworking]⟩
  | _ => cases hex

/-- Only the units execute instructions, and only they issue what is in the LSU. -/
theorem units_of_moves {op : CoreOp} {m : Move} (hstep : c.step p pd pr pu op = .ok c')
    (hm : m ∈ c.moves p pd pu op) (hplace : m.place = .executed ∨ m.place = .lsuIssued) :
    ∃ op' out, c.units.step pu c.front.table c.scoreboards op' = .ok out ∧
      c.moves p pd pu op = out.moves := by
  cases step_stepped hstep with
  | front =>
    rcases List.mem_append.mp hm with hm | hm
    · obtain ⟨ri, -, rfl⟩ := List.mem_map.mp hm
      rcases hplace with h | h <;> cases h
    · obtain ⟨x, -, rfl⟩ := List.mem_map.mp hm
      rcases hplace with h | h <;> cases h
  | flush => cases hm
  | deliverUnit =>
    obtain ⟨x, -, rfl⟩ := List.mem_map.mp hm
    rcases hplace with h | h <;> cases h
  | deliverStoreAck => cases hm
  | @units op out hout => exact ⟨op, out, hout, by simp only [moves, hout]⟩

/-- An instruction that executes was awaited, and is the only one that moves. -/
theorem awaited_of_executed {op : CoreOp} {m : Move} (I : Inv p x0 pd C hist c)
    (hstep : c.step p pd pr pu op = .ok c') (hm : m ∈ c.moves p pd pu op)
    (hplace : m.place = .executed) :
    c.moves p pd pu op = [m] ∧ m.inst ∈ c.front.rename.instQueue ∧ Undone hist m.key := by
  obtain ⟨op', out, hout, hmoves⟩ := units_of_moves hstep hm (.inl hplace)
  have D := I.units.step I.view_unique hout
  rw [hmoves] at hm ⊢
  rcases D.scoreboards with ⟨hnone, -⟩ | ⟨ri, hex, hone, -, hlive, -⟩
  · simp only [UnitsOut.moves, hnone, Option.toList_none, List.map_nil, List.append_nil] at hm
    rcases List.mem_append.mp hm with hm | hm
    · obtain ⟨x, -, rfl⟩ := List.mem_map.mp hm
      cases hplace
    · obtain ⟨x, -, rfl⟩ := List.mem_map.mp hm
      cases hplace
  · rw [hone] at hm ⊢
    obtain rfl := List.mem_singleton.mp hm
    obtain ⟨e, he⟩ := working_of_executed (fun e => (I.units.pipes e).single) hout hex
    exact ⟨rfl, I.ordered.mem_of_live hlive, _, ((I.units.pipes e).working ri he).2.1, rfl⟩

/-- The LSU issues only what Dispatch may send to it. -/
theorem lsu_of_issued {op : CoreOp} {m : Move} (I : Inv p x0 pd C hist c)
    (hstep : c.step p pd pr pu op = .ok c') (hm : m ∈ c.moves p pd pu op)
    (hplace : m.place = .lsuIssued) : .lsu ∈ pd.dispatchers m.inst.inst.pipe := by
  obtain ⟨op', out, hout, hmoves⟩ := units_of_moves hstep hm (.inr hplace)
  have D := I.units.step I.view_unique hout
  rw [hmoves] at hm
  simp only [UnitsOut.moves, List.mem_append, List.mem_map] at hm
  rcases hm with (⟨x, -, rfl⟩ | ⟨ri, -, rfl⟩) | ⟨ri, hri, rfl⟩
  · cases hplace
  · cases hplace
  · rcases D.lsuIssued ri (by simpa using hri) with h | h
    · exact h.1.2
    · exact h.1.1.2

end Steps

end Core

end Olympia
