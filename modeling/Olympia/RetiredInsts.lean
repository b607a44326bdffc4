import Olympia.Core

/-!
# Retired instructions

An instruction that has retired is older than everything that Rename still has beyond the
instructions on their way back from the ROB, and than everything that Decode can still send
(`InStep.RetiredBefore`).  So no flush that the ROB asks for takes it: the request comes from the
instruction that has retired last, and is exclusive.
-/

namespace Olympia

namespace InStep

/-- The instructions a step retires. -/
def retires (pr : RobParams) (s : InStep) : InStepOp → List RenamedInst
  | .retire =>
    match Rob.retireInstructions pr s.rob s.table with
    | .ok (_, _, out) => out.retired
    | .error _ => []
  | _ => []

/-- The instructions have retired before everything else. -/
structure RetiredBefore (rs : List RenamedInst) (s : InStep) : Prop where
  queue : ∀ ri ∈ rs, ri ∈ s.retireAck ∨ ∀ i ∈ s.insts, ri.inst.before i = true
  future : ∀ ri ∈ rs, ∀ j, follows s.lastDecoded j = true → ri.inst.before j = true
  flush : ∀ ri ∈ rs, ∀ c, s.pendingFlush = some c → c.includedInFlush ri.inst = false

theorem retiredBefore_nil (s : InStep) : RetiredBefore [] s :=
  ⟨fun _ h => (by cases h), fun _ h => (by cases h), fun _ h => (by cases h)⟩

theorem RetiredBefore.mono {rs rs' : List RenamedInst} {s : InStep} (H : RetiredBefore rs s)
    (h : ∀ ri ∈ rs', ri ∈ rs) : RetiredBefore rs' s :=
  ⟨fun ri hri => H.queue ri (h ri hri), fun ri hri => H.future ri (h ri hri),
    fun ri hri => H.flush ri (h ri hri)⟩

section

variable {p : RenameParams} {x0 : ℕ} {pd : DispatchParams} {pr : RobParams} {s s' : InStep}
variable {rs : List RenamedInst} {op : InStepOp}

/-- Nothing new is in Rename except what Decode has sent. -/
theorem FrontSpec.insts (F : FrontSpec p pd pr s s' op) {i : Inst} (hi : i ∈ s'.insts) :
    i ∈ s.insts ∨ follows s.lastDecoded i = true ∧ ∃ insts, op = .decoded insts ∧ i ∈ insts := by
  obtain ⟨rest, insts, huop, huop', hinsts, hfollow⟩ := F.uops
  have hold : ∀ j, j ∈ s.rename.uopQueue → j ∈ s.insts := fun j hj =>
    List.mem_append_right _ hj
  rcases List.mem_append.mp hi with hi | hi
  · obtain ⟨ri, hri, rfl⟩ := List.mem_map.mp hi
    rcases F.queue ri hri with hri | hri
    · exact .inl (List.mem_append_left _ (List.mem_map_of_mem hri))
    · refine .inl (hold _ ?_)
      rw [huop]
      exact List.mem_append_left _ (List.mem_map_of_mem hri)
  · rw [huop'] at hi
    rcases List.mem_append.mp hi with hi | hi
    · refine .inl (hold _ ?_)
      rw [huop]
      exact List.mem_append_right _ hi
    · rcases hinsts with rfl | rfl
      · cases hi
      · exact .inr ⟨hfollow i hi, insts, rfl, hi⟩

/-- A step of the front end that neither retires nor acknowledges. -/
theorem RetiredBefore.of_front (H : RetiredBefore rs s) (F : FrontSpec p pd pr s s' op)
    (hack : s'.retireAck = s.retireAck) (hflush : s'.pendingFlush = s.pendingFlush) :
    RetiredBefore rs s' := by
  refine ⟨fun ri hri => ?_, fun ri hri j hj => H.future ri hri j (F.future j hj), ?_⟩
  · rw [hack]
    refine (H.queue ri hri).imp_right fun hall i hi => ?_
    rcases F.insts hi with hi | ⟨hi, -⟩
    · exact hall i hi
    · exact H.future ri hri i hi
  · rw [hflush]
    exact H.flush

/-- The instructions on the port are older than all behind them. -/
theorem Ordered.before_of_acked (O : Ordered p x0 s) {ri : RenamedInst} (hri : ri ∈ s.retireAck)
    {i : Inst} (hi : i ∈ s.unretired.map RenamedInst.inst ++ s.rename.uopQueue) :
    ri.inst.before i = true := by
  have horder := O.order
  unfold InStep.insts at horder
  rw [O.queue, List.map_append, List.append_assoc, List.pairwise_append] at horder
  exact horder.2.2 _ (List.mem_map_of_mem hri) i hi

theorem RetiredBefore.deliverAck (O : Ordered p x0 s) (H : RetiredBefore rs s)
    (hstep : s.step p pd pr .deliverAck = .ok s') : RetiredBefore rs s' := by
  have F := FrontSpec.deliverAck O hstep
  have O' := O.step hstep
  obtain ⟨rest, insts, huop, huop', hinsts, -⟩ := F.uops
  have huops : s'.rename.uopQueue = s.rename.uopQueue := by
    rcases hinsts with rfl | hinsts
    · rw [huop, huop']
      simp [renames]
    · cases hinsts
  cases step_stepped hstep
  refine ⟨fun ri hri => .inr fun i hi => ?_, H.future, H.flush⟩
  rcases H.queue ri hri with hack | hall
  · refine O.before_of_acked hack ?_
    unfold InStep.insts at hi
    rw [O'.queue, huops] at hi
    exact hi
  · rcases F.insts hi with hi | ⟨-, insts, hop, -⟩
    · exact hall i hi
    · cases hop

/-- A flush that is asked for is exclusive and names the instruction that has retired last. -/
theorem RetiredBefore.retire (O : Ordered p x0 s) (H : RetiredBefore rs s)
    (hstep : s.step p pd pr .retire = .ok s') :
    RetiredBefore (rs ++ s.retires pr .retire) s' ∧
      ∀ ri ∈ s.retires pr .retire, ri ∈ s.rename.instQueue := by
  cases step_stepped hstep with
  | @retire r T out _ hr =>
    have hretires : s.retires pr .retire = out.retired := by simp only [retires, hr]
    rw [hretires]
    obtain ⟨R, hidle⟩ := Rob.retireInstructions_spec hr
    have hun : s.unretired = out.retired ++
        (r.reorderBuffer ++ s.toRob ++ s.dispatch.dispatchQueue ++ s.toDispatch) := by
      simp [unretired, R.buffer]
    have hqueue : ∀ ri ∈ out.retired, ri ∈ s.rename.instQueue := by
      intro ri hri
      rw [O.queue, hun]
      simp [hri]
    refine ⟨⟨fun ri hri => ?_, fun ri hri j hj => ?_, fun ri hri c hc => ?_⟩, hqueue⟩
    · rcases List.mem_append.mp hri with hri | hri
      · exact (H.queue ri hri).imp (List.mem_append_left _) id
      · exact .inl (List.mem_append_right _ hri)
    · rcases List.mem_append.mp hri with hri | hri
      · exact H.future ri hri j hj
      · exact O.youngest _ (Ordered.mem_insts_of_queue (hqueue ri hri)) j hj
    · have hcov := O.covers
      unfold FlushCovers at hcov
      rcases hpend : s.pendingFlush with _ | c₀
      · rw [hpend] at hcov
        rcases R.flush with ⟨-, hfl⟩ | ⟨front, rl, cause, c', hnew, hcause, hmake, -, hfl⟩
        · have hnone : out.flush = none := hfl
          simp only [hpend, hnone] at hc
          cases hc
        · have hlast : rl ∈ out.retired := by simp [hnew]
          obtain ⟨hexcl, hid, -⟩ := O.criteria_of_flushCause (hqueue rl hlast) hcause hmake
          have hsame : c = c' := by
            simp only [hfl, FlushManager.receiveFlush, hpend] at hc
            exact (Option.some.inj hc).symm
          subst hsame
          -- all that have retired are not younger than the last
          have hle : ri.inst.uniqueId ≤ rl.inst.uniqueId := by
            have hle_of_before : ri.inst.before rl.inst = true →
                ri.inst.uniqueId ≤ rl.inst.uniqueId := by
              intro hb
              rcases Inst.before_iff.mp hb with h | h
              · exact h.le
              · exact h.1.le
            rcases List.mem_append.mp hri with hri | hri
            · refine hle_of_before ?_
              rcases H.queue ri hri with hack | hall
              · refine O.before_of_acked hack (List.mem_append_left _ (List.mem_map_of_mem ?_))
                rw [hun]
                exact List.mem_append_left _ hlast
              · exact hall _ (Ordered.mem_insts_of_queue (hqueue rl hlast))
            · rw [hnew] at hri
              rcases List.mem_append.mp hri with hri | hri
              · have horder := O.order
                unfold InStep.insts at horder
                rw [O.queue, hun, hnew] at horder
                have hsplit : (s.retireAck ++ (front ++ [rl] ++ (r.reorderBuffer ++ s.toRob ++
                    s.dispatch.dispatchQueue ++ s.toDispatch))).map RenamedInst.inst ++
                    s.rename.uopQueue
                    = (s.retireAck ++ front).map RenamedInst.inst ++ rl.inst ::
                      ((r.reorderBuffer ++ s.toRob ++ s.dispatch.dispatchQueue ++
                        s.toDispatch).map RenamedInst.inst ++ s.rename.uopQueue) := by
                  simp
                rw [hsplit, List.pairwise_append] at horder
                refine hle_of_before (horder.2.2 _ ?_ _ List.mem_cons_self)
                exact List.mem_map_of_mem (List.mem_append_right _ hri)
              · obtain rfl := List.mem_singleton.mp hri
                exact le_rfl
          simp only [FlushingCriteria.includedInFlush, FlushingCriteria.includesId, hexcl, hid]
          simpa using hle
      · rw [hpend] at hcov
        obtain ⟨-, -, rfl⟩ := hidle hcov.1
        simp only [List.append_nil] at hri hc
        exact H.flush ri hri c hc

/-- What a step of the front end that does not retire leaves alone. -/
structure Still (pr : RobParams) (s s' : InStep) (op : InStepOp) : Prop where
  expected : s'.rob.expectedProgramID = s.rob.expectedProgramID
  pendingFlush : s'.pendingFlush = s.pendingFlush
  retires : s.retires pr op = []
  lastDecoded : (∀ insts, op ≠ .decoded insts) → s'.lastDecoded = s.lastDecoded
  retireAck : op ≠ .deliverAck → s'.retireAck = s.retireAck

theorem still_of_front (hop : op.isFront = true) (hretire : op ≠ .retire)
    (hstep : s.step p pd pr op = .ok s') : Still pr s s' op := by
  cases step_stepped hstep with
  | flush | noFlush | complete => cases hop
  | retire => exact absurd rfl hretire
  | @decoded insts => exact ⟨rfl, rfl, rfl, fun h => absurd rfl (h insts), fun _ => rfl⟩
  | deliverAck => exact ⟨rfl, rfl, rfl, fun _ => rfl, fun h => absurd rfl h⟩
  | _ => exact ⟨rfl, rfl, rfl, fun _ => rfl, fun _ => rfl⟩

/-- The steps of the front end. -/
theorem RetiredBefore.front (O : Ordered p x0 s) (H : RetiredBefore rs s)
    (hop : op.isFront = true) (hstep : s.step p pd pr op = .ok s') :
    RetiredBefore (rs ++ s.retires pr op) s' := by
  by_cases hretire : op = .retire
  · subst hretire
    exact (H.retire O hstep).1
  · have S := still_of_front hop hretire hstep
    rw [S.retires, List.append_nil]
    by_cases hack : op = .deliverAck
    · subst hack
      exact H.deliverAck O hstep
    · exact H.of_front (O.frontSpec hop hstep) (S.retireAck hack) S.pendingFlush

theorem RetiredBefore.flush_step (O : Ordered p x0 s) (H : RetiredBefore rs s)
    (hstep : s.step p pd pr .flush = .ok s') : RetiredBefore rs s' := by
  obtain ⟨hlast, -, hcase⟩ := O.flush_spec hstep
  have hfields : s'.retireAck = s.retireAck ∧ s'.pendingFlush = none := by
    cases step_stepped hstep <;> exact ⟨rfl, rfl⟩
  obtain ⟨hack, hpend⟩ := hfields
  refine ⟨fun ri hri => ?_, by rw [hlast]; exact H.future, by rw [hpend]; simp⟩
  rw [hack]
  refine (H.queue ri hri).imp_right fun hall i hi => ?_
  cases hforward : FlushManager.forwardUpper s.pendingFlush with
  | none =>
    rw [hforward] at hcase
    refine hall i ?_
    unfold InStep.insts at hi ⊢
    rwa [hcase.1] at hi
  | some c =>
    rw [hforward] at hcase
    unfold InStep.insts at hi
    rw [hcase.1, hcase.2.1] at hi
    cases hi

end

end InStep

namespace Core

/-- The instructions that a step retires. -/
def retires (pr : RobParams) (c : Core) : CoreOp → List RenamedInst
  | .front op => c.front.retires pr op
  | _ => []

variable {p : RenameParams} {x0 : ℕ} {pd : DispatchParams} {pr : RobParams} {pu : UnitsParams}
variable {C : Inst → Prop} {hist : List Move} {c c' : Core} {rs : List RenamedInst} {op : CoreOp}

/-- A step of the units does not touch the queues of the front end. -/
structure FrontKept (s s' : InStep) : Prop where
  insts : s'.insts = s.insts
  retireAck : s'.retireAck = s.retireAck
  lastDecoded : s'.lastDecoded = s.lastDecoded
  pendingFlush : s'.pendingFlush = s.pendingFlush

theorem FrontKept.retiredBefore {s s' : InStep} (K : FrontKept s s') (H : s.RetiredBefore rs) :
    s'.RetiredBefore rs := by
  constructor
  · rw [K.retireAck, K.insts]
    exact H.queue
  · rw [K.lastDecoded]
    exact H.future
  · rw [K.pendingFlush]
    exact H.flush

theorem frontKept_step (hfront : ∀ op', op ≠ .front op') (hflush : op ≠ .flush)
    (hstep : c.step p pd pr pu op = .ok c') : FrontKept c.front c'.front := by
  cases step_stepped hstep with
  | @front op => exact absurd rfl (hfront op)
  | flush => exact absurd rfl hflush
  | _ => exact ⟨rfl, rfl, rfl, rfl⟩

/-- What a step retires was in Rename, and the instructions that have retired stay older than all
others. -/
theorem retiredBefore_step (I : Inv p x0 pd C hist c) (H : c.front.RetiredBefore rs)
    (hstep : c.step p pd pr pu op = .ok c') :
    c'.front.RetiredBefore (rs ++ c.retires pr op) ∧
      ∀ ri ∈ c.retires pr op, ri ∈ c.front.rename.instQueue := by
  cases step_stepped hstep with
  | @front op _ hop hs' =>
    refine ⟨H.front I.ordered hop hs', fun ri hri => ?_⟩
    cases op with
    | retire => exact (H.retire I.ordered hs').2 ri hri
    | _ => cases hri
  | flush _ _ hs' =>
    exact ⟨by simpa [retires] using H.flush_step I.ordered hs', fun _ h => (by cases h)⟩
  | _ =>
    have K := frontKept_step (by simp) (by simp) hstep
    exact ⟨by simpa [retires] using K.retiredBefore H, fun _ h => (by cases h)⟩

/-- A step other than a flush brings only what Decode has sent. -/
theorem insts_step (I : Inv p x0 pd C hist c) (hflush : op ≠ .flush)
    (hstep : c.step p pd pr pu op = .ok c') {i : Inst} (hi : i ∈ c'.front.insts) :
    i ∈ c.front.insts ∨ ∃ insts, op = .front (.decoded insts) ∧ i ∈ insts := by
  cases step_stepped hstep with
  | front hop hs' =>
    rcases (I.ordered.frontSpec hop hs').insts hi with hi | ⟨-, insts, rfl, hmem⟩
    · exact .inl hi
    · exact .inr ⟨insts, rfl, hmem⟩
  | flush => exact absurd rfl hflush
  | _ =>
    rw [(frontKept_step (by simp) (by simp) hstep).insts] at hi
    exact .inl hi

end Core

end Olympia
