import Olympia.RetiredInsts

/-!
# The flow of instructions through Rename, Dispatch and the ROB

What has not retired is in the ROB, on its way there, or not dispatched yet.  `FlowSpec` says what a
step of the front end does to these: the ROB gets what Dispatch sends and loses what retires, and
only what retires gets the status.
-/

namespace Olympia

namespace InStep

/-- What the ROB has, or will have. -/
def inRob (s : InStep) : List RenamedInst := s.rob.reorderBuffer ++ s.toRob

/-- What a step of the front end does to the instructions of the ROB. -/
structure FlowSpec (p : RenameParams) (pd : DispatchParams) (pr : RobParams) (s s' : InStep)
    (op : InStepOp) : Prop where
  inRob : s.inRob ++ (s.sends pd op).map Prod.snd = s.retires pr op ++ s'.inRob
  stores : s.stores pr op = (s.retires pr op).filter fun ri => ri.inst.isStore
  phase : op ≠ .nextCycle → s'.phase = s.phase
  retired : ∀ k, s'.table.status k = .retired →
    s.table.status k = .retired ∨ k ∈ (s.retires pr op).map RenamedInst.key
  renamed : ∀ ri ∈ s.renames p op, s'.table.status ri.key ≠ .retired

variable {p : RenameParams} {x0 : ℕ} {pd : DispatchParams} {pr : RobParams} {s s' : InStep}
variable {op : InStepOp}

namespace FlowSpec

/-- A step that neither renames nor dispatches nor retires. -/
theorem of_still (hrenames : s.renames p op = []) (hsends : s.sends pd op = [])
    (hstores : s.stores pr op = []) (hretires : s.retires pr op = []) (hrob : s'.inRob = s.inRob)
    (hphase : op ≠ .nextCycle → s'.phase = s.phase)
    (hstatus : ∀ k, s'.table.status k = .retired → s.table.status k = .retired) :
    FlowSpec p pd pr s s' op where
  inRob := by simp [hsends, hretires, hrob]
  stores := by simp [hstores, hretires]
  phase := hphase
  retired k hk := .inl (hstatus k hk)
  renamed := by simp [hrenames]

theorem rename (hstep : s.step p pd pr .rename = .ok s') : FlowSpec p pd pr s s' .rename := by
  cases step_stepped hstep with
  | noRename _ hsched =>
    have hrenames : s.renames p .rename = [] := by
      simp [renames, hsched]
    exact .of_still hrenames rfl rfl rfl rfl (fun _ => rfl) fun _ hk => hk
  | @rename stall r out _ hsched hren =>
    have hrenames : s.renames p .rename = out.dispatchGroup := by
      simp only [renames, hsched, if_true, hren]
    refine ⟨by simp [sends, retires, InStep.inRob], rfl, fun _ => rfl, fun k hk => ?_,
      fun ri hri => ?_⟩
    · simp only [InstTable.setStatuses] at hk
      split at hk
      · cases hk
      · exact .inl hk
    · rw [hrenames] at hri
      simp only [InstTable.setStatuses, if_pos (List.mem_map_of_mem (f := RenamedInst.key) hri)]
      simp

theorem dispatch (H : Ordered p x0 s) (hstep : s.step p pd pr .dispatch = .ok s') :
    FlowSpec p pd pr s s' .dispatch := by
  cases step_stepped hstep with
  | @dispatch d T out _ hdisp =>
    have D := Dispatch.dispatchInstructions_spec H.rob_lt H.unit_lt hdisp
    have hsends : s.sends pd .dispatch = out.sends := by simp only [sends, hdisp]
    refine ⟨?_, rfl, fun _ => rfl, fun k hk => .inl ?_, by simp [renames]⟩
    · rw [hsends, D.sends_new]
      simp [InStep.inRob, retires]
    · rw [D.status] at hk
      dsimp only at hk
      split at hk
      · cases hk
      · exact hk

theorem retire (hstep : s.step p pd pr .retire = .ok s') : FlowSpec p pd pr s s' .retire := by
  cases step_stepped hstep with
  | @retire r T out _ hr =>
    have hretires : s.retires pr .retire = out.retired := by simp only [retires, hr]
    have hstores : s.stores pr .retire = out.storeAcks := by simp only [InStep.stores, hr]
    obtain ⟨R, -⟩ := Rob.retireInstructions_spec hr
    refine ⟨?_, ?_, fun _ => rfl, fun k hk => ?_, fun _ h => by cases h⟩
    · rw [hretires]
      simp [InStep.inRob, sends, R.buffer]
    · rw [hretires, hstores, Rob.retireInstructions_storeAcks hr]
    · rw [hretires]
      rw [R.status] at hk
      dsimp only at hk
      split at hk
      · exact .inr ‹_›
      · exact .inl hk

end FlowSpec

theorem Ordered.flowSpec (H : Ordered p x0 s) (hop : op.isFront = true)
    (hstep : s.step p pd pr op = .ok s') : FlowSpec p pd pr s s' op := by
  cases step_stepped hstep with
  | rename | noRename => exact .rename hstep
  | dispatch => exact .dispatch H hstep
  | retire => exact .retire hstep
  | flush | noFlush | complete => cases hop
  | decoded =>
    refine .of_still rfl rfl rfl rfl rfl (fun _ => rfl) fun k hk => ?_
    dsimp only at hk
    split at hk
    · cases hk
    · exact hk
  | deliverDispatched =>
    exact .of_still rfl rfl rfl rfl (by simp [inRob]) (fun _ => rfl) fun _ hk => hk
  | nextCycle =>
    exact .of_still rfl rfl rfl rfl rfl (fun h => absurd rfl h) fun _ hk => hk
  | _ => exact .of_still rfl rfl rfl rfl rfl (fun _ => rfl) fun _ hk => hk

/-- What has not retired goes on, except for what retires now. -/
theorem FlowSpec.unretired (F : FrontSpec p pd pr s s' op) (L : FlowSpec p pd pr s s' op) :
    s.unretired ++ s.renames p op = s.retires pr op ++ s'.unretired := by
  have hsplit : ∀ t : InStep, t.unretired = t.inRob ++ t.undispatched := by
    intro t
    simp [InStep.unretired, InStep.inRob, InStep.undispatched]
  calc s.unretired ++ s.renames p op
      = s.inRob ++ (s.undispatched ++ s.renames p op) := by rw [hsplit, List.append_assoc]
    _ = s.inRob ++ (s.sends pd op).map Prod.snd ++ s'.undispatched := by
        rw [← F.undispatched, List.append_assoc]
    _ = s.retires pr op ++ s'.unretired := by rw [L.inRob, hsplit s', List.append_assoc]

/-- A flush takes everything that has not retired, or changes nothing. -/
theorem Ordered.flush_unretired (H : Ordered p x0 s) (hstep : s.step p pd pr .flush = .ok s') :
    s'.phase = .tick ∧
      match FlushManager.forwardUpper s.pendingFlush with
      | none => s'.inRob = s.inRob ∧ s'.unretired = s.unretired ∧ s'.table = s.table
      | some c => s'.unretired = [] ∧
        ∀ ri ∈ s.unretired, c.includedInFlush ri.inst = true := by
  have hqueue := (H.step hstep).queue
  obtain ⟨-, -, hcase⟩ := H.flush_spec hstep
  cases step_stepped hstep with
  | noFlush _ _ hforward =>
    rw [hforward]
    exact ⟨rfl, rfl, rfl, rfl⟩
  | flush _ _ hforward _ _ =>
    rw [hforward] at hcase ⊢
    rw [hcase.1] at hqueue
    have hun := (List.append_eq_nil_iff.mp hqueue.symm).2
    have hcov := H.covers
    unfold FlushCovers at hcov
    rw [← H.forwardUpper_eq, hforward] at hcov
    exact ⟨rfl, hun, hcov.2.2.1⟩

theorem FlowSpec.retires_front (F : FrontSpec p pd pr s s' op) (L : FlowSpec p pd pr s s' op) :
    ∃ rest, s.unretired = s.retires pr op ++ rest := by
  cases op with
  | retire =>
    have hflow := L.unretired F
    simp only [renames, List.append_nil] at hflow
    exact ⟨_, hflow⟩
  | _ => exact ⟨_, rfl⟩

/-- A step of the front end retires what is in the ROB, and nothing else. -/
theorem Ordered.pending_front (H : Ordered p x0 s) (F : FrontSpec p pd pr s s' op)
    (L : FlowSpec p pd pr s s' op)
    (hpending : ∀ ri ∈ s.unretired, s.table.status ri.key ≠ .retired) :
    ∀ ri ∈ s'.unretired, s'.table.status ri.key ≠ .retired := by
  intro ri hri hst
  have hflow := L.unretired F
  have hmem : ri ∈ s.unretired ++ s.renames p op := by
    rw [hflow]
    exact List.mem_append_right _ hri
  rcases List.mem_append.mp hmem with hold | hnew
  · rcases L.retired ri.key hst with hst | hkey
    · exact hpending ri hold hst
    · -- what retires is older than what stays
      obtain ⟨rj, hrj, hkey⟩ := List.mem_map.mp hkey
      obtain ⟨rest, insts, huop, -, -, -⟩ := F.uops
      have hsplit : s.insts = s.retireAck.map RenamedInst.inst ++
          ((s.retires pr op).map RenamedInst.inst ++ s'.unretired.map RenamedInst.inst) ++
            rest := by
        rw [← List.map_append, ← hflow]
        simp [InStep.insts, H.queue, huop]
      have horder := H.order
      rw [hsplit, List.pairwise_append, List.pairwise_append, List.pairwise_append] at horder
      exact Inst.key_ne_of_before (horder.1.2.1.2.2 rj.inst (List.mem_map_of_mem hrj) ri.inst
        (List.mem_map_of_mem hri)) hkey
  · exact L.renamed ri hnew hst

end InStep

end Olympia
