import Olympia.InStep
import Olympia.Execute.Held

/-!
# The core behind Decode

Rename, Dispatch and the ROB (`InStep`) together with the execution units (`Units`), which now
complete the instructions.  Dispatch sends each instruction to a unit as well as to the ROB, the
ROB acknowledges retired stores to the LSU, and the units read and set the statuses and the
scoreboards of Rename.

A run carries the history of the moves of its instructions (`Core.moves`).  `Core.Inv` joins the
invariant of the front end to what the units hold: an instruction that is known to a unit was
renamed once, is at one place, and as long as it has not been issued it is in the reorder buffer
and not completed.  So no register it reads is taken from a free list and no bit it needs is
cleared.
-/

namespace Olympia

/-! ## What the front end does -/

/-- The steps of the three units, without flushes, which the units share, and completions, which
are theirs. -/
def InStepOp.isFront : InStepOp → Bool
  | .flush => false
  | .complete _ _ => false
  | _ => true

namespace InStep

/-- The instructions a step renames. -/
def renames (p : RenameParams) (s : InStep) : InStepOp → List RenamedInst
  | .rename =>
    let (rename, scheduled) := scheduleRenaming p s.rename
    if scheduled then
      match renameInstructions p rename with
      | .ok (_, out) => out.dispatchGroup
      | .error _ => []
    else []
  | _ => []

/-- The instructions a step sends to the units. -/
def sends (pd : DispatchParams) (s : InStep) : InStepOp → List (UnitId × RenamedInst)
  | .dispatch =>
    match Dispatch.dispatchInstructions pd s.dispatch s.table with
    | .ok (_, _, out) => out.sends
    | .error _ => []
  | _ => []

/-- The retired stores a step acknowledges to the LSU. -/
def stores (pr : RobParams) (s : InStep) : InStepOp → List RenamedInst
  | .retire =>
    match Rob.retireInstructions pr s.rob s.table with
    | .ok (_, _, out) => out.storeAcks
    | .error _ => []
  | _ => []

/-- The instruction is in the reorder buffer, or on its way there, and not completed. -/
def Live (s : InStep) (ri : RenamedInst) : Prop :=
  ri ∈ s.rob.reorderBuffer ++ s.toRob ∧ s.table.status ri.key ≠ .completed ∧
    s.table.status ri.key ≠ .retired

/-- What is renamed and not dispatched. -/
def undispatched (s : InStep) : List RenamedInst := s.dispatch.dispatchQueue ++ s.toDispatch

variable {p : RenameParams} {x0 : ℕ} {pd : DispatchParams} {pr : RobParams} {s s' : InStep}

theorem Ordered.mem_of_live {ri : RenamedInst} (H : Ordered p x0 s) (h : s.Live ri) :
    ri ∈ s.rename.instQueue := by
  rw [H.queue]
  have hmem := h.1
  simp only [unretired, List.mem_append] at hmem ⊢
  tauto

theorem Ordered.mem_of_undispatched {ri : RenamedInst} (H : Ordered p x0 s)
    (h : ri ∈ s.undispatched) : ri ∈ s.rename.instQueue := by
  rw [H.queue]
  simp only [undispatched, unretired, List.mem_append] at h ⊢
  tauto

/-- What an instruction takes from the free list is used by none of the others. -/
def Apart (ri rj : RenamedInst) : Prop :=
  ∀ f, ∀ q ∈ rj.destMask f, q ∉ ri.srcMask f ∧ q ∉ ri.dataMask f ∧ q ∉ ri.destMask f

/-- What a step of the front end has done. -/
structure FrontSpec (p : RenameParams) (pd : DispatchParams) (pr : RobParams) (s s' : InStep)
    (op : InStepOp) : Prop where
  live : ∀ ri, s.Live ri → s'.Live ri
  queue : ∀ ri ∈ s'.rename.instQueue, ri ∈ s.rename.instQueue ∨ ri ∈ s.renames p op
  undispatched : (s.sends pd op).map Prod.snd ++ s'.undispatched =
    s.undispatched ++ s.renames p op
  renamed : ∀ ri ∈ s.renames p op, ri ∈ s'.rename.instQueue
  uops : ∃ rest insts, s.rename.uopQueue = (s.renames p op).map RenamedInst.inst ++ rest ∧
    s'.rename.uopQueue = rest ++ insts ∧ (insts = [] ∨ op = .decoded insts) ∧
    ∀ i ∈ insts, follows s.lastDecoded i = true
  future : ∀ j, follows s'.lastDecoded j = true → follows s.lastDecoded j = true
  sent : ∀ m ∈ s.sends pd op,
    m.2 ∈ s.undispatched ∧ s'.Live m.2 ∧ m.1 ∈ pd.dispatchers m.2.inst.pipe
  stored : ∀ ri ∈ s.stores pr op, ri ∈ s.rename.instQueue
  apart : ∀ ri ∈ s.rename.instQueue, ∀ rj ∈ s.renames p op, Apart ri rj
  pairwise : (s.renames p op).Pairwise Apart
  tables : RenamedTables (s.renames p op) s.rename.toRenameTables s'.rename.toRenameTables

namespace FrontSpec

/-- A step that neither renames nor dispatches nor retires. -/
theorem of_still {op : InStepOp} (hrenames : s.renames p op = []) (hsends : s.sends pd op = [])
    (hstores : s.stores pr op = []) (hlive : ∀ ri, s.Live ri → s'.Live ri)
    (htables : s'.rename.toRenameTables = s.rename.toRenameTables)
    (huops : s'.rename.uopQueue = s.rename.uopQueue)
    (hundispatched : s'.undispatched = s.undispatched)
    (hlast : s'.lastDecoded = s.lastDecoded) : FrontSpec p pd pr s s' op where
  live := hlive
  queue ri hri := .inl (by rw [← htables]; exact hri)
  undispatched := by simp [hrenames, hsends, hundispatched]
  renamed := by simp [hrenames]
  uops := ⟨s.rename.uopQueue, [], by simp [hrenames], by simp [huops], .inl rfl, by simp⟩
  future j hj := by rw [← hlast]; exact hj
  sent := by simp [hsends]
  stored := by simp [hstores]
  apart := by simp [hrenames]
  pairwise := by simp [hrenames]
  tables := by
    rw [hrenames, htables]
    exact .refl _

/-- A live instruction stays live when only other statuses change, or to one that is not
final. -/
theorem live_of_status {T : InstTable} {ri : RenamedInst} (h : s.Live ri)
    (hT : T.status ri.key = s.table.status ri.key ∨
      (T.status ri.key ≠ .completed ∧ T.status ri.key ≠ .retired)) :
    T.status ri.key ≠ .completed ∧ T.status ri.key ≠ .retired := by
  rcases hT with hT | hT
  · rw [hT]
    exact h.2
  · exact hT

theorem decoded {insts : List Inst} (hstep : s.step p pd pr (.decoded insts) = .ok s') :
    FrontSpec p pd pr s s' (.decoded insts) := by
  cases step_stepped hstep with
  | decoded _ horder =>
    obtain ⟨-, hfol, hlast⟩ := inProgramOrder_spec horder
    refine ⟨fun ri hri => ⟨hri.1, live_of_status hri ?_⟩, fun ri => .inl, by simp [sends, renames,
      InStep.undispatched], by simp [renames], ⟨s.rename.uopQueue, insts, rfl, rfl, .inr rfl, hfol⟩,
      fun j hj => (hlast j hj).2, by simp [sends], by simp [stores], by simp [renames],
      by simp [renames], .refl _⟩
    dsimp only
    split
    · exact .inr ⟨by simp, by simp⟩
    · exact .inl rfl

theorem deliverAck (H : Ordered p x0 s) (hstep : s.step p pd pr .deliverAck = .ok s') :
    FrontSpec p pd pr s s' .deliverAck := by
  cases step_stepped hstep with
  | @deliverAck t _ hack =>
    obtain ⟨h, Ht⟩ := H.tables
    obtain ⟨t', ht', -, hq, hmap, hsb⟩ := TablesInv.retireMany_spec
      (fun ri => s.table.status ri.key) s.retireAck Ht H.queue (retireMany_status hack)
    obtain rfl : t = t' := Except.ok.inj (hack.symm.trans ht')
    have hsub : ∀ ri ∈ t.instQueue, ri ∈ s.rename.instQueue := by
      intro ri hri
      rw [H.queue]
      rw [hq] at hri
      exact List.mem_append_right _ hri
    refine ⟨fun ri hri => hri, fun ri hri => .inl (hsub ri hri),
      by simp [sends, renames, InStep.undispatched], by simp [renames],
      ⟨s.rename.uopQueue, [], rfl, by simp, .inl rfl, by simp⟩,
      fun j hj => hj, by simp [sends], by simp [stores], by simp [renames], by simp [renames], ?_⟩
    refine ⟨fun f q => ?_, fun f q hq => .inl ?_⟩
    · simp [renames, RenameTables.scoreboards, hsb]
    · rcases mem_refs_iff.mp hq with ⟨a, ha, rfl⟩ | ⟨d, hd, rfl, rfl⟩
      · rw [hmap]
        exact mem_refs_of_map ha
      · obtain ⟨ri, hri, hd⟩ := List.mem_flatMap.mp hd
        exact mem_refs_of_prevDest (List.mem_flatMap.mpr ⟨ri, hsub ri hri, hd⟩)

theorem rename (H : Ordered p x0 s) (hstep : s.step p pd pr .rename = .ok s') :
    FrontSpec p pd pr s s' .rename := by
  cases step_stepped hstep with
  | noRename _ hsched =>
    have hrenames : s.renames p .rename = [] := by
      simp [renames, hsched]
    exact .of_still hrenames rfl rfl (fun ri hri => hri) rfl rfl rfl rfl
  | @rename stall r out _ hsched hren =>
    have hrenames : s.renames p .rename = out.dispatchGroup := by
      simp only [renames, hsched, if_true, hren]
    obtain ⟨h, Ht⟩ := H.tables
    obtain ⟨Ht', hq, huop, -, -, -, D⟩ := renameInstructions_spec
      (s := { s.rename with currentStall := stall }) Ht hren
    have hq' : r.instQueue = s.rename.instQueue ++ out.dispatchGroup := hq
    have huop' : s.rename.uopQueue = out.dispatchGroup.map RenamedInst.inst ++ r.uopQueue := huop
    have hfresh := Ht'.fresh
    rw [hq', List.pairwise_append] at hfresh
    refine ⟨fun ri hri => ⟨hri.1, live_of_status hri ?_⟩, fun ri hri => ?_, ?_, fun ri hri => ?_,
      ⟨r.uopQueue, [], by rw [hrenames, huop'], by simp, .inl rfl, by simp⟩, fun j hj => hj,
      by simp [sends], by simp [stores], ?_, ?_, ?_⟩
    · simp only [InstTable.setStatuses]
      split
      · exact .inr ⟨by simp, by simp⟩
      · exact .inl rfl
    · rw [hrenames]
      exact List.mem_append.mp (by rw [← hq']; exact hri)
    · simp [sends, hrenames, InStep.undispatched]
    · rw [hrenames] at hri
      rw [hq']
      exact List.mem_append_right _ hri
    · rw [hrenames]
      exact hfresh.2.2
    · rw [hrenames]
      exact hfresh.2.1
    · rw [hrenames]
      exact D

theorem dispatch (H : Ordered p x0 s) (hstep : s.step p pd pr .dispatch = .ok s') :
    FrontSpec p pd pr s s' .dispatch := by
  cases step_stepped hstep with
  | @dispatch d T out _ hdisp =>
    have D := Dispatch.dispatchInstructions_spec H.rob_lt H.unit_lt hdisp
    have hsends : s.sends pd .dispatch = out.sends := by simp only [sends, hdisp]
    have hstatus : ∀ k, T.status k = s.table.status k ∨
        (T.status k ≠ .completed ∧ T.status k ≠ .retired) := by
      intro k
      rw [D.status]
      dsimp only
      split
      · exact .inr ⟨by simp, by simp⟩
      · exact .inl rfl
    refine ⟨fun ri hri => ⟨?_, live_of_status hri (hstatus _)⟩, fun ri => .inl, ?_,
      by simp [renames], ⟨s.rename.uopQueue, [], rfl, by simp, .inl rfl, by simp⟩, fun j hj => hj,
      fun m hm => ?_, by simp [stores], by simp [renames], by simp [renames], .refl _⟩
    · have hmem := hri.1
      simp only [List.mem_append] at hmem ⊢
      tauto
    · simp [hsends, D.sends_new, InStep.undispatched, renames, D.queue]
    · rw [hsends] at hm
      have hnew : m.2 ∈ out.toRob := by
        rw [← D.sends_new]
        exact List.mem_map_of_mem hm
      refine ⟨?_, ⟨?_, ?_⟩, D.serves m hm⟩
      · exact List.mem_append_left _ (by rw [D.queue]; exact List.mem_append_left _ hnew)
      · exact List.mem_append_right _ (List.mem_append_right _ hnew)
      · show T.status _ ≠ _ ∧ T.status _ ≠ _
        rw [D.status]
        simp only [List.mem_map_of_mem hnew, if_true]
        exact ⟨by simp, by simp⟩

theorem retire (H : Ordered p x0 s) (hstep : s.step p pd pr .retire = .ok s') :
    FrontSpec p pd pr s s' .retire := by
  cases step_stepped hstep with
  | @retire r T out _ hret =>
    obtain ⟨R, -⟩ := Rob.retireInstructions_spec hret
    have hstores : s.stores pr .retire = out.storeAcks := by simp only [stores, hret]
    refine ⟨fun ri hri => ?_, fun ri => .inl, by simp [sends, renames, InStep.undispatched],
      by simp [renames], ⟨s.rename.uopQueue, [], rfl, by simp, .inl rfl, by simp⟩, fun j hj => hj,
      by simp [sends], fun ri hri => ?_, by simp [renames], by simp [renames], .refl _⟩
    · -- what retires has been completed, so it was not live
      have hkey : ri.key ∉ out.retired.map RenamedInst.key := by
        intro hmem
        obtain ⟨rj, hrj, heq⟩ := List.mem_map.mp hmem
        exact hri.2.1 (heq ▸ R.completed rj hrj)
      refine ⟨?_, live_of_status hri (.inl ?_)⟩
      · have hmem := hri.1
        rw [R.buffer] at hmem
        simp only [List.mem_append] at hmem ⊢
        rcases hmem with (hmem | hmem) | hmem
        · exact absurd (List.mem_map_of_mem hmem) hkey
        · exact .inl hmem
        · exact .inr hmem
      · rw [R.status]
        simp only [hkey, if_false]
    · rw [hstores] at hri
      rcases R.storeAcks ri hri with hri | hri
      · simp at hri
      · rw [H.queue]
        simp [unretired, R.buffer, hri]

end FrontSpec

/-- Every step of the front end is one of these. -/
theorem Ordered.frontSpec {op : InStepOp} (H : Ordered p x0 s) (hop : op.isFront = true)
    (hstep : s.step p pd pr op = .ok s') : FrontSpec p pd pr s s' op := by
  cases step_stepped hstep with
  | decoded => exact .decoded hstep
  | deliverAck => exact .deliverAck H hstep
  | rename | noRename => exact .rename H hstep
  | dispatch => exact .dispatch H hstep
  | retire => exact .retire H hstep
  | flush | noFlush | complete => cases hop
  | deliverRenamed =>
    exact .of_still rfl rfl rfl (fun ri hri => hri) rfl rfl (by simp [undispatched]) rfl
  | deliverDispatched =>
    exact .of_still rfl rfl rfl (fun ri hri => ⟨by simpa using hri.1, hri.2⟩) rfl rfl rfl rfl
  | dispatchCredits | nextCycle =>
    exact .of_still rfl rfl rfl (fun ri hri => hri) rfl rfl rfl rfl
  | robCredits =>
    exact .of_still rfl rfl rfl (fun ri hri => hri) rfl rfl
      (by simp [undispatched, Dispatch.robCredits]) rfl
  | unitCredits =>
    exact .of_still rfl rfl rfl (fun ri hri => hri) rfl rfl
      (by simp [undispatched, Dispatch.receiveCredits]) rfl

/-! ## Flushes of the front end -/

/-- A flush changes nothing, or takes everything that has not retired. -/
theorem Ordered.flush_spec (H : Ordered p x0 s) (hstep : s.step p pd pr .flush = .ok s') :
    s'.lastDecoded = s.lastDecoded ∧
      RenamedTables [] s.rename.toRenameTables s'.rename.toRenameTables ∧
      match FlushManager.forwardUpper s.pendingFlush with
      | none => s'.rename = s.rename ∧ s'.undispatched = s.undispatched ∧ s'.Live = s.Live
      | some c => s'.rename.instQueue = [] ∧ s'.rename.uopQueue = [] ∧ s'.undispatched = [] ∧
        ∀ ri, s.Live ri → c.includedInFlush ri.inst = true := by
  cases step_stepped hstep with
  | noFlush _ _ hforward =>
    rw [hforward]
    exact ⟨rfl, .refl _, rfl, rfl, rfl⟩
  | @flush c t rb T _ _ hports hforward htables hrob =>
    obtain ⟨hport, -, hack⟩ := hports
    rw [hforward]
    have hcov := H.covers
    unfold FlushCovers at hcov
    rw [← H.forwardUpper_eq, hforward] at hcov
    obtain ⟨-, -, hun, -, -⟩ := hcov
    obtain ⟨h, Ht⟩ := H.tables
    obtain ⟨t', ht', Ht', hq, hsb⟩ := Ht.flushTables_spec c
    obtain rfl : t = t' := Except.ok.inj (htables.symm.trans ht')
    have hqueue : t.instQueue = [] := by
      rw [hq, H.queue, hack, List.nil_append, List.rdropWhile_eq_nil_iff]
      exact hun
    refine ⟨rfl, ⟨fun f q => ?_, fun f q hmem => .inl ?_⟩, hqueue, rfl, ?_, fun ri hri => ?_⟩
    · simpa [RenameTables.scoreboards] using congrFun (hsb f) q
    · have hsplit : s.rename.instQueue = t.instQueue ++ s.rename.instQueue := by
        rw [hqueue]
        rfl
      exact Ht.refs_of_prefix Ht' hsplit f q hmem
    · simp [InStep.undispatched, Dispatch.handleFlush, hport]
    · refine hun ri ?_
      have hmem := hri.1
      simp only [unretired, List.mem_append] at hmem ⊢
      tauto

end InStep

/-! ## The core -/

structure Core where
  front : InStep
  units : Units := {}
  /-- the instructions on the ports from Dispatch to the units -/
  toUnit : List (UnitId × RenamedInst) := []
  /-- the retired stores on the port from the ROB to the LSU -/
  storeAcks : List RenamedInst := []

inductive CoreOp where
  | front (op : InStepOp)
  /-- the flush handlers of all units -/
  | flush
  | deliverUnit (i : ℕ)
  | deliverStoreAck
  | units (op : UnitsOp)

namespace Core

def init (p : RenameParams) (x0 : ℕ) : Core := { front := .init p x0 }

def scoreboards (c : Core) : Scoreboards := c.front.rename.scoreboards

def step (p : RenameParams) (pd : DispatchParams) (pr : RobParams) (pu : UnitsParams) (c : Core) :
    CoreOp → Except Stop Core
  | .front op => do
    enabled op.isFront
    let front ← c.front.step p pd pr op
    return { c with
      front := front
      toUnit := c.toUnit ++ c.front.sends pd op
      storeAcks := c.storeAcks ++ c.front.stores pr op }
  | .flush => do
    enabled (c.toUnit.isEmpty && c.storeAcks.isEmpty)
    let front ← c.front.step p pd pr .flush
    return { c with
      front := front
      units := match FlushManager.forwardUpper c.front.pendingFlush with
        | none => c.units
        | some criteria => c.units.flush criteria }
  | .deliverUnit i => do
    enabled (c.front.phase = .portUpdate)
    match c.toUnit[i]? with
    | none => .error .disabled
    | some (d, ri) => do
      let (units, table) ← checked (c.units.receive pu c.front.table c.scoreboards d ri)
      return { c with
        front := { c.front with table := table }
        units := units
        toUnit := c.toUnit.eraseIdx i }
  | .deliverStoreAck => do
    enabled (c.front.phase = .portUpdate)
    match c.storeAcks with
    | [] => .error .disabled
    | ri :: rest => do
      let lsu ← checked (Lsu.getAckFromROB c.units.lsu c.front.table ri)
      return { c with units := { c.units with lsu := lsu }, storeAcks := rest }
  | .units op => do
    let out ← c.units.step pu c.front.table c.scoreboards op
    return { c with
      units := out.units
      front := { c.front with
        table := out.table
        rename := { c.front.rename with
          toRenameTables := c.front.rename.setScoreboards out.scoreboards } } }

/-- What a step can do. -/
inductive Stepped (p : RenameParams) (pd : DispatchParams) (pr : RobParams) (pu : UnitsParams)
    (c : Core) : CoreOp → Core → Prop where
  | front {op : InStepOp} {s : InStep} (hop : op.isFront = true)
      (hs : c.front.step p pd pr op = .ok s) :
    Stepped p pd pr pu c (.front op) { c with
      front := s
      toUnit := c.toUnit ++ c.front.sends pd op
      storeAcks := c.storeAcks ++ c.front.stores pr op }
  | flush {s : InStep} (htoUnit : c.toUnit = []) (hacks : c.storeAcks = [])
      (hs : c.front.step p pd pr .flush = .ok s) :
    Stepped p pd pr pu c .flush { c with
      front := s
      units := match FlushManager.forwardUpper c.front.pendingFlush with
        | none => c.units
        | some criteria => c.units.flush criteria }
  | deliverUnit {i : ℕ} {d : UnitId} {ri : RenamedInst} {units : Units} {T : InstTable}
      (hphase : c.front.phase = .portUpdate) (hi : c.toUnit[i]? = some (d, ri))
      (hrec : c.units.receive pu c.front.table c.scoreboards d ri = .ok (units, T)) :
    Stepped p pd pr pu c (.deliverUnit i) { c with
      front := { c.front with table := T }
      units := units
      toUnit := c.toUnit.eraseIdx i }
  | deliverStoreAck {ri : RenamedInst} {rest : List RenamedInst} {lsu : LsuState}
      (hphase : c.front.phase = .portUpdate) (hacks : c.storeAcks = ri :: rest)
      (hlsu : Lsu.getAckFromROB c.units.lsu c.front.table ri = .ok lsu) :
    Stepped p pd pr pu c .deliverStoreAck
      { c with units := { c.units with lsu := lsu }, storeAcks := rest }
  | units {op : UnitsOp} {out : UnitsOut}
      (hout : c.units.step pu c.front.table c.scoreboards op = .ok out) :
    Stepped p pd pr pu c (.units op) { c with
      units := out.units
      front := { c.front with
        table := out.table
        rename := { c.front.rename with
          toRenameTables := c.front.rename.setScoreboards out.scoreboards } } }

theorem step_stepped {p : RenameParams} {pd : DispatchParams} {pr : RobParams}
    {pu : UnitsParams} {c c' : Core} {op : CoreOp} (h : c.step p pd pr pu op = .ok c') :
    Stepped p pd pr pu c op c' := by
  cases op with
  | front op =>
    obtain ⟨u, hop, h⟩ := Run.bind_eq_ok.mp h
    obtain ⟨s, hs, h⟩ := Run.bind_eq_ok.mp h
    obtain rfl := Except.ok.inj h
    exact .front (enabled_eq_ok.mp hop) hs
  | flush =>
    obtain ⟨u, hen, h⟩ := Run.bind_eq_ok.mp h
    obtain ⟨s, hs, h⟩ := Run.bind_eq_ok.mp h
    obtain rfl := Except.ok.inj h
    have hempty := enabled_eq_ok.mp hen
    simp only [Bool.and_eq_true, List.isEmpty_iff] at hempty
    exact .flush hempty.1 hempty.2 hs
  | deliverUnit i =>
    obtain ⟨u, hen, h⟩ := Run.bind_eq_ok.mp h
    cases hi : c.toUnit[i]? with
    | none =>
      rw [hi] at h
      cases h
    | some m =>
      rw [hi] at h
      obtain ⟨⟨units, T⟩, hrec, h⟩ := Run.bind_eq_ok.mp h
      obtain rfl := Except.ok.inj h
      exact .deliverUnit (of_decide_eq_true (enabled_eq_ok.mp hen)) hi (checked_eq_ok.mp hrec)
  | deliverStoreAck =>
    obtain ⟨u, hen, h⟩ := Run.bind_eq_ok.mp h
    cases hacks : c.storeAcks with
    | nil =>
      rw [hacks] at h
      cases h
    | cons ri rest =>
      rw [hacks] at h
      obtain ⟨lsu, hlsu, h⟩ := Run.bind_eq_ok.mp h
      obtain rfl := Except.ok.inj h
      exact .deliverStoreAck (of_decide_eq_true (enabled_eq_ok.mp hen)) hacks
        (checked_eq_ok.mp hlsu)
  | units op =>
    obtain ⟨out, hout, h⟩ := Run.bind_eq_ok.mp h
    obtain rfl := Except.ok.inj h
    exact .units hout

/-- The moves of the instructions in a step. -/
def moves (p : RenameParams) (pd : DispatchParams) (pu : UnitsParams) (c : Core) :
    CoreOp → List Move
  | .front op => (c.front.renames p op).map (fun ri => ⟨ri, .renamed⟩) ++
      (c.front.sends pd op).map (fun m => ⟨m.2, .sent m.1⟩)
  | .flush => []
  | .deliverUnit i => c.toUnit[i]?.toList.map fun m => ⟨m.2, .waiting m.1⟩
  | .deliverStoreAck => []
  | .units op =>
    match c.units.step pu c.front.table c.scoreboards op with
    | .ok out => out.moves
    | .error _ => []

/-- The core with the history of its moves. -/
def run (p : RenameParams) (pd : DispatchParams) (pr : RobParams) (pu : UnitsParams) :
    List Move × Core → CoreOp → Except Stop (List Move × Core) :=
  Run.traced (step p pd pr pu) (moves p pd pu)

/-! ## The invariant -/

/-- What the units see. -/
def view (pd : DispatchParams) (hist : List Move) (c : Core) : View where
  known d ri := ⟨ri, .renamed⟩ ∈ hist ∧ d ∈ pd.dispatchers ri.inst.pipe
  place := placeAfter hist
  live := c.front.Live
  sb := c.scoreboards

/-- The invariant, for programs all of whose instructions satisfy `C`. -/
structure Inv (p : RenameParams) (x0 : ℕ) (pd : DispatchParams) (C : Inst → Prop)
    (hist : List Move) (c : Core) : Prop where
  ordered : c.front.Ordered p x0
  unique : ∀ ri rj, ⟨ri, .renamed⟩ ∈ hist → ⟨rj, .renamed⟩ ∈ hist → ri.key = rj.key → ri = rj
  renamed : ∀ ri, ⟨ri, .renamed⟩ ∈ hist → (∃ m, ri.WellRenamed p m) ∧ C ri.inst
  moved : ∀ m ∈ hist, ⟨m.inst, .renamed⟩ ∈ hist
  queue : ∀ ri ∈ c.front.rename.instQueue, ⟨ri, .renamed⟩ ∈ hist
  uops : ∀ i ∈ c.front.rename.uopQueue, C i ∧ placeAfter hist i.key = none
  future : ∀ j, follows c.front.lastDecoded j = true → placeAfter hist j.key = none
  undispatched : ∀ ri ∈ c.front.undispatched, placeAfter hist ri.key = some .renamed
  toUnit : ∀ m ∈ c.toUnit, (c.view pd hist).known m.1 m.2 ∧
    placeAfter hist m.2.key = some (.sent m.1) ∧ c.front.Live m.2
  toUnit_nodup : (c.toUnit.map fun m => m.2.key).Nodup
  storeAcks : ∀ ri ∈ c.storeAcks, ⟨ri, .renamed⟩ ∈ hist
  units : (c.view pd hist).Holds c.units

theorem inv_init (p : RenameParams) (x0 : ℕ) (pd : DispatchParams) (C : Inst → Prop) :
    Inv p x0 pd C [] (init p x0) where
  ordered := InStep.ordered_init p x0
  unique := by simp
  renamed := by simp
  moved := by simp
  queue := by simp [init, InStep.init, RenameState.init]
  uops := by simp [init, InStep.init, RenameState.init]
  future _ _ := rfl
  undispatched := by simp [init, InStep.init, InStep.undispatched]
  toUnit := by simp [init]
  toUnit_nodup := by simp [init]
  storeAcks := by simp [init]
  units := View.holds_init _

namespace Inv

variable {p : RenameParams} {x0 : ℕ} {pd : DispatchParams} {pr : RobParams} {pu : UnitsParams}
variable {C : Inst → Prop} {hist : List Move} {c c' : Core}

theorem view_unique (H : Inv p x0 pd C hist c) : (c.view pd hist).Unique :=
  fun _ _ ri rj hri hrj hkey => H.unique ri rj hri.1 hrj.1 hkey

/-! ### Steps of the front end -/

section Front

variable {op : InStepOp} {s' : InStep}

/-- What is not dispatched and what is renamed now are different instructions. -/
theorem nodup_undispatched (H : Inv p x0 pd C hist c)
    (F : InStep.FrontSpec p pd pr c.front s' op) :
    ((c.front.undispatched ++ c.front.renames p op).map RenamedInst.key).Nodup := by
  obtain ⟨rest, insts, huop, -, -, -⟩ := F.uops
  have hall : (c.front.insts.map Inst.key).Nodup :=
    List.pairwise_map.mpr (H.ordered.order.imp Inst.key_ne_of_before)
  refine List.Nodup.sublist ?_ hall
  have hkeys : ∀ l : List RenamedInst,
      l.map RenamedInst.key = (l.map RenamedInst.inst).map Inst.key := by
    intro l
    rw [List.map_map]
    rfl
  rw [hkeys]
  refine List.Sublist.map _ ?_
  unfold InStep.insts
  rw [huop, H.ordered.queue, List.map_append, ← List.append_assoc]
  refine List.Sublist.trans ?_ (List.sublist_append_left _ _)
  refine List.Sublist.append (List.Sublist.map _ ?_) (List.Sublist.refl _)
  unfold InStep.unretired InStep.undispatched
  rw [List.append_assoc (c.front.rob.reorderBuffer ++ c.front.toRob), ← List.append_assoc]
  exact List.sublist_append_right _ _

/-- What is renamed in a step was nowhere before. -/
theorem place_of_renames (H : Inv p x0 pd C hist c) (F : InStep.FrontSpec p pd pr c.front s' op)
    {ri : RenamedInst} (hri : ri ∈ c.front.renames p op) : placeAfter hist ri.key = none := by
  obtain ⟨rest, insts, huop, -, -, -⟩ := F.uops
  refine (H.uops ri.inst ?_).2
  rw [huop]
  exact List.mem_append_left _ (List.mem_map_of_mem hri)

/-- The instructions that move in a step of the front end. -/
theorem front_moves (pu : UnitsParams) (H : Inv p x0 pd C hist c)
    (F : InStep.FrontSpec p pd pr c.front s' op) :
    ((c.moves p pd pu (.front op)).map Move.key).Nodup ∧
      ∀ m ∈ c.moves p pd pu (.front op),
        placeAfter hist m.key = none ∨ placeAfter hist m.key = some .renamed := by
  have hnodup := H.nodup_undispatched F
  have hmap : (c.moves p pd pu (.front op)).map Move.key =
      (c.front.renames p op).map RenamedInst.key ++
        ((c.front.sends pd op).map Prod.snd).map RenamedInst.key := by
    simp only [moves, List.map_append, List.map_map]
    rfl
  have hsend : ∀ m ∈ c.front.sends pd op, placeAfter hist m.2.key = some .renamed :=
    fun m hm => H.undispatched m.2 (F.sent m hm).1
  constructor
  · rw [hmap, List.nodup_append]
    refine ⟨?_, ?_, ?_⟩
    · rw [List.map_append, List.nodup_append] at hnodup
      exact hnodup.2.1
    · rw [← F.undispatched, List.map_append, List.nodup_append] at hnodup
      exact hnodup.1
    · rintro a ha b hb rfl
      obtain ⟨ri, hri, rfl⟩ := List.mem_map.mp ha
      obtain ⟨rj, hrj, heq⟩ := List.mem_map.mp hb
      obtain ⟨m, hm, rfl⟩ := List.mem_map.mp hrj
      have hplace := hsend m hm
      rw [heq, H.place_of_renames F hri] at hplace
      cases hplace
  · intro m hm
    rcases List.mem_append.mp hm with hm | hm
    · obtain ⟨ri, hri, rfl⟩ := List.mem_map.mp hm
      exact .inl (H.place_of_renames F hri)
    · obtain ⟨x, hx, rfl⟩ := List.mem_map.mp hm
      exact .inr (hsend x hx)

/-- The renamings in the history after a step of the front end. -/
theorem mem_renamed_front {ri : RenamedInst} :
    ⟨ri, .renamed⟩ ∈ hist ++ c.moves p pd pu (.front op) ↔
      ⟨ri, .renamed⟩ ∈ hist ∨ ri ∈ c.front.renames p op := by
  simp [moves]

theorem front (H : Inv p x0 pd C hist c) (hC : ∀ insts, op = .decoded insts → ∀ i ∈ insts, C i)
    (hstep : c.step p pd pr pu (.front op) = .ok c') :
    Inv p x0 pd C (hist ++ c.moves p pd pu (.front op)) c' := by
  cases step_stepped hstep with
  | @front _ s' hop hs' =>
    have F := H.ordered.frontSpec hop hs'
    have O := H.ordered.step hs'
    obtain ⟨hnodup, hfrom⟩ := H.front_moves pu F
    have hmoved := moved_placeAfter hist hnodup
    have hkeys := H.nodup_undispatched F
    obtain ⟨rest, insts, huop, huop', hinsts, hfollow⟩ := F.uops
    -- what is beyond renaming stays where it is
    have hstay : ∀ k pl, pl ≠ .renamed → placeAfter hist k = some pl →
        placeAfter (hist ++ c.moves p pd pu (.front op)) k = some pl := by
      intro k pl hpl hk
      rw [← hk]
      refine hmoved.stays k fun m hm heq => ?_
      have hm' := hfrom m hm
      rw [heq, hk] at hm'
      rcases hm' with hm' | hm'
      · cases hm'
      · exact hpl (Option.some.inj hm')
    -- what is nowhere and not renamed now stays nowhere
    have hnone : ∀ k, placeAfter hist k = none → (∀ ri ∈ c.front.renames p op, ri.key ≠ k) →
        placeAfter (hist ++ c.moves p pd pu (.front op)) k = none := by
      intro k hk hne
      rw [← hk]
      refine hmoved.stays k fun m hm heq => ?_
      rcases List.mem_append.mp hm with hm | hm
      · obtain ⟨ri, hri, rfl⟩ := List.mem_map.mp hm
        exact hne ri hri heq
      · obtain ⟨x, hx, rfl⟩ := List.mem_map.mp hm
        have hplace := H.undispatched x.2 (F.sent x hx).1
        have heq' : x.2.key = k := heq
        rw [heq', hk] at hplace
        cases hplace
    have hafter : ∀ j, follows c.front.lastDecoded j = true →
        placeAfter (hist ++ c.moves p pd pu (.front op)) j.key = none := by
      intro j hj
      refine hnone j.key (H.future j hj) fun ri hri heq => ?_
      have hmem : ri.inst ∈ c.front.insts := by
        unfold InStep.insts
        rw [huop]
        exact List.mem_append_right _ (List.mem_append_left _ (List.mem_map_of_mem hri))
      exact Inst.key_ne_of_before (H.ordered.youngest ri.inst hmem j hj) heq
    have hold : ∀ {ri}, ⟨ri, .renamed⟩ ∈ hist →
        ⟨ri, .renamed⟩ ∈ hist ++ c.moves p pd pu (.front op) := fun h => List.mem_append_left _ h
    have hqueue : ∀ ri ∈ s'.rename.instQueue,
        ⟨ri, .renamed⟩ ∈ hist ++ c.moves p pd pu (.front op) := by
      intro ri hri
      rw [mem_renamed_front]
      exact (F.queue ri hri).imp (H.queue ri) id
    refine ⟨O, ?_, ?_, ?_, hqueue, ?_, fun j hj => hafter j (F.future j hj), ?_, ?_, ?_, ?_, ?_⟩
    · have hnew : ∀ ri rj, ⟨ri, .renamed⟩ ∈ hist → rj ∈ c.front.renames p op → ri.key ≠ rj.key := by
        intro ri rj hri hrj heq
        exact placeAfter_eq_none.mp (H.place_of_renames F hrj) _ hri heq
      intro ri rj hri hrj hkey
      rw [mem_renamed_front] at hri hrj
      rcases hri with hri | hri
      · rcases hrj with hrj | hrj
        · exact H.unique ri rj hri hrj hkey
        · exact absurd hkey (hnew ri rj hri hrj)
      · rcases hrj with hrj | hrj
        · exact absurd hkey.symm (hnew rj ri hrj hri)
        · rw [List.map_append, List.nodup_append] at hkeys
          exact List.inj_on_of_nodup_map hkeys.2.1 hri hrj hkey
    · intro ri hri
      rcases mem_renamed_front.mp hri with hri | hri
      · exact H.renamed ri hri
      · obtain ⟨h, Ht⟩ := O.tables
        refine ⟨Ht.exists_wellRenamed (F.renamed ri hri), (H.uops ri.inst ?_).1⟩
        rw [huop]
        exact List.mem_append_left _ (List.mem_map_of_mem hri)
    · intro m hm
      rcases List.mem_append.mp hm with hm | hm
      · exact hold (H.moved m hm)
      · rcases List.mem_append.mp hm with hm | hm
        · obtain ⟨ri, hri, rfl⟩ := List.mem_map.mp hm
          exact mem_renamed_front.mpr (.inr hri)
        · obtain ⟨x, hx, rfl⟩ := List.mem_map.mp hm
          exact hold (H.queue _ (H.ordered.mem_of_undispatched (F.sent x hx).1))
    · intro i hi
      have hi' : i ∈ rest ++ insts := by
        rw [← huop']
        exact hi
      rcases List.mem_append.mp hi' with hi | hi
      · have hmem : i ∈ c.front.rename.uopQueue := by
          rw [huop]
          exact List.mem_append_right _ hi
        refine ⟨(H.uops i hmem).1, hnone _ (H.uops i hmem).2 fun ri hri heq => ?_⟩
        have horder := H.ordered.order
        unfold InStep.insts at horder
        rw [huop, List.pairwise_append, List.pairwise_append] at horder
        exact Inst.key_ne_of_before
          (horder.2.1.2.2 ri.inst (List.mem_map_of_mem hri) i hi) heq
      · rcases hinsts with rfl | hdec
        · cases hi
        · exact ⟨hC insts hdec i hi, hafter i (hfollow i hi)⟩
    · intro ri hri
      have hmem : ri ∈ c.front.undispatched ++ c.front.renames p op := by
        rw [← F.undispatched]
        exact List.mem_append_right _ hri
      have hsent : ∀ m ∈ c.front.sends pd op, m.2.key ≠ ri.key := by
        intro m hm heq
        rw [← F.undispatched, List.map_append, List.nodup_append] at hkeys
        exact hkeys.2.2 _ (List.mem_map_of_mem (List.mem_map_of_mem hm)) _
          (List.mem_map_of_mem hri) heq
      rcases List.mem_append.mp hmem with hmem | hmem
      · rw [← H.undispatched ri hmem]
        refine hmoved.stays _ fun m hm heq => ?_
        rcases List.mem_append.mp hm with hm | hm
        · obtain ⟨rj, hrj, rfl⟩ := List.mem_map.mp hm
          rw [List.map_append, List.nodup_append] at hkeys
          exact hkeys.2.2 _ (List.mem_map_of_mem hmem) _ (List.mem_map_of_mem hrj) heq.symm
        · obtain ⟨x, hx, rfl⟩ := List.mem_map.mp hm
          exact hsent x hx heq
      · exact hmoved.moved ⟨ri, .renamed⟩ (by simp [moves, hmem])
    · intro m hm
      rcases List.mem_append.mp hm with hm | hm
      · obtain ⟨⟨hren, hserves⟩, hplace, hlive⟩ := H.toUnit m hm
        exact ⟨⟨hold hren, hserves⟩, hstay _ _ (by simp) hplace, F.live _ hlive⟩
      · obtain ⟨hmem, hlive, hserves⟩ := F.sent m hm
        refine ⟨⟨hold (H.queue _ (H.ordered.mem_of_undispatched hmem)), hserves⟩, ?_, hlive⟩
        refine hmoved.moved ⟨m.2, .sent m.1⟩ (List.mem_append_right _ ?_)
        exact List.mem_map.mpr ⟨m, hm, rfl⟩
    · rw [List.map_append, List.nodup_append]
      refine ⟨H.toUnit_nodup, ?_, ?_⟩
      · rw [← F.undispatched, List.map_append, List.nodup_append, List.map_map] at hkeys
        exact hkeys.1
      · rintro a ha b hb rfl
        obtain ⟨m, hm, rfl⟩ := List.mem_map.mp ha
        obtain ⟨x, hx, heq⟩ := List.mem_map.mp hb
        have hplace := H.undispatched x.2 (F.sent x hx).1
        rw [heq, (H.toUnit m hm).2.1] at hplace
        cases hplace
    · intro ri hri
      rcases List.mem_append.mp hri with hri | hri
      · exact hold (H.storeAcks ri hri)
      · exact hold (H.queue ri (F.stored ri hri))
    · refine H.units.mono ⟨fun d ri hri => ⟨hold hri.1, hri.2⟩, fun k hk => ?_, fun k pl hpl => ?_,
        fun ri _ _ _ _ hri => F.live ri hri, fun ri hri f q hq hbit => ?_⟩
      · obtain ⟨pl, hpl, harr⟩ := (Option.any_eq_true _ _).mp hk
        exact View.arrived_of_place (hstay k pl (by rintro rfl; cases harr) hpl) harr
      · exact hstay k pl (by rintro rfl; cases hpl)
      · -- the registers that are taken from a free list are read by nothing in flight
        show s'.rename.toRenameTables.scoreboards f q = true
        rw [F.tables.scoreboards, if_neg]
        · exact hbit
        · rintro ⟨rj, hrj, hmask⟩
          have hapart := F.apart ri (H.ordered.mem_of_live hri) rj hrj f q hmask
          rcases hq with hq | hq
          · exact hapart.1 hq
          · exact hapart.2.1 hq

end Front

/-! ### Flushes -/

theorem flush (H : Inv p x0 pd C hist c) (hstep : c.step p pd pr pu .flush = .ok c') :
    Inv p x0 pd C hist c' := by
  cases step_stepped hstep with
  | @flush s' htoUnit hstore hs' =>
    obtain ⟨hlast, htables, hcase⟩ := H.ordered.flush_spec hs'
    have O := H.ordered.step hs'
    have hfuture : ∀ j, follows s'.lastDecoded j = true → placeAfter hist j.key = none := by
      rw [hlast]
      exact H.future
    have hsb : s'.rename.toRenameTables.scoreboards = c.scoreboards := by
      funext f q
      simpa [scoreboards] using htables.scoreboards f q
    rcases hforward : FlushManager.forwardUpper c.front.pendingFlush with _ | criteria
    · simp only [hforward] at hcase
      obtain ⟨hrename, hund, hlive⟩ := hcase
      refine ⟨O, H.unique, H.renamed, H.moved, ?_, ?_, hfuture, ?_, by simp [htoUnit],
        by simp [htoUnit], by simp [hstore], ?_⟩
      · show ∀ ri ∈ s'.rename.instQueue, _
        rw [hrename]
        exact H.queue
      · show ∀ i ∈ s'.rename.uopQueue, _
        rw [hrename]
        exact H.uops
      · show ∀ ri ∈ s'.undispatched, _
        rw [hund]
        exact H.undispatched
      · refine H.units.mono ⟨fun d ri h => h, fun k h => h, fun k pl _ h => h,
          fun ri _ _ _ _ h => ?_, fun ri _ f q _ h => ?_⟩
        · show s'.Live ri
          rw [hlive]
          exact h
        · show s'.rename.toRenameTables.scoreboards f q = true
          rw [hsb]
          exact h
    · simp only [hforward] at hcase
      obtain ⟨hq, huop, hund, hcov⟩ := hcase
      refine ⟨O, H.unique, H.renamed, H.moved, ?_, ?_, hfuture, ?_, by simp [htoUnit],
        by simp [htoUnit], by simp [hstore], ?_⟩
      · show ∀ ri ∈ s'.rename.instQueue, _
        simp [hq]
      · show ∀ i ∈ s'.rename.uopQueue, _
        simp [huop]
      · show ∀ ri ∈ s'.undispatched, _
        simp [hund]
      · exact H.units.flush rfl rfl hcov

/-! ### Statuses and scoreboards -/

/-- A unit changes statuses and scoreboards: the front end keeps its invariant when branches
only are found mispredicted. -/
theorem setTable {T : InstTable} (H : Inv p x0 pd C hist c) {P : RenamedInst → Prop}
    (hT : c.front.table.Progress P T) (hP : ∀ ri, P ri → ⟨ri, .renamed⟩ ∈ hist)
    (sb : Scoreboards) :
    InStep.Ordered p x0 { c.front with
      table := T
      rename := { c.front.rename with
        toRenameTables := c.front.rename.setScoreboards sb } } := by
  obtain ⟨h, Ht⟩ := H.ordered.tables
  refine ⟨⟨h, Ht.setScoreboards sb⟩, H.ordered.queue, H.ordered.order, H.ordered.youngest, ?_,
    H.ordered.covers, H.ordered.rob_lt, H.ordered.unit_lt⟩
  intro i hi hmis
  rcases hT.mispredicted i.key hmis with hmis | ⟨ri, hri, hkey, hbranch⟩
  · exact H.ordered.branches i hi hmis
  · have hren := hP ri hri
    rcases List.mem_append.mp hi with hi | hi
    · obtain ⟨rj, hrj, rfl⟩ := List.mem_map.mp hi
      rw [← H.unique ri rj hren (H.queue rj hrj) hkey]
      exact hbranch
    · exact absurd hkey (placeAfter_eq_none.mp (H.uops i hi).2 _ hren)

/-- An instruction stays live when only others are completed. -/
theorem live_of_progress {s s' : InStep} {P : RenamedInst → Prop} {ri : RenamedInst}
    (hT : s.table.Progress P s'.table) (hbuf : s'.rob = s.rob) (hport : s'.toRob = s.toRob)
    (hlive : s.Live ri) (hP : ∀ rj, P rj → rj.key ≠ ri.key) : s'.Live ri := by
  refine ⟨by rw [hbuf, hport]; exact hlive.1, ?_⟩
  rcases hT.status ri.key with hst | hst | ⟨-, rj, hrj, hkey⟩
  · rw [hst]
    exact hlive.2
  · rw [hst]
    exact ⟨by simp, by simp⟩
  · exact absurd hkey (hP rj hrj)

/-! ### Deliveries -/

/-- A unit that receives an instruction completes only what the LSU has issued. -/
theorem progress_of_receive {i : ℕ} {d : UnitId} {ri : RenamedInst} {units : Units}
    {T : InstTable} (H : Inv p x0 pd C hist c) (hi : c.toUnit[i]? = some (d, ri))
    (hrec : c.units.receive pu c.front.table c.scoreboards d ri = .ok (units, T)) :
    c.front.table.Progress (c.view pd hist).lsuIssued T := by
  obtain ⟨hknown, hsent, hlive⟩ := H.toUnit (d, ri) (List.mem_of_getElem? hi)
  have hmoved : Moved [⟨ri, .waiting d⟩] (placeAfter hist)
      (placeAfter (hist ++ [⟨ri, .waiting d⟩])) := moved_placeAfter _ (by simp)
  let after : View := { c.view pd hist with place := placeAfter (hist ++ [⟨ri, .waiting d⟩]) }
  have hafter : Moved [⟨ri, .waiting d⟩] (c.view pd hist).place after.place := hmoved
  exact (H.units.receive hsent hafter rfl rfl rfl hknown hlive hrec).2

theorem live_deliverUnit {i : ℕ} {d : UnitId} {ri rj : RenamedInst} {units : Units}
    {T : InstTable} {pl : Place} (H : Inv p x0 pd C hist c) (hi : c.toUnit[i]? = some (d, ri))
    (hrec : c.units.receive pu c.front.table c.scoreboards d ri = .ok (units, T))
    (hpl : placeAfter hist rj.key = some pl) (hdone : pl.done = false) (hrj : c.front.Live rj) :
    InStep.Live { c.front with table := T } rj := by
  have hT := H.progress_of_receive hi hrec
  refine live_of_progress hT rfl rfl hrj fun rk hrk heq => ?_
  have hplace : placeAfter hist rk.key = some .lsuIssued := hrk.2
  rw [heq, hpl] at hplace
  obtain rfl := Option.some.inj hplace
  cases hdone

theorem deliverUnit {i : ℕ} (H : Inv p x0 pd C hist c)
    (hstep : c.step p pd pr pu (.deliverUnit i) = .ok c') :
    Inv p x0 pd C (hist ++ c.moves p pd pu (.deliverUnit i)) c' := by
  cases step_stepped hstep with
  | @deliverUnit _ d ri units T _ hi hrec =>
    have hmoves : c.moves p pd pu (.deliverUnit i) = [⟨ri, .waiting d⟩] := by simp [moves, hi]
    rw [hmoves]
    obtain ⟨hknown, hsent, hlive⟩ := H.toUnit (d, ri) (List.mem_of_getElem? hi)
    have hmoved : Moved [⟨ri, .waiting d⟩] (placeAfter hist)
        (placeAfter (hist ++ [⟨ri, .waiting d⟩])) := moved_placeAfter _ (by simp)
    -- the arrival as the unit sees it, before its handler has run
    let after : View := { c.view pd hist with place := placeAfter (hist ++ [⟨ri, .waiting d⟩]) }
    have hafter : Moved [⟨ri, .waiting d⟩] (c.view pd hist).place after.place := hmoved
    obtain ⟨hunits, hT⟩ :=
      H.units.receive hsent hafter rfl rfl rfl hknown hlive hrec
    have hstay : ∀ k, placeAfter hist k ≠ some (.sent d) →
        placeAfter (hist ++ [⟨ri, .waiting d⟩]) k = placeAfter hist k := by
      intro k hk
      refine hmoved.stays k fun m hm heq => hk ?_
      obtain rfl := List.mem_singleton.mp hm
      rw [← heq]
      exact hsent
    have hold : ∀ {rj}, ⟨rj, .renamed⟩ ∈ hist ++ [(⟨ri, .waiting d⟩ : Move)] ↔
        ⟨rj, .renamed⟩ ∈ hist := by
      intro rj
      simp
    have hlive' : ∀ rj pl, placeAfter hist rj.key = some pl → pl.done = false →
        c.front.Live rj → InStep.Live { c.front with table := T } rj :=
      fun rj pl hpl hdone hrj => H.live_deliverUnit hi hrec hpl hdone hrj
    have hperm : (ri.key :: (c.toUnit.eraseIdx i).map fun m => m.2.key).Perm
        (c.toUnit.map fun m => m.2.key) := by
      obtain ⟨hlt, hget⟩ := List.getElem?_eq_some_iff.mp hi
      have hcons := (List.getElem_cons_eraseIdx_perm hlt).map fun m => m.2.key
      rw [hget] at hcons
      exact hcons
    obtain ⟨hfresh, hnodup⟩ := List.nodup_cons.mp (hperm.nodup_iff.mpr H.toUnit_nodup)
    have O := H.setTable (P := (c.view pd hist).lsuIssued) hT (fun rj hrj => hrj.1.1)
      c.scoreboards
    refine ⟨O, fun rj rk hrj hrk => H.unique rj rk (hold.mp hrj) (hold.mp hrk),
      fun rj hrj => H.renamed rj (hold.mp hrj), fun m hm => hold.mpr ?_,
      fun rj hrj => hold.mpr (H.queue rj hrj), fun j hj => ⟨(H.uops j hj).1, ?_⟩, fun j hj => ?_,
      fun rj hrj => ?_, fun m hm => ?_, hnodup, fun rj hrj => hold.mpr (H.storeAcks rj hrj), ?_⟩
    · rcases List.mem_append.mp hm with hm | hm
      · exact H.moved m hm
      · rw [List.mem_singleton.mp hm]
        exact hknown.1
    · rw [hstay _ (by rw [(H.uops j hj).2]; simp)]
      exact (H.uops j hj).2
    · rw [hstay _ (by rw [H.future j hj]; simp)]
      exact H.future j hj
    · rw [hstay _ (by rw [H.undispatched rj hrj]; simp)]
      exact H.undispatched rj hrj
    · have hmem := List.mem_of_mem_eraseIdx hm
      obtain ⟨hk, hpl, hl⟩ := H.toUnit m hmem
      refine ⟨⟨hold.mpr hk.1, hk.2⟩, ?_, hlive' m.2 _ hpl rfl hl⟩
      rw [← hpl]
      refine hmoved.stays _ fun m' hm' heq => hfresh ?_
      obtain rfl := List.mem_singleton.mp hm'
      exact List.mem_map.mpr ⟨m, hm, heq.symm⟩
    · refine hunits.mono ⟨fun d ri hri => ⟨hold.mpr hri.1, hri.2⟩, fun k hk => hk,
        fun k pl _ hk => hk, fun rj pl _ hdone hpl hrj => ?_, fun rj _ f q _ hq => hq⟩
      by_cases hkey : rj.key = ri.key
      · exact hlive' rj (.sent d) (by rw [hkey]; exact hsent) rfl hrj
      · refine hlive' rj pl ?_ hdone hrj
        rw [← hpl]
        refine (hmoved.stays _ fun m hm heq => hkey ?_).symm
        obtain rfl := List.mem_singleton.mp hm
        exact heq.symm

theorem deliverStoreAck (H : Inv p x0 pd C hist c)
    (hstep : c.step p pd pr pu .deliverStoreAck = .ok c') : Inv p x0 pd C hist c' := by
  cases step_stepped hstep with
  | @deliverStoreAck ri rest lsu _ hacks hlsu =>
    have hri : ⟨ri, .renamed⟩ ∈ hist := H.storeAcks ri (by simp [hacks])
    refine { H with storeAcks := fun rj hrj => H.storeAcks rj (by simp [hacks, hrj]), units := ?_ }
    refine ⟨H.units.iqs, H.units.pipes, ?_⟩
    exact H.units.lsu.getAckFromROB (fun e he hkey => H.unique e ri he.1 hri hkey)
      (fun hlive => hlive.2.2) hlsu

/-! ### Handlers of the units -/

/-- The view after a handler of the units. -/
theorem after_units {out : UnitsOut} (D : (c.view pd hist).StepSpec c.front.table out)
    (hc' : c' = { c with
      units := out.units
      front := { c.front with
        table := out.table
        rename := { c.front.rename with
          toRenameTables := c.front.rename.setScoreboards out.scoreboards } } }) :
    (c.view pd hist).After out.moves out.scoreboards (c'.view pd (hist ++ out.moves)) := by
  subst hc'
  have hmoved := moved_placeAfter hist D.nodup
  refine ⟨?_, hmoved, fun ri hri hdone => ?_, rfl⟩
  · funext d ri
    refine propext (and_congr_left fun _ => ?_)
    rw [List.mem_append]
    refine or_iff_left fun hmem => ?_
    have harr : Place.renamed.arrived = true := (D.moves _ hmem).1
    cases harr
  · refine live_of_progress D.table rfl rfl hri fun rj hrj heq => ?_
    obtain ⟨-, ⟨pl, hpl, hpldone⟩ | hmem⟩ := hrj
    · -- what was done before is done after
      by_cases hmove : ∃ m ∈ out.moves, m.key = ri.key
      · obtain ⟨m, hm, hkey⟩ := hmove
        have hplace := hmoved.moved m hm
        rw [hkey] at hplace
        have hthere : placeAfter hist m.key = some pl := by
          rw [hkey, ← heq]
          exact hpl
        rw [D.undone m hm (hdone _ hplace) pl hthere] at hpldone
        cases hpldone
      · have hplace : placeAfter (hist ++ out.moves) ri.key = some pl := by
          rw [hmoved.stays _ fun m hm heq' => hmove ⟨m, hm, heq'⟩, ← heq]
          exact hpl
        rw [hdone pl hplace] at hpldone
        cases hpldone
    · have hplace := hmoved.moved _ hmem
      rw [show (⟨rj, .executed⟩ : Move).key = ri.key from heq] at hplace
      cases hdone _ hplace

theorem unitsStep {op : UnitsOp} (H : Inv p x0 pd C hist c)
    (hstep : c.step p pd pr pu (.units op) = .ok c') :
    Inv p x0 pd C (hist ++ c.moves p pd pu (.units op)) c' := by
  cases step_stepped hstep with
  | @units _ out hout =>
    have D := H.units.step H.view_unique hout
    have hmoves : c.moves p pd pu (.units op) = out.moves := by simp only [moves, hout]
    rw [hmoves]
    have A := after_units D rfl
    have hknown : ∀ {d ri}, (c.view pd hist).known d ri →
        (view pd (hist ++ out.moves) { c with
          units := out.units
          front := { c.front with
            table := out.table
            rename := { c.front.rename with
              toRenameTables := c.front.rename.setScoreboards out.scoreboards } } }).known
          d ri := by
      intro d ri hri
      rw [A.known]
      exact hri
    have hold : ∀ {ri}, ⟨ri, .renamed⟩ ∈ hist ++ out.moves ↔ ⟨ri, .renamed⟩ ∈ hist := by
      intro ri
      rw [List.mem_append]
      refine or_iff_left fun hmem => ?_
      have harr : Place.renamed.arrived = true := (D.moves _ hmem).1
      cases harr
    -- what has not arrived at a unit does not move
    have hstay : ∀ k, ¬(c.view pd hist).arrived k →
        placeAfter (hist ++ out.moves) k = placeAfter hist k := by
      intro k hk
      refine A.moved.stays k fun m hm heq => hk ?_
      rw [← heq]
      exact (D.moves m hm).2.1
    have hnot : ∀ {k pl}, placeAfter hist k = pl → pl.any Place.arrived = false →
        ¬(c.view pd hist).arrived k := by
      intro k pl hpl hany harr
      have harr' : (placeAfter hist k).any Place.arrived = true := harr
      rw [hpl, hany] at harr'
      cases harr'
    have O := H.setTable D.table (fun ri hri => by obtain ⟨⟨d, hd⟩, -⟩ := hri; exact hd.1)
      out.scoreboards
    refine ⟨O, fun rj rk hrj hrk => H.unique rj rk (hold.mp hrj) (hold.mp hrk),
      fun rj hrj => H.renamed rj (hold.mp hrj), fun m hm => hold.mpr ?_,
      fun rj hrj => hold.mpr (H.queue rj hrj), fun j hj => ⟨(H.uops j hj).1, ?_⟩, fun j hj => ?_,
      fun rj hrj => ?_, fun m hm => ?_, H.toUnit_nodup,
      fun rj hrj => hold.mpr (H.storeAcks rj hrj), D.next _ A⟩
    · rcases List.mem_append.mp hm with hm | hm
      · exact H.moved m hm
      · obtain ⟨-, -, d, hd⟩ := D.moves m hm
        exact hd.1
    · rw [hstay _ (hnot (H.uops j hj).2 rfl)]
      exact (H.uops j hj).2
    · rw [hstay _ (hnot (H.future j hj) rfl)]
      exact H.future j hj
    · rw [hstay _ (hnot (H.undispatched rj hrj) rfl)]
      exact H.undispatched rj hrj
    · obtain ⟨hk, hpl, hl⟩ := H.toUnit m hm
      have hpl' : placeAfter (hist ++ out.moves) m.2.key = some (.sent m.1) := by
        rw [hstay _ (hnot hpl rfl)]
        exact hpl
      refine ⟨hknown hk, hpl', A.live m.2 hl fun pl hpl₁ => ?_⟩
      obtain rfl := Option.some.inj (hpl'.symm.trans hpl₁)
      rfl

/-! ### Runs -/

/-- Every step keeps the invariant, if what is decoded satisfies `C`. -/
theorem step {op : CoreOp} (H : Inv p x0 pd C hist c)
    (hC : ∀ insts, op = .front (.decoded insts) → ∀ i ∈ insts, C i)
    (hstep : c.step p pd pr pu op = .ok c') :
    Inv p x0 pd C (hist ++ c.moves p pd pu op) c' := by
  cases op with
  | front op => exact H.front (fun insts hop => hC insts (by rw [hop])) hstep
  | flush => simpa [moves] using H.flush hstep
  | deliverUnit i => exact H.deliverUnit hstep
  | deliverStoreAck => simpa [moves] using H.deliverStoreAck hstep
  | units op => exact H.unitsStep hstep

end Inv

/-- The instructions that come from Decode in a run. -/
def decoded (ops : List CoreOp) : List Inst :=
  ops.flatMap fun
    | .front (.decoded insts) => insts
    | _ => []

/-- A run that decodes only instructions with `C` keeps the invariant, and anything else that
its steps keep under the invariant. -/
theorem run_invariant {p : RenameParams} {x0 : ℕ} {pd : DispatchParams} {pr : RobParams}
    {pu : UnitsParams} {C : Inst → Prop} {I : List Move → Core → Prop} {ops : List CoreOp}
    {hist : List Move} {c : Core} (hC : ∀ i ∈ decoded ops, C i)
    (hrun : ops.foldlM (run p pd pr pu) ([], init p x0) = .ok (hist, c))
    (hinit : I [] (init p x0))
    (hI : ∀ hist c op c', Inv p x0 pd C hist c → I hist c →
      Inv p x0 pd C (hist ++ c.moves p pd pu op) c' → c.step p pd pr pu op = .ok c' →
      I (hist ++ c.moves p pd pu op) c') :
    Inv p x0 pd C hist c ∧ I hist c := by
  refine (Run.foldlM_ok_induct (f := run p pd pr pu)
    (I := fun l hc => (∀ i ∈ decoded l, C i) ∧ Inv p x0 pd C hc.1 hc.2 ∧ I hc.1 hc.2) ?_
    ⟨hC, inv_init p x0 pd C, hinit⟩ hrun).2
  rintro op l ⟨h₁, c₁⟩ ⟨h₂, c₂⟩ ⟨hl, H, hI₁⟩ hone
  obtain ⟨hstep, hhist⟩ := Run.traced_eq_ok.mp hone
  dsimp only at hstep hhist H hI₁
  subst hhist
  have H' := H.step (fun insts hop i hi => hl i (by simp [decoded, hop, hi])) hstep
  refine ⟨fun i hi => hl i ?_, H', hI _ _ _ _ H hI₁ H' hstep⟩
  unfold decoded at hi ⊢
  rw [List.flatMap_cons]
  exact List.mem_append_right _ hi

end Core

end Olympia
