import Olympia.DecodeEvent
import Olympia.DecodeVsets
import Olympia.RetiredInsts
import Olympia.Unexecuted

/-!
# The core from Decode on

Decode in front of the core: it sends its groups to Rename, and the execution pipes send the vsets
that it waits for back to it when they have executed, each over a port of one cycle.  A flush that
the ROB asks for reaches Decode with all other units.  Fetch sends new instructions in program
order, and the vsets among them go to the `VSET` pipes.

`Decode.waitingOnVset` is set when a vset that blocks is decoded and reset by the message of its
pipe, but not by a flush (`decode_waits_in_vain`).  If no flush comes while Decode waits,
the vset it waits for is in flight, or its message is: `decode_waits_for_live_vset`.
-/

namespace Olympia

structure DecodeCore where
  decode : DecodeState := {}
  /-- the group on the port from Decode to Rename -/
  toRename : List Inst := []
  core : Core
  /-- the vsets on the port from the execution pipes to Decode -/
  toDecode : List Inst := []
  /-- the youngest instruction Fetch has sent -/
  lastFetched : Option Inst := none

inductive DecodeCoreOp where
  | credits (credits : ℕ)
  /-- instructions from Fetch arrive at Decode -/
  | appended (insts : List Inst)
  | decode
  | deliverUops
  | deliverVset
  /-- the flush handlers of all units -/
  | flush
  | core (op : CoreOp)

/-- The steps of the core that concern neither Decode nor all units. -/
def CoreOp.isInner : CoreOp → Bool
  | .front (.decoded _) => false
  | .flush => false
  | _ => true

theorem CoreOp.ne_flush_of_isInner {op : CoreOp} (h : op.isInner = true) : op ≠ .flush := by
  rintro rfl
  cases h

/-- What a run of the core shows. -/
inductive DecodeCoreEvent where
  | moved (m : Move)
  /-- Decode has taken the instruction, which is configured, from the fetch queue -/
  | took (i : Inst)
  | flushed (c : FlushingCriteria)
  | retired (ri : RenamedInst)

namespace Core

/-- The vsets that the execution pipes send back in a step. -/
def vsets (p : RenameParams) (pd : DispatchParams) (pu : UnitsParams) (c : Core) (op : CoreOp) :
    List Inst :=
  ((c.moves p pd pu op).filter fun m => m.place = .executed && m.inst.inst.blocks).map
    fun m => m.inst.inst

end Core

namespace DecodeCore

def init (p : RenameParams) (x0 : ℕ) : DecodeCore := { core := .init p x0 }

def step (q : DecodeParams) (p : RenameParams) (pd : DispatchParams) (pr : RobParams)
    (pu : UnitsParams) (s : DecodeCore) : DecodeCoreOp → Except Stop DecodeCore
  | .credits n => return { s with decode := Decode.receiveUopQueueCredits s.decode n }
  | .appended insts => do
    enabled (inProgramOrder s.lastFetched insts && insts.all Inst.isNew)
    return { s with
      decode := Decode.fetchBufferAppended s.decode insts
      lastFetched := insts.getLast?.or s.lastFetched }
  | .decode => do
    enabled (s.core.front.phase = .tick)
    let (d, out) ← checked (Decode.decodeInsts q s.decode)
    return { s with decode := d, toRename := s.toRename ++ out.getD [] }
  | .deliverUops => do
    let core ← s.core.step p pd pr pu (.front (.decoded s.toRename))
    return { s with core := core, toRename := [] }
  | .deliverVset => do
    enabled (s.core.front.phase = .portUpdate)
    match s.toDecode with
    | [] => .error .disabled
    | v :: rest => return { s with decode := Decode.processVset s.decode v, toDecode := rest }
  | .flush => do
    enabled (s.toRename.isEmpty && s.toDecode.isEmpty)
    let core ← s.core.step p pd pr pu .flush
    return { s with
      core := core
      decode := match FlushManager.forwardUpper s.core.front.pendingFlush with
        | none => s.decode
        | some c => (Decode.handleFlush s.decode c).1 }
  | .core op => do
    enabled op.isInner
    let core ← s.core.step p pd pr pu op
    return { s with core := core, toDecode := s.toDecode ++ s.core.vsets p pd pu op }

/-- What a step can do. -/
inductive Stepped (q : DecodeParams) (p : RenameParams) (pd : DispatchParams) (pr : RobParams)
    (pu : UnitsParams) (s : DecodeCore) : DecodeCoreOp → DecodeCore → Prop where
  | credits {n : ℕ} :
    Stepped q p pd pr pu s (.credits n)
      { s with decode := Decode.receiveUopQueueCredits s.decode n }
  | appended {insts : List Inst} (horder : inProgramOrder s.lastFetched insts = true)
      (hnew : ∀ i ∈ insts, i.isNew = true) :
    Stepped q p pd pr pu s (.appended insts) { s with
      decode := Decode.fetchBufferAppended s.decode insts
      lastFetched := insts.getLast?.or s.lastFetched }
  | decode {d : DecodeState} {out : Option (List Inst)} (hphase : s.core.front.phase = .tick)
      (hd : Decode.decodeInsts q s.decode = .ok (d, out)) :
    Stepped q p pd pr pu s .decode { s with decode := d, toRename := s.toRename ++ out.getD [] }
  | deliverUops {core : Core}
      (hcore : s.core.step p pd pr pu (.front (.decoded s.toRename)) = .ok core) :
    Stepped q p pd pr pu s .deliverUops { s with core := core, toRename := [] }
  | deliverVset {v : Inst} {rest : List Inst} (hphase : s.core.front.phase = .portUpdate)
      (hto : s.toDecode = v :: rest) :
    Stepped q p pd pr pu s .deliverVset
      { s with decode := Decode.processVset s.decode v, toDecode := rest }
  | flush {core : Core} (hrename : s.toRename = []) (hdecode : s.toDecode = [])
      (hcore : s.core.step p pd pr pu .flush = .ok core) :
    Stepped q p pd pr pu s .flush { s with
      core := core
      decode := match FlushManager.forwardUpper s.core.front.pendingFlush with
        | none => s.decode
        | some c => (Decode.handleFlush s.decode c).1 }
  | core {op : CoreOp} {core : Core} (hop : op.isInner = true)
      (hcore : s.core.step p pd pr pu op = .ok core) :
    Stepped q p pd pr pu s (.core op)
      { s with core := core, toDecode := s.toDecode ++ s.core.vsets p pd pu op }

theorem step_stepped {q : DecodeParams} {p : RenameParams} {pd : DispatchParams} {pr : RobParams}
    {pu : UnitsParams} {s s' : DecodeCore} {op : DecodeCoreOp}
    (h : s.step q p pd pr pu op = .ok s') : Stepped q p pd pr pu s op s' := by
  cases op with
  | credits n =>
    obtain rfl := Except.ok.inj h
    exact .credits
  | appended insts =>
    obtain ⟨u, hen, h⟩ := Run.bind_eq_ok.mp h
    obtain rfl := Except.ok.inj h
    have hen := enabled_eq_ok.mp hen
    simp only [Bool.and_eq_true, List.all_eq_true] at hen
    exact .appended hen.1 hen.2
  | decode =>
    obtain ⟨u, hen, h⟩ := Run.bind_eq_ok.mp h
    obtain ⟨⟨d, out⟩, hd, h⟩ := Run.bind_eq_ok.mp h
    obtain rfl := Except.ok.inj h
    exact .decode (of_decide_eq_true (enabled_eq_ok.mp hen)) (checked_eq_ok.mp hd)
  | deliverUops =>
    obtain ⟨core, hcore, h⟩ := Run.bind_eq_ok.mp h
    obtain rfl := Except.ok.inj h
    exact .deliverUops hcore
  | deliverVset =>
    obtain ⟨u, hen, h⟩ := Run.bind_eq_ok.mp h
    cases hto : s.toDecode with
    | nil =>
      rw [hto] at h
      cases h
    | cons v rest =>
      rw [hto] at h
      obtain rfl := Except.ok.inj h
      exact .deliverVset (of_decide_eq_true (enabled_eq_ok.mp hen)) hto
  | flush =>
    obtain ⟨u, hen, h⟩ := Run.bind_eq_ok.mp h
    obtain ⟨core, hcore, h⟩ := Run.bind_eq_ok.mp h
    obtain rfl := Except.ok.inj h
    have hports := enabled_eq_ok.mp hen
    simp only [Bool.and_eq_true, List.isEmpty_iff] at hports
    exact .flush hports.1 hports.2 hcore
  | core op =>
    obtain ⟨u, hop, h⟩ := Run.bind_eq_ok.mp h
    obtain ⟨core, hcore, h⟩ := Run.bind_eq_ok.mp h
    obtain rfl := Except.ok.inj h
    exact .core (enabled_eq_ok.mp hop) hcore

/-- What a step shows. -/
def obs (q : DecodeParams) (p : RenameParams) (pd : DispatchParams) (pr : RobParams)
    (pu : UnitsParams) (s : DecodeCore) : DecodeCoreOp → List DecodeCoreEvent
  | .decode =>
    match Decode.decodeInsts q s.decode with
    | .ok (d, _) => (Decode.took s.decode d).map .took
    | .error _ => []
  | .flush => (FlushManager.forwardUpper s.core.front.pendingFlush).toList.map .flushed
  | .core op => (s.core.moves p pd pu op).map .moved ++ (s.core.retires pr op).map .retired
  | _ => []

/-- The moves of a history. -/
def movesOf (hist : List DecodeCoreEvent) : List Move :=
  hist.filterMap fun
    | .moved m => some m
    | _ => none

@[simp] theorem movesOf_append (h h' : List DecodeCoreEvent) :
    movesOf (h ++ h') = movesOf h ++ movesOf h' := List.filterMap_append

@[simp] theorem movesOf_moved (l : List Move) : movesOf (l.map .moved) = l := by
  simp [movesOf, List.filterMap_map]

@[simp] theorem movesOf_took (l : List Inst) : movesOf (l.map .took) = [] := by simp [movesOf]

@[simp] theorem movesOf_flushed (l : List FlushingCriteria) : movesOf (l.map .flushed) = [] := by
  simp [movesOf]

@[simp] theorem movesOf_retired (l : List RenamedInst) : movesOf (l.map .retired) = [] := by
  simp [movesOf]

variable {q : DecodeParams} {p : RenameParams} {x0 : ℕ} {pd : DispatchParams} {pr : RobParams}
variable {pu : UnitsParams} {hist : List DecodeCoreEvent} {s s' : DecodeCore}

/-- The invariant of the core and of its instructions that have not been executed. -/
structure CoreInv (p : RenameParams) (x0 : ℕ) (pd : DispatchParams)
    (hist : List DecodeCoreEvent) (s : DecodeCore) : Prop where
  core : s.core.Inv p x0 pd (fun _ => True) (movesOf hist)
  undone : s.core.UndoneLive (movesOf hist)

/-- The instruction is on its way to Rename, or in the core and not executed, or its message is
on its way to Decode. -/
def Pending (hist : List DecodeCoreEvent) (s : DecodeCore) (v : Inst) : Prop :=
  v ∈ s.toRename ∨ s.core.Awaited (movesOf hist) v ∨ v ∈ s.toDecode

/-! ## The core behind Decode -/

namespace CoreInv

/-- A step of the core other than a flush. -/
theorem inner {op : CoreOp} {core : Core} {moves : List Move} (H : CoreInv p x0 pd hist s)
    (hop : op ≠ .flush) (hmoves : s.core.moves p pd pu op = moves)
    (hstep : s.core.step p pd pr pu op = .ok core) :
    core.Inv p x0 pd (fun _ => True) (movesOf hist ++ moves) ∧
      Core.AwaitedSpec (movesOf hist) moves s.core core op := by
  subst hmoves
  exact ⟨H.core.step (fun _ _ _ _ => trivial) hstep, Core.awaitedSpec H.core H.undone hop hstep⟩

theorem step {op : DecodeCoreOp} (H : CoreInv p x0 pd hist s)
    (hstep : s.step q p pd pr pu op = .ok s') :
    CoreInv p x0 pd (hist ++ s.obs q p pd pr pu op) s' := by
  have hstill : ∀ {s'}, s'.core = s.core → movesOf (s.obs q p pd pr pu op) = [] →
      CoreInv p x0 pd (hist ++ s.obs q p pd pr pu op) s' := by
    intro s' hcore hobs
    constructor
    · rw [movesOf_append, hobs, List.append_nil, hcore]
      exact H.core
    · rw [movesOf_append, hobs, List.append_nil, hcore]
      exact H.undone
  cases step_stepped hstep with
  | credits => exact hstill rfl rfl
  | appended => exact hstill rfl rfl
  | decode _ hd =>
    refine hstill rfl ?_
    simp only [obs, hd, movesOf_took]
  | deliverUops hcore =>
    have hmoves : s.core.moves p pd pu (.front (.decoded s.toRename)) = [] := by
      simp [Core.moves, InStep.renames, InStep.sends]
    obtain ⟨I, A⟩ := H.inner (by simp) hmoves hcore
    simp only [obs, List.append_nil] at A I ⊢
    exact ⟨I, by simpa using A.live⟩
  | deliverVset => exact hstill rfl rfl
  | flush _ _ hcore =>
    have I := H.core.step (fun _ _ _ _ => trivial) hcore
    have U := (Core.awaited_flush H.core H.undone hcore).1
    constructor
    · simpa [obs, Core.moves] using I
    · simpa [obs] using U
  | core hop hcore =>
    obtain ⟨I, A⟩ := H.inner (CoreOp.ne_flush_of_isInner hop) rfl hcore
    constructor
    · simpa [obs] using I
    · simpa [obs] using A.live

end CoreInv

theorem coreInv_init (p : RenameParams) (x0 : ℕ) (pd : DispatchParams) :
    CoreInv p x0 pd [] (init p x0) :=
  ⟨Core.inv_init p x0 pd _, by simp [Core.UndoneLive, init, Core.init, InStep.init,
    RenameState.init]⟩

/-! ## The vset that Decode waits for -/

/-- At most one vset that blocks is pending, at one place, and only while Decode waits. -/
structure Vsets (hist : List DecodeCoreEvent) (s : DecodeCore) : Prop where
  free : s.decode.waitingOnVset = false → ∀ v, v.blocks = true → ¬Pending hist s v
  same : ∀ v w, v.blocks = true → w.blocks = true → Pending hist s v → Pending hist s w → v = w
  sent : ∀ v ∈ s.toRename, v.blocks = true →
    (∀ w, w.blocks = true → ¬s.core.Awaited (movesOf hist) w) ∧ s.toDecode = []
  awaited : ∀ v, v.blocks = true → s.core.Awaited (movesOf hist) v → s.toDecode = []
  messages : s.toDecode.length ≤ 1 ∧ ∀ v ∈ s.toDecode, v.blocks = true
  queue : ∀ i ∈ s.decode.fetchQueue, i.isNew = true
  novset : Decode.NoVset s.decode.vecUopGen

theorem vsets_init (p : RenameParams) (x0 : ℕ) : Vsets [] (init p x0) := by
  have hnone : ∀ v, ¬Pending [] (init p x0) v := by
    intro v hv
    rcases hv with hv | ⟨hv | ⟨ri, hri, -⟩⟩ | hv
    · cases hv
    · simp [init, Core.init, InStep.init, RenameState.init] at hv
    · simp [init, Core.init, InStep.init, RenameState.init] at hri
    · cases hv
  exact ⟨fun _ v _ => hnone v, fun v _ _ _ hv => absurd hv (hnone v), by simp [init],
    fun v _ hv => absurd (.inr (.inl hv)) (hnone v), by simp [init], by simp [init],
    fun i hi => by cases hi⟩

namespace Vsets

/-- A step that leaves the places of the vsets alone. -/
theorem of_still {hist' : List DecodeCoreEvent} (H : Vsets hist s)
    (hwait : s'.decode.waitingOnVset = s.decode.waitingOnVset)
    (hpending : ∀ v, s'.core.Awaited (movesOf hist') v ↔ s.core.Awaited (movesOf hist) v)
    (hrename : s'.toRename = s.toRename) (hdecode : s'.toDecode = s.toDecode)
    (hqueue : ∀ i ∈ s'.decode.fetchQueue, i.isNew = true)
    (hgen : Decode.NoVset s'.decode.vecUopGen) : Vsets hist' s' := by
  have hiff : ∀ v, Pending hist' s' v ↔ Pending hist s v := by
    intro v
    simp only [Pending, hrename, hdecode, hpending]
  refine ⟨fun hw v hv => ?_, fun v w hv hw hpv hpw => ?_, fun v hv hb => ?_, fun v hv ha => ?_,
    ?_, hqueue, hgen⟩
  · rw [hiff]
    exact H.free (hwait ▸ hw) v hv
  · exact H.same v w hv hw ((hiff v).mp hpv) ((hiff w).mp hpw)
  · simp only [hpending, hdecode]
    exact H.sent v (by rw [← hrename]; exact hv) hb
  · rw [hdecode]
    exact H.awaited v hv ((hpending v).mp ha)
  · rw [hdecode]
    exact H.messages

theorem decode (hm : q.mavis.KeepsPipe) (H : Vsets hist s)
    (hstep : s.step q p pd pr pu .decode = .ok s') :
    Vsets (hist ++ s.obs q p pd pr pu .decode) s' ∧
      (s'.decode.waitingOnVset = true → s.decode.waitingOnVset = false →
        ∃ v ∈ s'.toRename, v.blocks = true ∧ .took v ∈ s.obs q p pd pr pu .decode) := by
  cases step_stepped hstep with
  | @decode d out _ hd =>
    obtain ⟨l, B⟩ := Decode.decodeInsts_session hm H.novset H.queue hd
    have hmoves : movesOf (hist ++ s.obs q p pd pr pu .decode) = movesOf hist := by
      simp [obs, hd]
    have hqueue : ∀ i ∈ d.fetchQueue, i.isNew = true := by
      intro i hi
      refine H.queue i ?_
      rw [B.queue]
      exact List.mem_append_right _ hi
    cases hwait : d.waitingOnVset with
    | false =>
      obtain ⟨hwait₀, hfree, -⟩ := B.free hwait
      have hnone := H.free hwait₀
      have hpending : ∀ v, v.blocks = true → ¬Pending (hist ++ s.obs q p pd pr pu .decode)
          { s with decode := d, toRename := s.toRename ++ out.getD [] } v := by
        intro v hv hp
        unfold Pending at hp
        rw [hmoves] at hp
        rcases hp with hp | hp
        · rcases List.mem_append.mp hp with hp | hp
          · exact hnone v hv (.inl hp)
          · rw [hfree v hp] at hv
            cases hv
        · exact hnone v hv (.inr hp)
      refine ⟨⟨fun _ => hpending, fun v w hv _ hpv => absurd hpv (hpending v hv),
        fun v hv hb => absurd (.inl hv) (hpending v hb),
        fun v hv ha => absurd (.inr (.inl ha)) (hpending v hv), H.messages, hqueue, B.novset⟩,
        fun hw => ?_⟩
      cases hw
    | true =>
      rcases B.waits hwait with ⟨hwait₀, hnil, -⟩ | ⟨hwait₀, us, ts, v, hout, hts, hv, -, hus⟩
      · refine ⟨H.of_still (hwait.trans hwait₀.symm) (fun v => by rw [hmoves]) (by simp [hnil]) rfl
          hqueue B.novset, fun _ hnot => ?_⟩
        rw [hwait₀] at hnot
        cases hnot
      · have hnone := H.free hwait₀
        have hnone' : ∀ w, w.blocks = true → w ∉ s.toRename ∧
            ¬s.core.Awaited (movesOf hist) w ∧ w ∉ s.toDecode := fun w hw =>
          ⟨fun h => hnone w hw (.inl h), fun h => hnone w hw (.inr (.inl h)),
            fun h => hnone w hw (.inr (.inr h))⟩
        have hempty : s.toDecode = [] := by
          rcases hto : s.toDecode with _ | ⟨w, rest⟩
          · rfl
          · have hmem : w ∈ s.toDecode := by simp [hto]
            exact absurd hmem (hnone' w (H.messages.2 w hmem)).2.2
        have honly : ∀ w, w.blocks = true →
            Pending (hist ++ s.obs q p pd pr pu .decode)
              { s with decode := d, toRename := s.toRename ++ out.getD [] } w → w = v := by
          intro w hw hp
          unfold Pending at hp
          rw [hmoves] at hp
          rcases hp with hp | hp | hp
          · rw [hout] at hp
            rcases List.mem_append.mp hp with hp | hp
            · exact absurd hp (hnone' w hw).1
            · rcases List.mem_append.mp hp with hp | hp
              · rw [hus w hp] at hw
                cases hw
              · exact List.mem_singleton.mp hp
          · exact absurd hp (hnone' w hw).2.1
          · exact absurd hp (hnone' w hw).2.2
        refine ⟨⟨fun hw => ?_,
          fun w w' hw hw' hp hp' => (honly w hw hp).trans (honly w' hw' hp').symm,
          fun w _ _ => ⟨fun w' hw' => ?_, hempty⟩, fun w hw ha => hempty, H.messages, hqueue,
          B.novset⟩, fun _ _ => ⟨v, ?_, hv, ?_⟩⟩
        · rw [hwait] at hw
          cases hw
        · rw [hmoves]
          exact (hnone' w' hw').2.1
        · simp [hout]
        · simp only [obs, hd, B.took_eq, hts]
          simp

/-- A group from Decode arrives at Rename: what was on the port is in the core. -/
theorem deliverUops_spec (I : CoreInv p x0 pd hist s)
    (hstep : s.step q p pd pr pu .deliverUops = .ok s') :
    s'.decode = s.decode ∧ s'.toDecode = s.toDecode ∧ s'.toRename = [] ∧
      (∀ v, s'.core.Awaited (movesOf hist) v ↔
        s.core.Awaited (movesOf hist) v ∨ v ∈ s.toRename) := by
  cases step_stepped hstep with
  | deliverUops hcore =>
    have hmoves : s.core.moves p pd pu (.front (.decoded s.toRename)) = [] := by
      simp [Core.moves, InStep.renames, InStep.sends]
    obtain ⟨-, A⟩ := I.inner (by simp) hmoves hcore
    refine ⟨rfl, rfl, rfl, fun v => ⟨fun hv => ?_, fun hv => ?_⟩⟩
    · have hold := A.old v (by simpa using hv)
      refine hold.imp_right fun h => ?_
      obtain ⟨insts, hop, hmem⟩ := h
      cases hop
      exact hmem
    · rcases hv with hv | hv
      · rcases A.stays v hv with h | ⟨m, hm, -⟩
        · simpa using h
        · cases hm
      · -- it is in the uop queue now
        cases Core.step_stepped hcore with
        | front _ hfront =>
          cases InStep.step_stepped hfront
          refine .inl ?_
          show v ∈ s.core.front.rename.uopQueue ++ s.toRename
          exact List.mem_append_right _ hv

theorem deliverUops (I : CoreInv p x0 pd hist s) (H : Vsets hist s)
    (hstep : s.step q p pd pr pu .deliverUops = .ok s') :
    Vsets (hist ++ s.obs q p pd pr pu .deliverUops) s' ∧
      ∀ v, Pending (hist ++ s.obs q p pd pr pu .deliverUops) s' v ↔ Pending hist s v := by
  obtain ⟨hdec, hto, hport, hawaited⟩ := deliverUops_spec I hstep
  simp only [obs, List.append_nil]
  have hiff : ∀ v, Pending hist s' v ↔ Pending hist s v := by
    intro v
    simp only [Pending, hto, hport, hawaited]
    simp only [List.not_mem_nil, false_or]
    tauto
  refine ⟨⟨fun hw v hv => ?_, fun v w hv hw hpv hpw => ?_, fun v hv => ?_, fun v hv ha => ?_, ?_,
    ?_, ?_⟩, hiff⟩
  · rw [hiff]
    exact H.free (hdec ▸ hw) v hv
  · exact H.same v w hv hw ((hiff v).mp hpv) ((hiff w).mp hpw)
  · rw [hport] at hv
    cases hv
  · rw [hto]
    rcases (hawaited v).mp ha with h | h
    · exact H.awaited v hv h
    · exact (H.sent v h hv).2
  · rw [hto]
    exact H.messages
  · rw [hdec]
    exact H.queue
  · rw [hdec]
    exact H.novset

theorem deliverVset (H : Vsets hist s) (hstep : s.step q p pd pr pu .deliverVset = .ok s') :
    Vsets (hist ++ s.obs q p pd pr pu .deliverVset) s' ∧
      ∃ v, s.toDecode = [v] ∧ s'.toDecode = [] ∧ s'.toRename = s.toRename ∧ s'.core = s.core ∧
        s'.decode = Decode.processVset s.decode v := by
  obtain ⟨hlen, hmsg⟩ := H.messages
  cases step_stepped hstep with
  | @deliverVset v rest _ hto =>
    rw [hto] at hlen ⊢
    obtain rfl : rest = [] := by simpa using hlen
    have hobs : hist ++ s.obs q p pd pr pu .deliverVset = hist := List.append_nil _
    rw [hobs]
    -- the message was the last place of a pending vset
    have hne : s.toDecode ≠ [] := by simp [hto]
    have hnone : ∀ w, w.blocks = true → ¬Pending hist
        { s with decode := Decode.processVset s.decode v, toDecode := [] } w := by
      intro w hw hp
      rcases hp with hp | hp | hp
      · exact hne (H.sent w hp hw).2
      · exact hne (H.awaited w hw hp)
      · cases hp
    exact ⟨⟨fun _ => hnone, fun w _ hw _ hp => absurd hp (hnone w hw),
      fun w hw hb => absurd (.inl hw) (hnone w hb), fun _ _ _ => rfl,
      ⟨by simp, by simp⟩, H.queue, H.novset⟩, v, rfl, rfl, rfl, rfl, rfl⟩

theorem flush (I : CoreInv p x0 pd hist s) (H : Vsets hist s)
    (hstep : s.step q p pd pr pu .flush = .ok s') :
    Vsets (hist ++ s.obs q p pd pr pu .flush) s' ∧
      match FlushManager.forwardUpper s.core.front.pendingFlush with
      | none => s'.decode = s.decode ∧
        ∀ v, Pending (hist ++ s.obs q p pd pr pu .flush) s' v ↔ Pending hist s v
      | some c => s'.decode = (Decode.handleFlush s.decode c).1 ∧
        ∀ v, ¬Pending (hist ++ s.obs q p pd pr pu .flush) s' v := by
  cases step_stepped hstep with
  | @flush core hrename hdecode hcore =>
    have hmoves : movesOf (hist ++ s.obs q p pd pr pu .flush) = movesOf hist := by simp [obs]
    have hcase := (Core.awaited_flush I.core I.undone hcore).2
    cases hforward : FlushManager.forwardUpper s.core.front.pendingFlush with
    | none =>
      rw [hforward] at hcase
      refine ⟨H.of_still ?_ (fun v => ?_) rfl rfl ?_ ?_, rfl, fun v => ?_⟩
      · rfl
      · rw [hmoves]
        exact hcase v
      · exact H.queue
      · exact H.novset
      · simp only [Pending, hmoves, hcase]
    | some c =>
      rw [hforward] at hcase
      have hnone : ∀ v, ¬Pending (hist ++ s.obs q p pd pr pu .flush)
          { s with core := core, decode := (Decode.handleFlush s.decode c).1 } v := by
        intro v hv
        rcases hv with hv | hv | hv
        · rw [hrename] at hv
          cases hv
        · rw [hmoves] at hv
          exact hcase v hv
        · rw [hdecode] at hv
          cases hv
      refine ⟨⟨fun _ v _ => hnone v, fun v _ _ _ hv => absurd hv (hnone v),
        fun v hv _ => absurd (.inl hv) (hnone v), fun v _ hv => absurd (.inr (.inl hv)) (hnone v),
        by simp [hdecode], fun i hi => (by cases hi), fun i hi => ?_⟩, rfl, hnone⟩
      simp only [Decode.handleFlush, VectorUopGenerator.handleFlush] at hi
      split at hi
      · cases hi
      · exact H.novset i hi

theorem core {op : CoreOp} (I : CoreInv p x0 pd hist s) (hlsu : .lsu ∉ pd.dispatchers .vset)
    (H : Vsets hist s) (hstep : s.step q p pd pr pu (.core op) = .ok s') :
    Vsets (hist ++ s.obs q p pd pr pu (.core op)) s' ∧
      ∀ v, v.blocks = true → (Pending hist s v ↔
        Pending (hist ++ s.obs q p pd pr pu (.core op)) s' v) := by
  cases step_stepped hstep with
  | @core _ core hop hcore =>
    obtain ⟨I', A⟩ := I.inner (CoreOp.ne_flush_of_isInner hop) rfl hcore
    have hmoves : movesOf (hist ++ s.obs q p pd pr pu (.core op)) =
        movesOf hist ++ s.core.moves p pd pu op := by simp [obs]
    have hold : ∀ v, core.Awaited (movesOf hist ++ s.core.moves p pd pu op) v →
        s.core.Awaited (movesOf hist) v := by
      intro v hv
      refine (A.old v hv).resolve_right fun h => ?_
      obtain ⟨insts, rfl, -⟩ := h
      cases hop
    have hstays : ∀ v, v.blocks = true → s.core.Awaited (movesOf hist) v →
        core.Awaited (movesOf hist ++ s.core.moves p pd pu op) v ∨
          ∃ m ∈ s.core.moves p pd pu op, m.inst.inst = v ∧ m.place = .executed := by
      intro v hv ha
      refine (A.stays v ha).imp_right fun h => ?_
      obtain ⟨m, hm, rfl, hdone⟩ := h
      refine ⟨m, hm, rfl, ?_⟩
      cases hplace : m.place with
      | executed => rfl
      | lsuIssued =>
        have hpipe : m.inst.inst.pipe = .vset := by
          simp only [Inst.blocks, Inst.isVset, Bool.and_eq_true, beq_iff_eq] at hv
          exact hv.1
        exact absurd (hpipe ▸ Core.lsu_of_issued I.core hcore hm hplace) hlsu
      | _ =>
        rw [hplace] at hdone
        cases hdone
    by_cases hex : ∃ m ∈ s.core.moves p pd pu op, m.place = .executed ∧ m.inst.inst.blocks = true
    · -- the vset that is awaited executes and its pipe sends it back
      obtain ⟨m, hm, hplace, hblocks⟩ := hex
      obtain ⟨hone, hq, hun⟩ := Core.awaited_of_executed I.core hcore hm hplace
      have hv : s.core.Awaited (movesOf hist) m.inst.inst := .inr ⟨m.inst, hq, rfl, hun⟩
      have hsends : s.core.vsets p pd pu op = [m.inst.inst] := by
        simp [Core.vsets, hone, hplace, hblocks]
      have hto : s.toDecode = [] := H.awaited _ hblocks hv
      have hafter : placeAfter (movesOf hist ++ s.core.moves p pd pu op) m.key =
          some .executed := by
        rw [hone, ← hplace]
        exact (moved_placeAfter _ (by simp)).moved m List.mem_cons_self
      have hnone : ∀ w, w.blocks = true →
          ¬core.Awaited (movesOf hist ++ s.core.moves p pd pu op) w := by
        intro w hw ha
        obtain rfl := H.same _ _ hw hblocks (.inr (.inl (hold w ha))) (.inr (.inl hv))
        rcases ha with ha | ⟨rj, -, heq, pl, hpl, hdone⟩
        · have hplace' := (I'.uops _ ha).2
          rw [show m.inst.inst.key = m.key from rfl, hafter] at hplace'
          cases hplace'
        · rw [show rj.key = m.key from congrArg Inst.key heq, hafter] at hpl
          obtain rfl := Option.some.inj hpl
          cases hdone
      have hrename : ∀ w, w.blocks = true → w ∉ s.toRename := fun w hw hmem =>
        (H.sent w hmem hw).1 _ hblocks hv
      have hiff : ∀ w, w.blocks = true → (Pending hist s w ↔ w = m.inst.inst) := by
        intro w hw
        refine ⟨fun hp => H.same _ _ hw hblocks hp (.inr (.inl hv)), ?_⟩
        rintro rfl
        exact .inr (.inl hv)
      have hiff' : ∀ w, w.blocks = true → (Pending (hist ++ s.obs q p pd pr pu (.core op))
          { s with core := core, toDecode := s.toDecode ++ s.core.vsets p pd pu op } w ↔
            w = m.inst.inst) := by
        intro w hw
        unfold Pending
        rw [hmoves, hsends, hto]
        have h₁ := hrename w hw
        have h₂ := hnone w hw
        simp [h₁, h₂]
      refine ⟨⟨fun hw w hb => ?_, fun w w' hw hw' hp hp' => ?_, fun w hmem hb => ?_,
        fun w hb ha => ?_, ?_, H.queue, H.novset⟩, fun w hw => (hiff w hw).trans (hiff' w hw).symm⟩
      · exact absurd (.inr (.inl hv)) (H.free hw _ hblocks)
      · exact ((hiff' w hw).mp hp).trans ((hiff' w' hw').mp hp').symm
      · exact absurd hmem (hrename w hb)
      · rw [hmoves] at ha
        exact absurd ha (hnone w hb)
      · rw [hto, hsends]
        exact ⟨by simp, by simpa using hblocks⟩
    · -- no vset executes
      have hsends : s.core.vsets p pd pu op = [] := by
        simp only [Core.vsets, List.map_eq_nil_iff, List.filter_eq_nil_iff]
        intro m hm h
        simp only [Bool.and_eq_true, decide_eq_true_eq] at h
        exact hex ⟨m, hm, h⟩
      have hiff : ∀ v, v.blocks = true → (core.Awaited (movesOf hist ++ s.core.moves p pd pu op) v ↔
          s.core.Awaited (movesOf hist) v) := by
        intro v hv
        refine ⟨hold v, fun ha => (hstays v hv ha).resolve_right fun h => ?_⟩
        obtain ⟨m, hm, rfl, hplace⟩ := h
        exact hex ⟨m, hm, hplace, hv⟩
      have hiff' : ∀ v, v.blocks = true → (Pending hist s v ↔
          Pending (hist ++ s.obs q p pd pr pu (.core op))
            { s with core := core, toDecode := s.toDecode ++ s.core.vsets p pd pu op } v) := by
        intro v hv
        unfold Pending
        rw [hmoves, hsends, hiff v hv, List.append_nil]
      refine ⟨⟨fun hw v hv hp => ?_, fun v w hv hw hp hp' => ?_, fun v hmem hb => ?_,
        fun v hv ha => ?_, ?_, H.queue, H.novset⟩, hiff'⟩
      · exact H.free hw v hv ((hiff' v hv).mpr hp)
      · exact H.same v w hv hw ((hiff' v hv).mpr hp) ((hiff' w hw).mpr hp')
      · obtain ⟨hnone, hto⟩ := H.sent v hmem hb
        refine ⟨fun w hw ha => ?_, ?_⟩
        · rw [hmoves] at ha
          exact hnone w hw (hold w ha)
        · rw [hsends, List.append_nil]
          exact hto
      · rw [hmoves] at ha
        rw [hsends, List.append_nil]
        exact H.awaited v hv (hold v ha)
      · rw [hsends, List.append_nil]
        exact H.messages

end Vsets

/-- Decode waits only if a vset that it has decoded is pending. -/
def WaitsForPending (hist : List DecodeCoreEvent) (s : DecodeCore) : Prop :=
  s.decode.waitingOnVset = true → ∃ v, v.blocks = true ∧ .took v ∈ hist ∧ Pending hist s v

section Step

variable {op : DecodeCoreOp}

theorem Vsets.step (hm : q.mavis.KeepsPipe) (hlsu : .lsu ∉ pd.dispatchers .vset)
    (I : CoreInv p x0 pd hist s) (H : Vsets hist s) (hstep : s.step q p pd pr pu op = .ok s') :
    Vsets (hist ++ s.obs q p pd pr pu op) s' := by
  cases step_stepped hstep with
  | credits =>
    simp only [obs, List.append_nil]
    exact H.of_still rfl (fun _ => Iff.rfl) rfl rfl H.queue H.novset
  | appended _ hnew =>
    simp only [obs, List.append_nil]
    refine H.of_still rfl (fun _ => Iff.rfl) rfl rfl (fun i hi => ?_) H.novset
    rcases List.mem_append.mp hi with hi | hi
    · exact H.queue i hi
    · exact hnew i hi
  | decode => exact (H.decode hm hstep).1
  | deliverUops => exact (H.deliverUops I hstep).1
  | deliverVset => exact (H.deliverVset hstep).1
  | flush => exact (H.flush I hstep).1
  | core => exact (H.core I hlsu hstep).1

/-- A vset that Decode waits for stays pending until its message arrives, if no flush comes. -/
theorem waitsForPending_step (hm : q.mavis.KeepsPipe) (hlsu : .lsu ∉ pd.dispatchers .vset)
    (I : CoreInv p x0 pd hist s) (H : Vsets hist s) (K : WaitsForPending hist s)
    (hflush : op = .flush → FlushManager.forwardUpper s.core.front.pendingFlush ≠ none →
      s.decode.waitingOnVset = false)
    (hstep : s.step q p pd pr pu op = .ok s') :
    WaitsForPending (hist ++ s.obs q p pd pr pu op) s' := by
  have hkept : (s'.decode.waitingOnVset = true → s.decode.waitingOnVset = true) →
      (∀ v, v.blocks = true → Pending hist s v →
        Pending (hist ++ s.obs q p pd pr pu op) s' v) →
      WaitsForPending (hist ++ s.obs q p pd pr pu op) s' := by
    intro hwaits hpending hwait
    obtain ⟨v, hv, htook, hp⟩ := K (hwaits hwait)
    exact ⟨v, hv, List.mem_append_left _ htook, hpending v hv hp⟩
  cases step_stepped hstep with
  | @credits n =>
    refine hkept id fun v _ hp => ?_
    rw [show s.obs q p pd pr pu (.credits n) = [] from rfl, List.append_nil]
    exact hp
  | @appended insts =>
    refine hkept id fun v _ hp => ?_
    rw [show s.obs q p pd pr pu (.appended insts) = [] from rfl, List.append_nil]
    exact hp
  | decode _ hd =>
    have hnew := (H.decode hm hstep).2
    intro hwait
    cases hwas : s.decode.waitingOnVset with
    | false =>
      obtain ⟨v, hv, hb, htook⟩ := hnew hwait hwas
      exact ⟨v, hb, List.mem_append_right _ htook, .inl hv⟩
    | true =>
      obtain ⟨v, hb, htook, hp⟩ := K hwas
      refine ⟨v, hb, List.mem_append_left _ htook, hp.imp (List.mem_append_left _) (Or.imp_left ?_)⟩
      rw [movesOf_append, obs, hd]
      simp
  | deliverUops =>
    obtain ⟨hdec, -⟩ := Vsets.deliverUops_spec I hstep
    exact hkept (fun hw => by rwa [hdec] at hw) fun v _ hp => ((H.deliverUops I hstep).2 v).mpr hp
  | deliverVset =>
    obtain ⟨v, -, -, -, -, hdec⟩ := (H.deliverVset hstep).2
    intro hwait
    rw [hdec] at hwait
    cases hwait
  | flush =>
    have hcase := (H.flush I hstep).2
    cases hforward : FlushManager.forwardUpper s.core.front.pendingFlush with
    | none =>
      simp only [hforward] at hcase hkept
      exact hkept id fun v _ hp => (hcase.2 v).mpr hp
    | some c =>
      rw [hforward] at hcase
      intro hwait
      have hno := hflush rfl (by simp [hforward])
      rw [hcase.1] at hwait
      rw [show s.decode.waitingOnVset = true from hwait] at hno
      cases hno
  | core => exact hkept id fun v hv hp => ((H.core I hlsu hstep).2 v hv).mp hp

end Step

theorem run_inv (hm : q.mavis.KeepsPipe) (hlsu : .lsu ∉ pd.dispatchers .vset)
    {hs : List DecodeCoreEvent × DecodeCore} (h : Run.Reachable
      (Run.traced (step q p pd pr pu) (obs q p pd pr pu)) ([], init p x0) hs) :
    CoreInv p x0 pd hs.1 hs.2 ∧ Vsets hs.1 hs.2 := by
  refine h.invariant (I := fun hs => CoreInv p x0 pd hs.1 hs.2 ∧ Vsets hs.1 hs.2)
    ⟨coreInv_init p x0 pd, vsets_init p x0⟩ ?_
  rintro op ⟨hist, s⟩ ⟨hist', s'⟩ ⟨I, H⟩ hstep
  obtain ⟨hstep, rfl⟩ := Run.traced_eq_ok.mp hstep
  exact ⟨I.step hstep, H.step hm hlsu I hstep⟩

end DecodeCore

/-- Decode waits only for a vset that it has decoded and that is on its way to its execution, or
whose message is on its way back, if and only if no flush reaches Decode while it waits. -/
theorem decode_waits_for_live_vset (q : DecodeParams) (p : RenameParams) (x0 : ℕ)
    (pd : DispatchParams) (pr : RobParams) (pu : UnitsParams) (hm : q.mavis.KeepsPipe)
    (hlsu : .lsu ∉ pd.dispatchers .vset) {ops : List DecodeCoreOp} {s : DecodeCore}
    (hrun : ops.foldlM (DecodeCore.step q p pd pr pu) (.init p x0) = .ok s) :
    (∀ hist t, Run.Visits (Run.traced (DecodeCore.step q p pd pr pu)
        (DecodeCore.obs q p pd pr pu)) ([], .init p x0) ops (hist, t) →
      t.decode.waitingOnVset = true →
      ∃ v, v.blocks = true ∧ .took v ∈ hist ∧ DecodeCore.Pending hist t v) ↔
    ∀ t, Run.Takes (DecodeCore.step q p pd pr pu) (.init p x0) ops t .flush →
      FlushManager.forwardUpper t.core.front.pendingFlush ≠ none →
      t.decode.waitingOnVset = false := by
  constructor
  · -- a flush leaves no vset behind
    intro hwaits t htakes hforward
    obtain ⟨hist, htraced⟩ := htakes.exists_traced (DecodeCore.obs q p pd pr pu)
    obtain ⟨hist', hrun⟩ := Run.exists_traced_of_foldlM (DecodeCore.obs q p pd pr pu) hrun
    obtain ⟨⟨hist₁, t'⟩, hstep, hvisits⟩ := htraced.next hrun
    obtain ⟨hstep, rfl⟩ := Run.traced_eq_ok.mp hstep
    obtain ⟨I, H⟩ := DecodeCore.run_inv hm hlsu htraced.visits.reachable
    have hcase := (H.flush I hstep).2
    obtain ⟨c, hc⟩ := Option.ne_none_iff_exists'.mp hforward
    rw [hc] at hcase
    obtain ⟨hdec, hnone⟩ := hcase
    cases hwait : t.decode.waitingOnVset with
    | false => rfl
    | true =>
      have hwait' : t'.decode.waitingOnVset = true := by
        rw [hdec]
        exact hwait
      obtain ⟨v, -, -, hv⟩ := hwaits _ t' hvisits hwait'
      exact absurd hv (hnone v)
  · intro hflush hist t hvisits
    have hK : DecodeCore.CoreInv p x0 pd hist t ∧ DecodeCore.Vsets hist t ∧
        DecodeCore.WaitsForPending hist t := by
      refine hvisits.invariant (I := fun hs => DecodeCore.CoreInv p x0 pd hs.1 hs.2 ∧
        DecodeCore.Vsets hs.1 hs.2 ∧ DecodeCore.WaitsForPending hs.1 hs.2)
        ⟨DecodeCore.coreInv_init p x0 pd, DecodeCore.vsets_init p x0, fun h => (by cases h)⟩ ?_
      rintro op ⟨hist, t⟩ ⟨hist', t'⟩ ⟨I, H, K⟩ htakes hstep
      obtain ⟨hstep, rfl⟩ := Run.traced_eq_ok.mp hstep
      refine ⟨I.step hstep, H.step hm hlsu I hstep,
        DecodeCore.waitsForPending_step hm hlsu I H K ?_ hstep⟩
      rintro rfl
      exact hflush t htakes.of_traced
    exact hK.2.2

/-! ## Runs -/

/-- Branches go to the first issue queue, and vsets and vector instructions to the second. -/
def vsetDispatch : DispatchParams where
  dispatchers
    | .br => [.iq 0]
    | .vset => [.iq 1]
    | .vfloat => [.iq 1]
    | _ => []

theorem vsetUnits_nodup : [UnitId.iq 0, .iq 1].Nodup := by decide

/-- Each issue queue has one pipe. -/
def vsetUnits : UnitsParams where
  units := [.iq 0, .iq 1]
  iq n := { exePipes := fun _ => [n] }
  pipe _ := { enableRandomMisprediction := true }
  units_nodup := vsetUnits_nodup

def branch : Inst := { uniqueId := 1, programId := 1, pipe := .br, isBranch := true }

def vsetvl : Inst :=
  { uniqueId := 2, programId := 2, pipe := .vset, isVector := true, mavisUid := .vsetvl }

/-- The first credits of Decode, Rename and Dispatch. -/
def firstCreditOps : List DecodeCoreOp :=
  [.credits 10, .core (.front (.dispatchCredits 10)), .core (.front (.robCredits 30)),
   .core (.front (.unitCredits (.iq 0) 8)), .core (.front (.unitCredits (.iq 1) 8))]

/-- The instructions are decoded, renamed and dispatched, and arrive at their issue queues. -/
def arriveOps (insts : List Inst) : List DecodeCoreOp :=
  [.appended insts, .decode, .core (.front .nextCycle), .deliverUops, .flush,
   .core (.front .rename), .core (.front .nextCycle), .core (.front .deliverRenamed), .flush,
   .core (.front .dispatch), .core (.front .nextCycle), .core (.front .deliverDispatched)] ++
  insts.map (fun _ => .core (.deliverUnit 0)) ++ [.flush]

/-- A `vsetvl` behind a branch. -/
def vsetOps : List DecodeCoreOp := firstCreditOps ++ arriveOps [branch, vsetvl]

/-- The branch executes mispredicted, retires and asks for a flush. -/
def mispredictedOps : List DecodeCoreOp :=
  [.core (.units (.sendReadyInsts 0)), .core (.units (.executeInst 0 0 true)),
   .core (.units (.completePipe 0 0)), .core (.front .retire), .core (.front .nextCycle),
   .core (.front .deliverAck), .flush]

theorem decode_waits_for_live_vset_sample :
    ∃ hist s, vsetOps.foldlM (Run.traced
        (DecodeCore.step { mavis := plainMavis } {} vsetDispatch {} vsetUnits)
        (DecodeCore.obs { mavis := plainMavis } {} vsetDispatch {} vsetUnits))
        ([], DecodeCore.init {} 0) = .ok (hist, s) ∧ s.decode.waitingOnVset = true ∧
      ∃ v, v.blocks = true ∧ .took v ∈ hist ∧ DecodeCore.Pending hist s v := by
  have hall : Run.along (DecodeCore.step { mavis := plainMavis } {} vsetDispatch {} vsetUnits)
      (fun s _ => s.core.front.pendingFlush.isNone) (DecodeCore.init {} 0) vsetOps = true := by
    decide +kernel
  have heval : (vsetOps.foldlM (DecodeCore.step { mavis := plainMavis } {} vsetDispatch {}
      vsetUnits) (DecodeCore.init {} 0)).toOption.map (fun s => s.decode.waitingOnVset) =
      some true := by
    decide +kernel
  obtain ⟨s, hs, hwait⟩ := Run.ok_of_eval heval
  have hflush : ∀ t, Run.Takes (DecodeCore.step { mavis := plainMavis } {} vsetDispatch {}
      vsetUnits) (DecodeCore.init {} 0) vsetOps t .flush →
      FlushManager.forwardUpper t.core.front.pendingFlush ≠ none →
      t.decode.waitingOnVset = false := by
    intro t htakes hforward
    have hnone := Run.Takes.of_along hall htakes
    rw [Option.isNone_iff_eq_none.mp hnone] at hforward
    exact absurd rfl hforward
  obtain ⟨hist, hrun⟩ := Run.exists_traced_of_foldlM
    (DecodeCore.obs { mavis := plainMavis } {} vsetDispatch {} vsetUnits) hs
  exact ⟨hist, s, hrun, hwait, (decode_waits_for_live_vset { mavis := plainMavis } {} 0
    vsetDispatch {} vsetUnits (fun _ _ _ h => h) (by decide) hs).mpr hflush hist s (.last hrun)
    hwait⟩

/-- After the flush Decode still waits, and there is no vset any more. -/
theorem decode_waits_in_vain :
    ¬∀ hist s, (vsetOps ++ mispredictedOps).foldlM (Run.traced
        (DecodeCore.step { mavis := plainMavis } {} vsetDispatch {} vsetUnits)
        (DecodeCore.obs { mavis := plainMavis } {} vsetDispatch {} vsetUnits))
        ([], DecodeCore.init {} 0) = .ok (hist, s) → s.decode.waitingOnVset = true →
      ∃ v, v.blocks = true ∧ DecodeCore.Pending hist s v := by
  intro h
  have heval : ((vsetOps ++ mispredictedOps).foldlM (DecodeCore.step { mavis := plainMavis } {}
      vsetDispatch {} vsetUnits) (DecodeCore.init {} 0)).toOption.map (fun s =>
        (s.decode.waitingOnVset, s.toRename.isEmpty, s.toDecode.isEmpty,
          s.core.front.rename.uopQueue.isEmpty, s.core.front.rename.instQueue.isEmpty)) =
      some (true, true, true, true, true) := by
    decide +kernel
  obtain ⟨s, hs, hval⟩ := Run.ok_of_eval heval
  simp only [Prod.mk.injEq, List.isEmpty_iff] at hval
  obtain ⟨hwait, hrename, hdecode, huop, hq⟩ := hval
  obtain ⟨hist, hrun⟩ := Run.exists_traced_of_foldlM
    (DecodeCore.obs { mavis := plainMavis } {} vsetDispatch {} vsetUnits) hs
  obtain ⟨v, -, hv | (hv | ⟨ri, hri, -⟩) | hv⟩ := h hist s hrun hwait
  · rw [hrename] at hv
    cases hv
  · rw [huop] at hv
    cases hv
  · rw [hq] at hri
    cases hri
  · rw [hdecode] at hv
    cases hv

end Olympia
