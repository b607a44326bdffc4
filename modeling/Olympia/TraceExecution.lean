import Olympia.Cpu
import Olympia.PreciseState

/-!
# The CPU executes its trace

A step of the CPU is a step of the core behind Decode, or leaves that core alone, so a run of the
CPU is a run of the core with the same moves and the same retired instructions (`Cpu.projects`).
What holds of the instructions of the trace, and of what Fetch and Decode make of them, holds of all
instructions of that run (`Carried`).

The instructions that have retired are the first ones of the trace, each once and in its order, and
the core computes what they compute one after the other.  So the CPU executes its trace:
`cpu_executes_trace`.
-/

namespace Olympia

/-- A property that the instructions of the trace have, and that Fetch and Decode keep. -/
structure Carried {ι ρ : Type} (records : List ρ) (make : MakeInst ρ) (pos : ι → ℕ) (m : Mavis)
    (C : Inst → Prop) : Prop where
  generated : ∀ i : GeneratedInst ι, i.At records make pos → C i.inst
  speculative : ∀ i b, C i → C (i.setSpeculative b)
  configured : ∀ c i, C i → C (Decode.configure c i).inst
  uop : ∀ i k ops, C i → Decode.usesUopGen i = true → C (VectorUopGenerator.makeUop m i k ops)

/-! ## Decode -/

namespace Decode

/-- The property holds of what Decode has. -/
structure Holds (C : Inst → Prop) (s : DecodeState) : Prop where
  queue : ∀ i ∈ s.fetchQueue, C i
  gen : ∀ i, s.vecUopGen.currentInst = some i → C i ∧ usesUopGen i = true

section Holds

variable {ι ρ : Type} {records : List ρ} {make : MakeInst ρ} {pos : ι → ℕ} {m : Mavis}
variable {C : Inst → Prop} {s s' : DecodeState} {grp grp' : DecodeGroup}

theorem generateUop_holds {g g' : VecUopGen} {uop : Inst} (D : Carried records make pos m C)
    (hg : ∀ i, g.currentInst = some i → C i ∧ usesUopGen i = true)
    (h : VectorUopGenerator.generateUop m g = .ok (uop, g')) :
    C uop ∧ ∀ i, g'.currentInst = some i → C i ∧ usesUopGen i = true := by
  unfold VectorUopGenerator.generateUop at h
  split at h
  · cases h
  · rename_i i hi
    obtain ⟨ops, -, h⟩ := Run.bind_eq_ok.mp h
    obtain ⟨rfl, rfl⟩ := Prod.mk.inj (Except.ok.inj h)
    obtain ⟨hC, huses⟩ := hg i hi
    refine ⟨D.uop i _ ops hC huses, fun j hj => ?_⟩
    split at hj
    · cases hj
    · exact hg j hj

theorem Holds.decodeOne (D : Carried records make pos m C)
    (H : Holds C s) (hgrp : ∀ u ∈ grp.insts, C u)
    (h : decodeOne m s grp = .ok (some (s', grp'))) : Holds C s' ∧ ∀ u ∈ grp'.insts, C u := by
  obtain ⟨u, hgrp', hcase⟩ := decodeOne_some h
  have hemit : C u → ∀ v ∈ grp'.insts, C v := by
    intro hu v hv
    rw [hgrp'] at hv
    rcases List.mem_append.mp hv with hv | hv
    · exact hgrp v hv
    · rw [List.mem_singleton.mp hv]
      exact hu
  rcases hcase with ⟨-, hq, hgen⟩ | ⟨i, rest, hq, hq', hcase⟩
  · obtain ⟨hu, hgen'⟩ := generateUop_holds D H.gen hgen
    exact ⟨⟨by rw [hq]; exact H.queue, hgen'⟩, hemit hu⟩
  · have hrest : ∀ j ∈ s'.fetchQueue, C j := by
      rw [hq']
      exact fun j hj => H.queue j (by simp [hq, hj])
    have hcfg := D.configured s.vectorConfig i (H.queue i (by simp [hq]))
    rcases hcase with ⟨huses, gen, hset, hgen⟩ | ⟨-, rfl, hsame⟩
    · obtain ⟨-, hcur, -, -⟩ := VectorUopGenerator.setInst_spec hset
      have hgenHolds : ∀ j, gen.currentInst = some j → C j ∧ usesUopGen j = true := by
        intro j hj
        rw [hcur] at hj
        obtain rfl := Option.some.inj hj
        exact ⟨hcfg, huses⟩
      obtain ⟨hu, hgen'⟩ := generateUop_holds D hgenHolds hgen
      exact ⟨⟨hrest, hgen'⟩, hemit hu⟩
    · exact ⟨⟨hrest, by rw [hsame]; exact H.gen⟩, hemit hcfg⟩

/-- A session sends what the property holds of. -/
theorem Holds.decodeInsts {q : DecodeParams} {out : Option (List Inst)}
    (D : Carried records make pos q.mavis C) (H : Holds C s)
    (h : decodeInsts q s = .ok (s', out)) : Holds C s' ∧ ∀ u ∈ out.getD [], C u := by
  rcases decodeInsts_cases h with ⟨-, rfl, rfl⟩ | ⟨-, s₁, grp, hloop, rfl, rfl⟩
  · exact ⟨⟨H.queue, H.gen⟩, by simp⟩
  · have hinit : Holds C { s with latencyCount := 0 } ∧ ∀ u ∈ ({} : DecodeGroup).insts, C u :=
      ⟨⟨H.queue, H.gen⟩, by simp⟩
    obtain ⟨S, hgrp⟩ : Holds C s₁ ∧ ∀ u ∈ grp.insts, C u :=
      decodeLoop_induct (I := fun t grp => Holds C t ∧ ∀ u ∈ grp.insts, C u)
        (fun _ H hone => H.1.decodeOne D H.2 hone) _ hinit hloop
    exact ⟨⟨S.queue, S.gen⟩, hgrp⟩

theorem Holds.handleFlush (H : Holds C s) (c : FlushingCriteria) :
    Holds C (handleFlush s c).1 where
  queue i hi := by cases hi
  gen i hi := by
    refine H.gen i ?_
    have hi : (VectorUopGenerator.handleFlush s.vecUopGen c).currentInst = some i := hi
    unfold VectorUopGenerator.handleFlush at hi
    split at hi
    · cases hi
    · exact hi

end Holds

end Decode

/-! ## The core behind Decode -/

namespace DecodeCore

variable {q : DecodeParams} {p : RenameParams} {x0 : ℕ} {pd : DispatchParams} {pr : RobParams}
variable {pu : UnitsParams} {s s' : DecodeCore} {op : DecodeCoreOp}

/-- The property holds of what Decode has and has sent. -/
structure Holds (C : Inst → Prop) (s : DecodeCore) : Prop where
  decode : Decode.Holds C s.decode
  toRename : ∀ i ∈ s.toRename, C i

/-- A step takes a step of the core, or leaves it alone. -/
theorem core_step (hstep : s.step q p pd pr pu op = .ok s') :
    (s'.core = s.core ∧ movesOf (s.obs q p pd pr pu op) = [] ∧
        retiredOf (s.obs q p pd pr pu op) = []) ∨
      ∃ cop, s.core.step p pd pr pu cop = .ok s'.core ∧
        movesOf (s.obs q p pd pr pu op) = s.core.moves p pd pu cop ∧
        retiredOf (s.obs q p pd pr pu op) = s.core.retires pr cop ∧
        ∀ i ∈ Core.decoded [cop], i ∈ s.toRename := by
  cases step_stepped hstep with
  | credits => exact .inl ⟨rfl, rfl, rfl⟩
  | appended => exact .inl ⟨rfl, rfl, rfl⟩
  | deliverVset => exact .inl ⟨rfl, rfl, rfl⟩
  | decode _ hd => exact .inl ⟨rfl, by simp only [obs, hd, movesOf_took],
      by simp only [obs, hd, retiredOf_took]⟩
  | deliverUops hcore =>
    refine .inr ⟨_, hcore, ?_, rfl, fun i hi => by simpa [Core.decoded] using hi⟩
    simp [obs, movesOf, Core.moves, InStep.renames, InStep.sends]
  | flush _ _ hcore => exact .inr ⟨_, hcore, movesOf_flushed _, retiredOf_flushed _,
      fun i hi => by simp [Core.decoded] at hi⟩
  | @core cop _ hop hcore =>
    refine .inr ⟨cop, hcore, by simp [obs], by simp [obs], fun i hi => ?_⟩
    cases cop with
    | front op =>
      cases op with
      | decoded insts => cases hop
      | _ => simp [Core.decoded] at hi
    | _ => simp [Core.decoded] at hi

theorem Holds.step {ι ρ : Type} {records : List ρ} {make : MakeInst ρ} {pos : ι → ℕ}
    {C : Inst → Prop} (D : Carried records make pos q.mavis C) (H : Holds C s)
    (hop : ∀ insts, op = .appended insts → ∀ i ∈ insts, C i)
    (hstep : s.step q p pd pr pu op = .ok s') : Holds C s' := by
  cases step_stepped hstep with
  | credits => exact ⟨⟨H.decode.queue, H.decode.gen⟩, H.toRename⟩
  | deliverVset => exact ⟨⟨H.decode.queue, H.decode.gen⟩, H.toRename⟩
  | core => exact ⟨H.decode, H.toRename⟩
  | deliverUops => exact ⟨H.decode, by simp⟩
  | @appended insts =>
    refine ⟨⟨fun i hi => ?_, H.decode.gen⟩, H.toRename⟩
    rcases List.mem_append.mp hi with hi | hi
    · exact H.decode.queue i hi
    · exact hop insts rfl i hi
  | decode _ hd =>
    obtain ⟨S, hout⟩ := H.decode.decodeInsts D hd
    refine ⟨S, fun i hi => ?_⟩
    rcases List.mem_append.mp hi with hi | hi
    · exact H.toRename i hi
    · exact hout i hi
  | flush =>
    refine ⟨?_, H.toRename⟩
    dsimp only
    split
    · exact H.decode
    · exact H.decode.handleFlush _

end DecodeCore

/-! ## The CPU -/

namespace Cpu

variable {ι ρ : Type} {r : TraceReader ι ρ} {records : List ρ} {make : MakeInst ρ} {pos : ι → ℕ}
variable {pf : FetchParams} {q : DecodeParams} {p : RenameParams} {x0 : ℕ} {pd : DispatchParams}
variable {pr : RobParams} {pu : UnitsParams} {hist : List DecodeCoreEvent} {s s' : Cpu ι}
variable {C : Inst → Prop}

/-- The property holds of what is on its way to Rename. -/
structure Holds (C : Inst → Prop) (s : Cpu ι) : Prop where
  ahead : ∀ i ∈ s.fetch.ahead, C i
  core : DecodeCore.Holds C s.core

theorem holds_init (r : TraceReader ι ρ) (p : RenameParams) (x0 : ℕ) (C : Inst → Prop) :
    Holds C (init r p x0) where
  ahead i hi := by cases hi
  core := ⟨⟨fun i hi => (by cases hi), fun i hi => (by cases hi)⟩, fun i hi => (by cases hi)⟩

/-- What Fetch reads is what the generator makes of the trace. -/
theorem Holds.fetch (D : Carried records make pos q.mavis C) (R : r.Reads records pos)
    (I : Inv records make pos p x0 pd hist s) (H : Holds C s)
    (hstep : s.step r make pf q p pd pr pu .fetch = .ok s') : Holds C s' := by
  obtain ⟨⟨calls, next⟩, hread, hstep⟩ := Run.bind_eq_ok.mp hstep
  obtain ⟨fetch, hfetch, hstep⟩ := Run.bind_eq_ok.mp hstep
  obtain rfl := Except.ok.inj hstep
  have S := GeneratorCalls.readInsts_spec R _ I.calls (checked_eq_ok.mp hread)
  obtain ⟨new, hreturned, rfl⟩ := S.returned
  refine ⟨fun i hi => ?_, H.core⟩
  rw [FetchSystem.ahead_fetch hfetch] at hi
  rcases List.mem_append.mp hi with hi | hi
  · exact H.ahead i hi
  · simp only [FetchSystem.asSent, List.map_map, List.mem_map] at hi
    obtain ⟨e, he, rfl⟩ := hi
    obtain ⟨g, hg, rfl⟩ := List.mem_map.mp (List.mem_of_mem_take he)
    refine D.speculative _ _ (D.generated g (S.inv.placed g ?_))
    rw [hreturned]
    exact List.mem_append_right _ hg

theorem Holds.step {op : CpuOp} (D : Carried records make pos q.mavis C) (R : r.Reads records pos)
    (I : Inv records make pos p x0 pd hist s) (H : Holds C s)
    (hstep : s.step r make pf q p pd pr pu op = .ok s') : Holds C s' := by
  cases op with
  | fetch => exact H.fetch D R I hstep
  | fetchOp op =>
    obtain ⟨u, hop, hstep⟩ := Run.bind_eq_ok.mp hstep
    obtain ⟨fetch, hfetch, hstep⟩ := Run.bind_eq_ok.mp hstep
    obtain rfl := Except.ok.inj hstep
    refine ⟨?_, H.core⟩
    rw [(FetchSystem.ahead_inner (enabled_eq_ok.mp hop) hfetch).1]
    exact H.ahead
  | deliver =>
    obtain ⟨core, hcore, hstep⟩ := Run.bind_eq_ok.mp hstep
    obtain ⟨fetch, hfetch, hstep⟩ := Run.bind_eq_ok.mp hstep
    obtain rfl := Except.ok.inj hstep
    obtain ⟨hahead, -⟩ := FetchSystem.ahead_deliver hfetch
    refine ⟨fun i hi => H.ahead i ?_, H.core.step D (fun insts hop i hi => H.ahead i ?_) hcore⟩
    · rw [hahead]
      exact List.mem_append_right _ hi
    · rw [hahead, DecodeCoreOp.appended.inj hop]
      exact List.mem_append_left _ hi
  | flush =>
    obtain ⟨core, hcore, hstep⟩ := Run.bind_eq_ok.mp hstep
    obtain ⟨fetch, hfetch, hstep⟩ := Run.bind_eq_ok.mp hstep
    obtain ⟨calls, hcalls, hstep⟩ := Run.bind_eq_ok.mp hstep
    obtain rfl := Except.ok.inj hstep
    refine ⟨fun i hi => H.ahead i ?_, H.core.step D (fun insts hop => (by cases hop)) hcore⟩
    rw [(FetchSystem.ahead_flush hfetch).1] at hi
    split at hi
    · cases hi
    · exact hi
  | core op =>
    obtain ⟨u, hop, hstep⟩ := Run.bind_eq_ok.mp hstep
    obtain ⟨core, hcore, hstep⟩ := Run.bind_eq_ok.mp hstep
    obtain rfl := Except.ok.inj hstep
    refine ⟨H.ahead, H.core.step D (fun insts heq => ?_) hcore⟩
    rw [heq] at hop
    cases enabled_eq_ok.mp hop
  | nextCycle =>
    obtain ⟨core, hcore, hstep⟩ := Run.bind_eq_ok.mp hstep
    obtain ⟨fetch, hfetch, hstep⟩ := Run.bind_eq_ok.mp hstep
    obtain rfl := Except.ok.inj hstep
    refine ⟨?_, H.core.step D (fun insts hop => (by cases hop)) hcore⟩
    rw [(FetchSystem.ahead_nextCycle hfetch).1]
    exact H.ahead

/-- A step takes a step of the core behind Decode, or leaves it alone. -/
theorem core_step {op : CpuOp} (hstep : s.step r make pf q p pd pr pu op = .ok s') :
    (s'.core = s.core ∧ s.obs q p pd pr pu op = []) ∨
      ∃ dop, s.core.step q p pd pr pu dop = .ok s'.core ∧
        s.obs q p pd pr pu op = s.core.obs q p pd pr pu dop := by
  cases op with
  | fetch =>
    obtain ⟨x, -, hstep⟩ := Run.bind_eq_ok.mp hstep
    obtain ⟨fetch, -, hstep⟩ := Run.bind_eq_ok.mp hstep
    obtain rfl := Except.ok.inj hstep
    exact .inl ⟨rfl, rfl⟩
  | fetchOp op =>
    obtain ⟨u, -, hstep⟩ := Run.bind_eq_ok.mp hstep
    obtain ⟨fetch, -, hstep⟩ := Run.bind_eq_ok.mp hstep
    obtain rfl := Except.ok.inj hstep
    exact .inl ⟨rfl, rfl⟩
  | deliver =>
    obtain ⟨core, hcore, hstep⟩ := Run.bind_eq_ok.mp hstep
    obtain ⟨fetch, -, hstep⟩ := Run.bind_eq_ok.mp hstep
    obtain rfl := Except.ok.inj hstep
    exact .inr ⟨_, hcore, rfl⟩
  | flush =>
    obtain ⟨core, hcore, hstep⟩ := Run.bind_eq_ok.mp hstep
    obtain ⟨fetch, -, hstep⟩ := Run.bind_eq_ok.mp hstep
    obtain ⟨calls, -, hstep⟩ := Run.bind_eq_ok.mp hstep
    obtain rfl := Except.ok.inj hstep
    exact .inr ⟨_, hcore, rfl⟩
  | core op =>
    obtain ⟨u, -, hstep⟩ := Run.bind_eq_ok.mp hstep
    obtain ⟨core, hcore, hstep⟩ := Run.bind_eq_ok.mp hstep
    obtain rfl := Except.ok.inj hstep
    exact .inr ⟨_, hcore, rfl⟩
  | nextCycle =>
    obtain ⟨core, hcore, hstep⟩ := Run.bind_eq_ok.mp hstep
    obtain ⟨fetch, -, hstep⟩ := Run.bind_eq_ok.mp hstep
    obtain rfl := Except.ok.inj hstep
    exact .inr ⟨_, hcore, rfl⟩

/-- What the core of the CPU has come to is what a run of the core comes to, whose instructions have
the property. -/
def Projects (C : Inst → Prop) (p : RenameParams) (x0 : ℕ) (pd : DispatchParams) (pr : RobParams)
    (pu : UnitsParams) (hist : List DecodeCoreEvent) (c : Core) : Prop :=
  ∃ ops : List CoreOp, ops.foldlM (Core.retiring p pd pr pu) ([], [], Core.init p x0) =
      .ok (DecodeCore.retiredOf hist, DecodeCore.movesOf hist, c) ∧
    ∀ i ∈ Core.decoded ops, C i

theorem Projects.step {op : CpuOp} (H : Holds C s)
    (P : Projects C p x0 pd pr pu hist s.core.core)
    (hstep : s.step r make pf q p pd pr pu op = .ok s') :
    Projects C p x0 pd pr pu (hist ++ s.obs q p pd pr pu op) s'.core.core := by
  obtain ⟨ops, hrun, hC⟩ := P
  rcases core_step hstep with ⟨hcore, hobs⟩ | ⟨dop, hdop, hobs⟩
  · rw [hobs, List.append_nil, hcore]
    exact ⟨ops, hrun, hC⟩
  · rw [hobs]
    rcases DecodeCore.core_step hdop with ⟨hcore, hmoves, hretired⟩ |
      ⟨cop, hcop, hmoves, hretired, hdecoded⟩
    · refine ⟨ops, ?_, hC⟩
      rw [DecodeCore.retiredOf_append, DecodeCore.movesOf_append, hmoves, hretired, hcore,
        List.append_nil, List.append_nil]
      exact hrun
    · refine ⟨ops ++ [cop], ?_, fun i hi => ?_⟩
      · have hone : Core.retiring p pd pr pu
            (DecodeCore.retiredOf hist, DecodeCore.movesOf hist, s.core.core) cop =
            .ok (DecodeCore.retiredOf hist ++ s.core.core.retires pr cop,
              DecodeCore.movesOf hist ++ s.core.core.moves p pd pu cop, s'.core.core) :=
          Run.traced_eq_ok.mpr ⟨Run.traced_eq_ok.mpr ⟨hcop, rfl⟩, rfl⟩
        rw [List.foldlM_append, hrun, DecodeCore.retiredOf_append, DecodeCore.movesOf_append,
          hmoves, hretired]
        exact Run.bind_eq_ok.mpr ⟨_, rfl, Run.bind_eq_ok.mpr ⟨_, hone, rfl⟩⟩
      · unfold Core.decoded at hi
        rw [List.flatMap_append] at hi
        rcases List.mem_append.mp hi with hi | hi
        · exact hC i hi
        · exact H.core.toRename i (hdecoded i hi)

/-- A run of the CPU is a run of the core, with the same moves and the same retired
instructions. -/
theorem projects (hm : q.mavis.MakesUops) (D : Carried records make pos q.mavis C)
    (R : r.Reads records pos) {ops : List CpuOp}
    (hrun : ops.foldlM (Run.traced (step r make pf q p pd pr pu) (obs q p pd pr pu))
      ([], init r p x0) = .ok (hist, s)) :
    Inv records make pos p x0 pd hist s ∧ Projects C p x0 pd pr pu hist s.core.core := by
  have hinit : Inv records make pos p x0 pd [] (init r p x0) ∧ Holds C (init r p x0) ∧
      Projects C p x0 pd pr pu [] (init r p x0).core.core :=
    ⟨inv_init R, holds_init r p x0 C, [], rfl, by simp [Core.decoded]⟩
  have hall : Inv records make pos p x0 pd hist s ∧ Holds C s ∧
      Projects C p x0 pd pr pu hist s.core.core := by
    refine Run.foldlM_ok_preserves
      (f := Run.traced (step r make pf q p pd pr pu) (obs q p pd pr pu))
      (I := fun hs => Inv records make pos p x0 pd hs.1 hs.2 ∧ Holds C hs.2 ∧
        Projects C p x0 pd pr pu hs.1 hs.2.core.core) ?_ hinit hrun
    rintro op ⟨hist, s⟩ ⟨hist', s'⟩ ⟨I, H, P⟩ hone
    obtain ⟨hstep, rfl⟩ := Run.traced_eq_ok.mp hone
    exact ⟨I.step hm R hstep, H.step D R I hstep, P.step H hstep⟩
  exact ⟨hall.1, hall.2.2⟩

end Cpu

/-! ## Traces of scalar instructions -/

/-- Decode has nothing to do for the instruction. -/
structure Inst.IsScalar (i : Inst) : Prop where
  isVector : i.isVector = false
  vsetivli : i.mavisUid ≠ .vsetivli
  vsetvli : i.mavisUid ≠ .vsetvli
  vsetvl : i.mavisUid ≠ .vsetvl

/-- The instruction with other identifiers, speculative or not. -/
def Inst.renumber (i : Inst) (uniqueId programId : ℕ) (spec : Bool) : Inst :=
  { i with uniqueId := uniqueId, programId := programId, isSpeculative := spec }

/-- Apart from its identifiers the instruction is what Mavis makes of its record in the trace. -/
def Inst.OfTrace {ρ : Type} (records : List ρ) (make : MakeInst ρ) (i : Inst) : Prop :=
  ∃ n x e b, i.programId = n + 1 ∧ records[n]? = some x ∧ make x = .ok e ∧
    i = e.1.inst.renumber i.uniqueId i.programId b

/-- What instructions compute does not depend on their identifiers. -/
def RegisterSemantics.IgnoresNumbers {p : RenameParams} {V : Type} (sem : RegisterSemantics p V) :
    Prop :=
  ∀ i u n b, sem.result (Inst.renumber i u n b) = sem.result i

section Scalar

variable {ι ρ V : Type} {records : List ρ} {make : MakeInst ρ} {pos : ι → ℕ} {m : Mavis}
variable {p : RenameParams} {sem : RegisterSemantics p V}

theorem Inst.IsScalar.configure {i : Inst} (h : i.IsScalar) (c : VectorConfig) :
    (Decode.configure c i).inst = i := by
  unfold Decode.configure
  rw [if_neg (by simp [h.vsetivli, h.vsetvli]), if_neg (by simp [h.vsetvli, h.vsetvl]),
    if_neg (by simp [h.isVector])]

theorem carried_ofTrace
    (hmake : ∀ x ∈ records, ∀ e, make x = .ok e → e.1.inst.IsScalar) :
    Carried records make pos m (Inst.OfTrace records make) := by
  have hscalar : ∀ i, Inst.OfTrace records make i → i.IsScalar := by
    rintro i ⟨n, x, e, b, -, hx, he, hi⟩
    have h := hmake x (List.mem_of_getElem? hx) e he
    rw [hi]
    exact ⟨h.isVector, h.vsetivli, h.vsetvli, h.vsetvl⟩
  constructor
  · intro i hi
    obtain ⟨x, e, hx, he, heq⟩ := hi.made
    refine ⟨_, x, e, e.1.inst.isSpeculative, hi.programId, hx, he, ?_⟩
    show i.entry.inst = _
    rw [heq]
    rfl
  · rintro i b ⟨n, x, e, b', hn, hx, he, hi⟩
    refine ⟨n, x, e, b, hn, hx, he, ?_⟩
    show Inst.setSpeculative i b = e.1.inst.renumber i.uniqueId i.programId b
    rw [hi]
    rfl
  · intro c i hi
    rw [(hscalar i hi).configure]
    exact hi
  · intro i k ops hi huses
    simp [Decode.usesUopGen, (hscalar i hi).isVector] at huses

/-- Consecutive instructions of the trace are those of its records. -/
theorem exists_program : ∀ (l : List Inst) (n : ℕ), Consecutive (n + 1) (l.map Inst.programId) →
    (∀ i ∈ l, Inst.OfTrace records make i) → ∃ program : List Inst,
      List.Forall₂ (fun x i => ∃ e, make x = .ok e ∧ e.1.inst = i)
        ((records.drop n).take l.length) program ∧
      List.Forall₂ (fun i j => ∃ u k b, i = Inst.renumber j u k b) l program
  | [], n, _, _ => ⟨[], by simp, .nil⟩
  | i :: l, n, hids, hl => by
    obtain ⟨hid, hids⟩ := Consecutive.cons.mp hids
    obtain ⟨⟨k, x, e, b, hk, hx, he, hi⟩, hl⟩ := List.forall_mem_cons.mp hl
    obtain ⟨program, hmade, hsame⟩ := exists_program l (n + 1) hids hl
    obtain rfl : k = n := Nat.succ.inj (hk.symm.trans hid)
    obtain ⟨hlt, rfl⟩ := List.getElem?_eq_some_iff.mp hx
    refine ⟨e.1.inst :: program, ?_, .cons ⟨_, _, b, hi⟩ hsame⟩
    rw [List.drop_eq_getElem_cons hlt, List.length_cons, List.take_succ_cons]
    exact .cons ⟨e, he, rfl⟩ hmade

/-- The identifiers of the instructions do not matter for what they compute. -/
theorem execute_renumber (hsem : sem.IgnoresNumbers) {l program : List Inst}
    (h : List.Forall₂ (fun i j => ∃ u k b, i = Inst.renumber j u k b) l program) :
    ∀ regs, sem.execute regs l = sem.execute regs program := by
  induction h with
  | nil => exact fun _ => rfl
  | @cons i j l program hij _ ih =>
    intro regs
    obtain ⟨u, k, b, rfl⟩ := hij
    have hexec : sem.toSemantics.exec regs (j.renumber u k b) = sem.toSemantics.exec regs j := by
      funext r
      show (if j.writes r then sem.result (j.renumber u k b) (j.reads.map regs) r else regs r) = _
      rw [hsem j u k b]
      rfl
    show sem.execute (sem.toSemantics.exec regs (j.renumber u k b)) l = _
    rw [hexec, ih]
    rfl

end Scalar

/-- In every run of the CPU on a trace of scalar instructions whose register writers execute in the
pipes, with any number of flushes: if `n` instructions have retired, the registers that they have
mapped hold what the first `n` records of the trace compute, executed one after the other, and when
nothing is in flight these are the registers of the map table. -/
theorem cpu_executes_trace {ι ρ V : Type} {r : TraceReader ι ρ} {records : List ρ} {pos : ι → ℕ}
    (R : r.Reads records pos) (make : MakeInst ρ) (pf : FetchParams) (q : DecodeParams)
    (p : RenameParams) (x0 : ℕ) (pd : DispatchParams) (pr : RobParams) (pu : UnitsParams)
    (hm : q.mavis.MakesUops) (sem : RegisterSemantics p V) (hsem : sem.IgnoresNumbers)
    (regs : RegFile × ℕ → V)
    (hmake : ∀ x ∈ records, ∀ e, make x = .ok e →
      e.1.inst.IsScalar ∧ e.1.inst.runsInPipes pd)
    {ops : List CpuOp} {hist : List DecodeCoreEvent} {s : Cpu ι}
    (hrun : ops.foldlM (Run.traced (Cpu.step r make pf q p pd pr pu) (Cpu.obs q p pd pr pu))
      ([], .init r p x0) = .ok (hist, s)) :
    ∃ program : List Inst, program.length = (DecodeCore.retiredOf hist).length ∧
      List.Forall₂ (fun x i => ∃ e, make x = .ok e ∧ e.1.inst = i)
        (records.take (DecodeCore.retiredOf hist).length) program ∧
      ∀ a, isArchReg a →
        (valuesOf sem x0 regs (DecodeCore.movesOf hist)).store
            (a.1, tableAfter x0 (DecodeCore.retiredOf hist) a) =
          sem.execute (initialRegs x0 regs) program a ∧
        (s.core.core.front.unretired = [] →
          (valuesOf sem x0 regs (DecodeCore.movesOf hist)).store
              (a.1, s.core.core.front.rename.mapTable a) =
            sem.execute (initialRegs x0 regs) program a) := by
  have D : Carried records make pos q.mavis (Inst.OfTrace records make) :=
    carried_ofTrace fun x hx e he => (hmake x hx e he).1
  obtain ⟨H, cops, hcore, hC⟩ := Cpu.projects hm D R hrun
  have hpipes : ∀ i ∈ Core.decoded cops, i.runsInPipes pd := by
    intro i hi
    obtain ⟨n, x, e, b, -, hx, he, heq⟩ := hC i hi
    rw [heq]
    exact (hmake x (List.mem_of_getElem? hx) e he).2
  obtain ⟨I, -, h, T⟩ := Core.run_tracks sem regs hpipes hcore
  obtain ⟨-, E⟩ := Core.run_executes hcore
  obtain ⟨J, -⟩ := Core.run_invariant (I := fun _ _ => True) hC
    (Run.foldlM_of_traced hcore) trivial fun _ _ _ _ _ _ _ _ => trivial
  have hretired : ∀ i ∈ (DecodeCore.retiredOf hist).map RenamedInst.inst,
      Inst.OfTrace records make i := by
    intro i hi
    obtain ⟨ri, hri, rfl⟩ := List.mem_map.mp hi
    exact (J.renamed ri (E.retired ri hri).1).2
  -- there are no uops, so every instruction counts
  have hids : Consecutive (0 + 1)
      (((DecodeCore.retiredOf hist).map RenamedInst.inst).map Inst.programId) := by
    have hfirst : firstIds ((DecodeCore.retiredOf hist).map RenamedInst.inst) =
        ((DecodeCore.retiredOf hist).map RenamedInst.inst).map Inst.programId := by
      unfold firstIds
      rw [List.filter_eq_self.mpr fun i hi => ?_]
      obtain ⟨n, x, e, b, -, -, -, heq⟩ := hretired i hi
      rw [heq]
      exact decide_eq_true e.2.uopId
    rw [← hfirst]
    exact H.retired
  obtain ⟨program, hmade, hsame⟩ := exists_program _ 0 hids hretired
  have hlen : program.length = (DecodeCore.retiredOf hist).length := by
    rw [← hsame.length_eq, List.length_map]
  refine ⟨program, hlen, by simpa using hmade, fun a ha => ?_⟩
  rw [← execute_renumber hsem hsame]
  have hprecise := T.precise I E ha
  refine ⟨hprecise, fun hnone => ?_⟩
  rw [T.mapTable_of_unretired I hnone]
  exact hprecise

/-! ## A run -/

/-- A producer, a branch and a consumer. -/
def consumerTrace : List { e : FetchEntry // e.IsNew } :=
  [⟨{ inst := producer }, rfl, rfl, rfl, rfl⟩, ⟨{ inst := mispredictedBranch }, rfl, rfl, rfl, rfl⟩,
   ⟨{ inst := consumer }, rfl, rfl, rfl, rfl⟩]

/-- Instructions add up what they read, and one. -/
def incrementing (p : RenameParams) (hp : p.moveElimination = false) : RegisterSemantics p ℕ where
  result _ vals _ := vals.foldl Nat.add 1
  moves i r _ h := nomatch (Inst.movedOperand_eq_none hp i r.1).symm.trans h

/-- The next instruction goes to the issue queue. -/
def dispatchOps : List CpuOp :=
  [.core (.core (.front .dispatch)), .nextCycle, .core (.core (.front .deliverDispatched)),
   .core (.core (.deliverUnit 0)), .flush]

/-- The next instruction executes. -/
def completeOps (mispredicted : Bool) : List CpuOp :=
  [.core (.core (.units (.sendReadyInsts 0))),
   .core (.core (.units (.executeInst 0 0 mispredicted))),
   .core (.core (.units (.completePipe 0 0)))]

def retireOps : List CpuOp :=
  [.core (.core (.front .retire)), .nextCycle, .core (.core (.front .deliverAck)), .flush]

/-- The consumer executes on the wrong path, is flushed and is fetched again. -/
def consumerTraceOps : List CpuOp :=
  cpuCreditOps ++ toIssueOps ++ dispatchOps ++ dispatchOps ++ completeOps false ++
    completeOps true ++ [.core (.core (.units (.iqCallback 0 0)))] ++ completeOps false ++
    retireOps ++ toIssueOps ++ completeOps false ++ retireOps

theorem cpu_executes_trace_sample :
    ∃ hist s program, consumerTraceOps.foldlM (Run.traced
        (Cpu.step (JSONInstGenerator.reader consumerTrace) .ok {} { mavis := uopMavis } {}
          smallDispatch {} mispredictingUnits)
        (Cpu.obs { mavis := uopMavis } {} smallDispatch {} mispredictingUnits))
        ([], Cpu.init (JSONInstGenerator.reader consumerTrace) {} 0) = .ok (hist, s) ∧
      s.calls.returned.map GeneratedInst.uniqueId = [1, 2, 3, 4] ∧ program.length = 3 ∧
      (valuesOf (incrementing {} rfl) 0 (fun t => 100 * t.2) (DecodeCore.movesOf hist)).store
        (.integer, s.core.core.front.rename.mapTable (.integer, 3)) =
          (incrementing {} rfl).execute (initialRegs 0 fun t => 100 * t.2) program
            (.integer, 3) := by
  have heval : (consumerTraceOps.foldlM (Run.traced
      (Cpu.step (JSONInstGenerator.reader consumerTrace) .ok {} { mavis := uopMavis } {}
        smallDispatch {} mispredictingUnits)
      (Cpu.obs { mavis := uopMavis } {} smallDispatch {} mispredictingUnits))
      ([], Cpu.init (JSONInstGenerator.reader consumerTrace) {} 0)).toOption.map (fun hs =>
        (hs.2.calls.returned.map GeneratedInst.uniqueId,
          (DecodeCore.retiredOf hs.1).length, hs.2.core.core.front.unretired.length)) =
      some ([1, 2, 3, 4], 3, 0) := by
    decide +kernel
  obtain ⟨⟨hist, s⟩, hrun, hval⟩ := Run.ok_of_eval heval
  obtain ⟨hreturned, hval⟩ := Prod.mk.inj hval
  obtain ⟨hretired, hnone⟩ := Prod.mk.inj hval
  have hmake : ∀ x ∈ consumerTrace, ∀ e,
      (.ok x : Except Assertion { e : FetchEntry // e.IsNew }) = .ok e →
      e.1.inst.IsScalar ∧ e.1.inst.runsInPipes smallDispatch := by
    intro x hx e he
    obtain rfl := Except.ok.inj he
    unfold Inst.runsInPipes Inst.writesInPipes
    simp only [consumerTrace, List.mem_cons, List.not_mem_nil, or_false] at hx
    rcases hx with rfl | rfl | rfl
    · exact ⟨⟨rfl, by decide, by decide, by decide⟩, by decide, fun n hn => rfl⟩
    · exact ⟨⟨rfl, by decide, by decide, by decide⟩, by decide, fun n hn => rfl⟩
    · exact ⟨⟨rfl, by decide, by decide, by decide⟩, by decide, fun n hn => rfl⟩
  obtain ⟨program, hlen, -, hvalues⟩ := cpu_executes_trace
    (JSONInstGenerator.reads consumerTrace) .ok {} { mavis := uopMavis } {} 0 smallDispatch {}
    mispredictingUnits uopMavis_makesUops (incrementing {} rfl) (fun _ _ _ _ => rfl)
    (fun t => 100 * t.2) hmake hrun
  have hx3 : isArchReg (.integer, 3) := by
    unfold isArchReg
    decide
  exact ⟨hist, s, program, hrun, hreturned, hlen.trans hretired,
    (hvalues _ hx3).2 (List.eq_nil_of_length_eq_zero hnone)⟩

end Olympia
