import Olympia.Decode

/-!
# Vsets in Decode

What a session of `decodeInsts_` takes from the fetch queue, and what it sends to Rename.  A
vset sets the vector configuration at once, or it blocks: then it is the last instruction of its
group, and Decode waits until the vset has executed.
-/

namespace Olympia

/-- The pipes send the instruction back to Decode when it has executed. -/
def Inst.blocks (i : Inst) : Bool := i.isVset && i.isBlockingVset

/-- Decode treats the instruction as a vset. -/
def Inst.setsConfig (i : Inst) : Bool :=
  i.mavisUid = .vsetivli || i.mavisUid = .vsetvli || i.mavisUid = .vsetvl

/-- A new instruction as Fetch sends it: the vsets go to the `VSET` pipes. -/
def Inst.isNew (i : Inst) : Bool := !i.isBlockingVset && (i.isVset || !i.setsConfig)

/-- Mavis makes no vset of an instruction that is none. -/
def Mavis.KeepsPipe (m : Mavis) : Prop :=
  ∀ i srcs dests, i.isVset = false → (m.makeInstDirectly i srcs dests).isVset = false

namespace Decode

/-- Instructions as they are configured one after the other. -/
def configureAll : VectorConfig → List Inst → List Inst
  | _, [] => []
  | c, i :: rest => (configure c i).inst :: configureAll (configure c i).config rest

/-- What a session that leaves `d` takes from the fetch queue, as configured. -/
def took (s d : DecodeState) : List Inst :=
  configureAll s.vectorConfig
    (s.fetchQueue.take (s.fetchQueue.length - d.fetchQueue.length))

/-- The generator has no vset. -/
def NoVset (g : VecUopGen) : Prop := ∀ i, g.currentInst = some i → i.isVset = false

/-- The configuration that Decode has when it has treated the vsets among the instructions. -/
def configAfter (c : VectorConfig) (l : List Inst) : VectorConfig :=
  l.foldl (fun c i => if i.setsConfig then updateVectorConfig i else c) c

/-- The instruction is `i`, or a uop that the generator makes of it. -/
def MadeOf (m : Mavis) (i u : Inst) : Prop :=
  u = i ∨ (i.isVset = false ∧ ∃ k ops, u = VectorUopGenerator.makeUop m i k ops)

@[simp] theorem configAfter_append (c : VectorConfig) (l l' : List Inst) :
    configAfter c (l ++ l') = configAfter (configAfter c l) l' := List.foldl_append

@[simp] theorem configAfter_singleton (c : VectorConfig) (i : Inst) :
    configAfter c [i] = if i.setsConfig then updateVectorConfig i else c := rfl

theorem MadeOf.uniqueId_eq {m : Mavis} {i u : Inst} (h : MadeOf m i u) :
    u.uniqueId = i.uniqueId := by
  rcases h with rfl | ⟨-, k, ops, rfl⟩
  · rfl
  · rfl

/-- Only the vset itself blocks. -/
theorem MadeOf.eq_of_blocks {m : Mavis} (hm : m.KeepsPipe) {i u : Inst} (h : MadeOf m i u)
    (hu : u.blocks = true) : u = i := by
  rcases h with h | ⟨hi, k, ops, rfl⟩
  · exact h
  · have hpipe : (m.makeInstDirectly i ops.1 ops.2).isVset = false := hm _ _ _ hi
    have hsame : (VectorUopGenerator.makeUop m i k ops).isVset = false := hpipe
    simp [Inst.blocks, hsame] at hu

theorem configureAll_append : ∀ (c : VectorConfig) (l l' : List Inst), configureAll c (l ++ l') =
    configureAll c l ++ configureAll (l.foldl (fun c i => (configure c i).config) c) l'
  | _, [], _ => rfl
  | c, i :: l, l' => by
    rw [List.cons_append, configureAll, configureAll, configureAll_append]
    rfl

theorem configure_uniqueId (c : VectorConfig) (i : Inst) :
    (configure c i).inst.uniqueId = i.uniqueId := by
  unfold configure
  split
  · rfl
  · split
    · rfl
    · split <;> rfl

theorem configureAll_uniqueId : ∀ (c : VectorConfig) (l : List Inst),
    (configureAll c l).map Inst.uniqueId = l.map Inst.uniqueId
  | _, [] => rfl
  | c, i :: l => by
    rw [configureAll, List.map_cons, List.map_cons, configureAll_uniqueId, configure_uniqueId]

/-- The configuration is that of the vset already. -/
theorem updateVectorConfig_idem (i : Inst) :
    updateVectorConfig { i with vectorConfig := updateVectorConfig i } = updateVectorConfig i := by
  have hsame : ∀ c, updateVectorConfig { i with vectorConfig := c } =
      if i.mavisUid = .vsetvli ∧ i.hasZeroRegSource then
        { c with vl := if i.hasZeroRegDest then min c.vl c.vlmax else c.vlmax }
      else c := fun _ => rfl
  rw [hsame]
  unfold updateVectorConfig
  split
  · cases i.hasZeroRegDest with
    | false => rfl
    | true => simp [VectorConfig.vlmax]
  · rfl

/-- What `configure` does with a new instruction: a vset sets the configuration or blocks, and a
vector instruction gets the configuration. -/
structure ConfigureSpec (c : VectorConfig) (i : Inst) : Prop where
  blocks : (configure c i).inst.blocks = (configure c i).blocks
  novset : (configure c i).inst.isVset = false → (configure c i).blocks = false
  sets : (configure c i).blocks = true → (configure c i).inst.setsConfig = true
  config : (configure c i).blocks = false →
    (configure c i).config = configAfter c [(configure c i).inst]
  vector : (configure c i).inst.isVector = true → (configure c i).inst.isVset = false →
    (configure c i).inst.vectorConfig = c

theorem configure_spec (c : VectorConfig) {i : Inst} (hi : i.isNew = true) :
    ConfigureSpec c i := by
  simp only [Inst.isNew, Bool.and_eq_true, Bool.not_eq_true', Bool.or_eq_true] at hi
  obtain ⟨hflag, hvset⟩ := hi
  have hpipe : i.setsConfig = true → i.isVset = true := by
    intro hsets
    rw [hsets] at hvset
    exact hvset.resolve_right (by simp)
  by_cases hnow : i.mavisUid = .vsetivli ∨ (i.mavisUid = .vsetvli ∧ i.hasZeroRegSource)
  · -- the configuration is set at once
    have hcfg : configure c i =
        ⟨{ i with vectorConfig := updateVectorConfig i }, updateVectorConfig i, false⟩ :=
      if_pos hnow
    have hsets : i.setsConfig = true := by
      rcases hnow with h | h
      · simp [Inst.setsConfig, h]
      · simp [Inst.setsConfig, h.1]
    constructor
    · rw [hcfg]
      simp [Inst.blocks, hflag]
    · rw [hcfg]
      exact fun _ => rfl
    · rw [hcfg]
      exact fun h => (by cases h)
    · rw [hcfg]
      have hsets' : ({ i with vectorConfig := updateVectorConfig i } : Inst).setsConfig = true :=
        hsets
      intro _
      rw [configAfter_singleton, if_pos hsets', updateVectorConfig_idem]
    · rw [hcfg]
      intro _ hnot
      rw [show i.isVset = false from hnot] at hpipe
      cases hpipe hsets
  · by_cases hlater : i.mavisUid = .vsetvli ∨ i.mavisUid = .vsetvl
    · -- Decode waits for it
      have hcfg : configure c i = ⟨{ i with isBlockingVset := true }, c, true⟩ :=
        (if_neg hnow).trans (if_pos hlater)
      have hsets : i.setsConfig = true := by
        rcases hlater with h | h
        · simp [Inst.setsConfig, h]
        · simp [Inst.setsConfig, h]
      have hvset' : ({ i with isBlockingVset := true } : Inst).isVset = true := hpipe hsets
      constructor
      · rw [hcfg]
        simp [Inst.blocks, hvset']
      · rw [hcfg]
        intro hnot
        rw [hvset'] at hnot
        cases hnot
      · rw [hcfg]
        exact fun _ => hsets
      · rw [hcfg]
        exact fun h => (by cases h)
      · rw [hcfg]
        intro _ hnot
        rw [hvset'] at hnot
        cases hnot
    · -- no vset
      have hsets : i.setsConfig = false := by
        simp only [not_or] at hnow hlater
        simp [Inst.setsConfig, hnow.1, hlater]
      by_cases hvec : !i.isVset ∧ i.isVector
      · have hcfg : configure c i = ⟨{ i with vectorConfig := c }, c, false⟩ :=
          (if_neg hnow).trans ((if_neg hlater).trans (if_pos hvec))
        constructor
        · rw [hcfg]
          simp [Inst.blocks, hflag]
        · rw [hcfg]
          exact fun _ => rfl
        · rw [hcfg]
          exact fun h => (by cases h)
        · rw [hcfg]
          have hsets' : ({ i with vectorConfig := c } : Inst).setsConfig = false := hsets
          intro _
          rw [configAfter_singleton, hsets']
          rfl
        · rw [hcfg]
          exact fun _ _ => rfl
      · have hcfg : configure c i = ⟨i, c, false⟩ :=
          (if_neg hnow).trans ((if_neg hlater).trans (if_neg hvec))
        constructor
        · rw [hcfg]
          simp [Inst.blocks, hflag]
        · rw [hcfg]
          exact fun _ => rfl
        · rw [hcfg]
          exact fun h => (by cases h)
        · rw [hcfg]
          intro _
          rw [configAfter_singleton, hsets]
          rfl
        · rw [hcfg]
          intro hv hnot
          exact absurd ⟨by simpa using hnot, hv⟩ hvec

/-- What a session that takes `l` from the fetch queue sends to Rename.  It decodes no vset that
blocks while it waits, and at most one otherwise, as the last instruction of its group; a vector
instruction gets the configuration that the vsets before it leave behind. -/
structure SessionSpec (m : Mavis) (s s' : DecodeState) (l insts : List Inst) : Prop where
  queue : s.fetchQueue = l ++ s'.fetchQueue
  config : l.foldl (fun c i => (configure c i).config) s.vectorConfig = s'.vectorConfig
  novset : NoVset s'.vecUopGen
  gen : ∀ i, s'.vecUopGen.currentInst = some i →
    i ∈ configureAll s.vectorConfig l ∨ s.vecUopGen.currentInst = some i
  made : ∀ u ∈ insts, ∃ i, (i ∈ configureAll s.vectorConfig l ∨
    s.vecUopGen.currentInst = some i) ∧ MadeOf m i u
  free : s'.waitingOnVset = false → s.waitingOnVset = false ∧ (∀ u ∈ insts, u.blocks = false) ∧
    s'.vectorConfig = configAfter s.vectorConfig (configureAll s.vectorConfig l)
  waits : s'.waitingOnVset = true → (s.waitingOnVset = true ∧ insts = [] ∧ l = []) ∨
    (s.waitingOnVset = false ∧ ∃ us ts v, insts = us ++ [v] ∧
      configureAll s.vectorConfig l = ts ++ [v] ∧ v.blocks = true ∧ v.setsConfig = true ∧
      ∀ u ∈ us, u.blocks = false)
  vector : ∀ t₁ i t₂, configureAll s.vectorConfig l = t₁ ++ i :: t₂ → i.isVector = true →
    i.isVset = false → i.vectorConfig = configAfter s.vectorConfig t₁

theorem SessionSpec.refl (m : Mavis) {s : DecodeState} (hg : NoVset s.vecUopGen) :
    SessionSpec m s s [] [] where
  queue := rfl
  config := rfl
  novset := hg
  gen _ hi := .inr hi
  made _ hu := by cases hu
  free hw := ⟨hw, by simp, rfl⟩
  waits hw := .inl ⟨hw, rfl, rfl⟩
  vector t₁ i t₂ h := by simp [configureAll] at h

/-- What the session leaves in the fetch queue determines what it has taken. -/
theorem SessionSpec.took_eq {m : Mavis} {s s' : DecodeState} {l insts : List Inst}
    (H : SessionSpec m s s' l insts) : took s s' = configureAll s.vectorConfig l := by
  unfold took
  rw [H.queue]
  simp

theorem generateUop_made {m : Mavis} {g g' : VecUopGen} {uop : Inst} (hg : NoVset g)
    (h : VectorUopGenerator.generateUop m g = .ok (uop, g')) :
    (∃ i, g.currentInst = some i ∧ i.isVset = false ∧ MadeOf m i uop) ∧
      ∀ i, g'.currentInst = some i → g.currentInst = some i := by
  unfold VectorUopGenerator.generateUop at h
  split at h
  · cases h
  · rename_i i hi
    obtain ⟨ops, -, h⟩ := Run.bind_eq_ok.mp h
    obtain ⟨rfl, rfl⟩ := Prod.mk.inj (Except.ok.inj h)
    refine ⟨⟨i, hi, hg i hi, .inr ⟨hg i hi, _, _, rfl⟩⟩, fun j hj => ?_⟩
    split at hj
    · cases hj
    · exact hj

/-- A uop of an instruction that is no vset does not block. -/
theorem MadeOf.not_blocks {m : Mavis} (hm : m.KeepsPipe) {i u : Inst} (h : MadeOf m i u)
    (hi : i.isVset = false) : u.blocks = false := by
  cases hu : u.blocks with
  | false => rfl
  | true =>
    obtain rfl := h.eq_of_blocks hm hu
    simp [Inst.blocks, hi] at hu

section Loop

variable {m : Mavis} {s₀ s s' : DecodeState} {l insts : List Inst} {i u : Inst} {g : VecUopGen}

/-- The session sends a further uop of the instruction in the generator. -/
theorem SessionSpec.uop (hm : m.KeepsPipe) (H : SessionSpec m s₀ s l insts)
    (hwait : s.waitingOnVset = false)
    (h : VectorUopGenerator.generateUop m s.vecUopGen = .ok (u, g)) :
    SessionSpec m s₀ { s with vecUopGen := g } l (insts ++ [u]) := by
  obtain ⟨⟨i, hi, hvset, hmade⟩, hgen⟩ := generateUop_made H.novset h
  obtain ⟨hwait₀, hfree, hcfg⟩ := H.free hwait
  refine ⟨H.queue, H.config, fun j hj => H.novset j (hgen j hj), fun j hj => H.gen j (hgen j hj),
    fun w hw => ?_, fun _ => ⟨hwait₀, fun w hw => ?_, hcfg⟩, fun hw => ?_, H.vector⟩
  · rcases List.mem_append.mp hw with hw | hw
    · exact H.made w hw
    · obtain rfl := List.mem_singleton.mp hw
      exact ⟨i, H.gen i hi, hmade⟩
  · rcases List.mem_append.mp hw with hw | hw
    · exact hfree w hw
    · obtain rfl := List.mem_singleton.mp hw
      exact hmade.not_blocks hm hvset
  · rw [show s.waitingOnVset = true from hw] at hwait
    cases hwait

/-- The session takes an instruction and sends it, or its first uop. -/
theorem SessionSpec.take (hm : m.KeepsPipe) (H : SessionSpec m s₀ s l insts)
    (hwait : s.waitingOnVset = false) {rest : List Inst} (hq : s.fetchQueue = i :: rest)
    (hi : i.isNew = true) (hu : MadeOf m (configure s.vectorConfig i).inst u)
    (hblocks : (configure s.vectorConfig i).blocks = true → u = (configure s.vectorConfig i).inst)
    (hg : ∀ j, g.currentInst = some j →
      (j = (configure s.vectorConfig i).inst ∧ j.isVset = false) ∨
        s.vecUopGen.currentInst = some j) :
    SessionSpec m s₀ { s with
      fetchQueue := rest
      vectorConfig := (configure s.vectorConfig i).config
      waitingOnVset := s.waitingOnVset || (configure s.vectorConfig i).blocks
      vecUopGen := g } (l ++ [i]) (insts ++ [u]) := by
  obtain ⟨hwait₀, hfree, hcfg⟩ := H.free hwait
  have C := configure_spec s.vectorConfig hi
  have htook : configureAll s₀.vectorConfig (l ++ [i]) =
      configureAll s₀.vectorConfig l ++ [(configure s.vectorConfig i).inst] := by
    rw [configureAll_append, H.config]
    rfl
  have hconfig : (l ++ [i]).foldl (fun c i => (configure c i).config) s₀.vectorConfig =
      (configure s.vectorConfig i).config := by
    rw [List.foldl_append, H.config]
    rfl
  obtain ⟨hsame, -, hsets, hafter, hvector⟩ := C
  generalize configure s.vectorConfig i = cfg at *
  constructor
  · rw [H.queue, hq, List.append_assoc]
    rfl
  · exact hconfig
  · intro j hj
    rcases hg j hj with ⟨-, h⟩ | h
    · exact h
    · exact H.novset j h
  · intro j hj
    rw [htook]
    rcases hg j hj with ⟨rfl, -⟩ | h
    · exact .inl (by simp)
    · exact (H.gen j h).imp_left (List.mem_append_left _)
  · intro w hw
    rw [htook]
    rcases List.mem_append.mp hw with hw | hw
    · obtain ⟨j, hj, hmade⟩ := H.made w hw
      exact ⟨j, hj.imp_left (List.mem_append_left _), hmade⟩
    · obtain rfl := List.mem_singleton.mp hw
      exact ⟨_, .inl (by simp), hu⟩
  · intro hw
    have hno : cfg.blocks = false := (Bool.or_eq_false_iff.mp hw).2
    refine ⟨hwait₀, fun w hmem => ?_, ?_⟩
    · rcases List.mem_append.mp hmem with hmem | hmem
      · exact hfree w hmem
      · obtain rfl := List.mem_singleton.mp hmem
        cases hb : w.blocks with
        | false => rfl
        | true =>
          obtain rfl := hu.eq_of_blocks hm hb
          rw [hsame, hno] at hb
          cases hb
    · rw [htook, configAfter_append, ← hcfg]
      exact hafter hno
  · intro hw
    have hb : cfg.blocks = true := by simpa [hwait] using hw
    obtain rfl := hblocks hb
    exact .inr ⟨hwait₀, insts, _, _, rfl, htook, hsame.trans hb, hsets hb, hfree⟩
  · intro t₁ j t₂ ht hvec hnot
    rw [htook] at ht
    rcases List.eq_nil_or_concat t₂ with rfl | ⟨t₂, k, rfl⟩
    · obtain ⟨rfl, hlast⟩ := List.append_inj' ht rfl
      obtain rfl := List.singleton_inj.mp hlast
      rw [hvector hvec hnot]
      exact hcfg
    · rw [List.concat_eq_append, ← List.cons_append, ← List.append_assoc] at ht
      exact H.vector t₁ j t₂ (List.append_inj' ht rfl).1 hvec hnot

theorem decodeOne_session {grp grp' : DecodeGroup} (hm : m.KeepsPipe)
    (H : SessionSpec m s₀ s l grp.insts) (hnew : ∀ i ∈ s.fetchQueue, i.isNew = true)
    (hwait : s.waitingOnVset = false) (h : decodeOne m s grp = .ok (some (s', grp'))) :
    ∃ l', SessionSpec m s₀ s' l' grp'.insts := by
  unfold decodeOne at h
  split at h
  · obtain ⟨⟨uop, gen⟩, hgen, h⟩ := Run.bind_eq_ok.mp h
    obtain ⟨rfl, rfl⟩ := Prod.mk.inj (Option.some.inj (Except.ok.inj h))
    exact ⟨l, H.uop hm hwait hgen⟩
  · rcases hq : s.fetchQueue with _ | ⟨i, rest⟩
    · rw [hq] at h
      cases h
    · rw [hq] at h
      dsimp only at h
      have hi : i.isNew = true := hnew i (by simp [hq])
      have C := configure_spec s.vectorConfig hi
      split at h
      · -- an instruction for the generator is no vset
        rename_i huses
        obtain ⟨gen, hset, h⟩ := Run.bind_eq_ok.mp h
        obtain ⟨⟨uop, gen'⟩, hgen, h⟩ := Run.bind_eq_ok.mp h
        obtain ⟨rfl, rfl⟩ := Prod.mk.inj (Option.some.inj (Except.ok.inj h))
        have hvset : (configure s.vectorConfig i).inst.isVset = false := by
          simp only [usesUopGen, Bool.and_eq_true, Bool.not_eq_true'] at huses
          exact huses.1.2
        have hcurrent := (VectorUopGenerator.setInst_spec hset).2.1
        have hg : NoVset gen := by
          intro j hj
          obtain rfl := Option.some.inj (hcurrent.symm.trans hj)
          exact hvset
        obtain ⟨⟨j, hj, -, hmade⟩, hsame⟩ := generateUop_made hg hgen
        obtain rfl := Option.some.inj (hcurrent.symm.trans hj)
        refine ⟨_, H.take hm hwait hq hi hmade (fun hb => ?_) fun j hj => .inl ?_⟩
        · rw [C.novset hvset] at hb
          cases hb
        · obtain rfl := Option.some.inj (hcurrent.symm.trans (hsame j hj))
          exact ⟨rfl, hvset⟩
      · obtain ⟨rfl, rfl⟩ := Prod.mk.inj (Option.some.inj (Except.ok.inj h))
        exact ⟨_, H.take hm hwait hq hi (.inl rfl) (fun _ => rfl) fun j hj => .inr hj⟩

end Loop

theorem decodeInsts_session {q : DecodeParams} (hm : q.mavis.KeepsPipe) {s s' : DecodeState}
    {out : Option (List Inst)} (hg : NoVset s.vecUopGen)
    (hnew : ∀ i ∈ s.fetchQueue, i.isNew = true) (h : decodeInsts q s = .ok (s', out)) :
    ∃ l, SessionSpec q.mavis s s' l (out.getD []) := by
  have hstart := SessionSpec.refl q.mavis hg
  rcases decodeInsts_cases h with ⟨-, rfl, rfl⟩ | ⟨-, s₁, grp, hloop, rfl, rfl⟩
  · exact ⟨[], { hstart with }⟩
  · obtain ⟨l, B⟩ := decodeLoop_induct
      (I := fun s₁ grp => ∃ l, SessionSpec q.mavis s s₁ l grp.insts)
      (fun hwait ⟨l, H⟩ hone => decodeOne_session hm H
        (fun i hi => hnew i (by rw [H.queue]; exact List.mem_append_right _ hi)) hwait hone) _
      (s := { s with latencyCount := 0 }) ⟨[], { hstart with }⟩ hloop
    exact ⟨l, { B with }⟩

end Decode

end Olympia
