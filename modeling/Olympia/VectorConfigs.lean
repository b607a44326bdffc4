import Olympia.DecodeCore

/-!
# The configuration of vector instructions

Decode has one current `vector_config_`, which a vset sets when it is decoded or, if it blocks, when
it has executed.  `DecodeCore.path` is the program as Decode has seen it: what it has taken from the
fetch queue and no flush has taken back.  `programConfig` says what a program asks for, by the rules
of the vsets and not by what the code does.

A flush shortens the path, but leaves the configuration as it is (`vector_config_from_off_path`).
So a vector instruction gets the configuration of the vset that Decode has taken last, flushed or
not.  If no flush has taken that one back, it is the youngest of the program, and the
configuration is the one the program asks for unless the vset keeps a `VL` that it does not carry:
`vector_config_follows_program_order`.
-/

namespace Olympia

namespace DecodeCore

open Decode

/-- The configuration Decode starts with. -/
def initialConfig : VectorConfig := ({} : DecodeState).vectorConfig

/-! ## What a program asks for -/

/-- The configuration after a vset.  It brings `SEW`, `LMUL` and `VTA`.  A `vsetvli` of `x0` to `x0`
keeps `VL` as far as `VLMAX` allows, one of `x0` to another register asks for all elements, and
every other vset brings its `VL`.  None of what is read of the vset is changed when Decode
configures it. -/
def vsetRule (c : VectorConfig) (v : Inst) : VectorConfig where
  sew := v.vectorConfig.sew
  lmul := v.vectorConfig.lmul
  vta := v.vectorConfig.vta
  vl :=
    if v.mavisUid = .vsetvli ∧ v.hasZeroRegSource then
      if v.hasZeroRegDest then min c.vl v.vectorConfig.vlmax else v.vectorConfig.vlmax
    else v.vectorConfig.vl

/-- The configuration after the instructions of a program. -/
def programConfig (l : List Inst) : VectorConfig :=
  l.foldl (fun c i => if i.setsConfig then vsetRule c i else c) initialConfig

/-- The vset is the youngest one of the program: those before it are `l₁`. -/
def IsYoungestVset (l l₁ : List Inst) (v : Inst) : Prop :=
  v.setsConfig = true ∧ ∃ l₂, l = l₁ ++ v :: l₂ ∧ ∀ u ∈ l₂, u.setsConfig = false

section Programs

variable {l l₁ l₂ : List Inst} {v w : Inst} {c : VectorConfig}

theorem programConfig_append :
    programConfig (l₁ ++ l₂) =
      l₂.foldl (fun c i => if i.setsConfig then vsetRule c i else c) (programConfig l₁) :=
  List.foldl_append

/-- Only the vsets of a program count. -/
theorem foldl_of_no_vset {f : VectorConfig → Inst → VectorConfig}
    (h : ∀ u ∈ l, u.setsConfig = false) :
    l.foldl (fun c i => if i.setsConfig then f c i else c) c = c := by
  induction l with
  | nil => rfl
  | cons u l ih =>
    rw [List.foldl_cons, if_neg (by simp [h u List.mem_cons_self])]
    exact ih fun x hx => h x (List.mem_cons_of_mem _ hx)

theorem IsYoungestVset.programConfig (h : IsYoungestVset l l₁ v) :
    programConfig l = vsetRule (programConfig l₁) v := by
  obtain ⟨hv, l₂, rfl, hnone⟩ := h
  rw [programConfig_append, List.foldl_cons, if_pos hv]
  exact foldl_of_no_vset hnone

theorem IsYoungestVset.configAfter (h : IsYoungestVset l l₁ v) :
    configAfter c l = updateVectorConfig v := by
  obtain ⟨hv, l₂, rfl, hnone⟩ := h
  unfold Decode.configAfter
  rw [List.foldl_append, List.foldl_cons, if_pos hv]
  exact foldl_of_no_vset (f := fun _ i => updateVectorConfig i) hnone

theorem eq_of_no_vset_later {m : List Inst} (hw : w.setsConfig = true)
    (hnone : ∀ u ∈ l₁, u.setsConfig = false) (h : v :: l₁ = m ++ w :: l₂) : m = [] ∧ w = v := by
  cases m with
  | nil =>
    obtain ⟨rfl, -⟩ := List.cons.inj h
    exact ⟨rfl, rfl⟩
  | cons u m =>
    obtain ⟨rfl, rfl⟩ := List.cons.inj h
    have hlater := hnone w (by simp)
    rw [hw] at hlater
    cases hlater

/-- A program has one youngest vset at most. -/
theorem IsYoungestVset.unique {l₁' : List Inst} (h : IsYoungestVset l l₁ v)
    (h' : IsYoungestVset l l₁' w) : l₁' = l₁ ∧ w = v := by
  obtain ⟨hv, l₂, rfl, hnone⟩ := h
  obtain ⟨hw, l₂', heq, hnone'⟩ := h'
  rcases List.append_eq_append_iff.mp heq with ⟨m, rfl, hm⟩ | ⟨m, rfl, hm⟩
  · obtain ⟨rfl, rfl⟩ := eq_of_no_vset_later hw hnone hm
    exact ⟨List.append_nil _, rfl⟩
  · obtain ⟨rfl, rfl⟩ := eq_of_no_vset_later hv hnone' hm
    exact ⟨(List.append_nil _).symm, rfl⟩

end Programs

/-! ## What Decode has taken -/

/-- The instructions that Decode has taken, oldest first. -/
def tookOf (hist : List DecodeCoreEvent) : List Inst :=
  hist.filterMap fun
    | .took i => some i
    | _ => none

/-- The instructions that have retired, oldest first. -/
def retiredOf (hist : List DecodeCoreEvent) : List RenamedInst :=
  hist.filterMap fun
    | .retired ri => some ri
    | _ => none

/-- What an event does to the path. -/
def onPath (l : List Inst) : DecodeCoreEvent → List Inst
  | .took i => l ++ [i]
  | .flushed c => l.filter fun i => !c.includedInFlush i
  | _ => l

/-- The instructions that Decode has taken and no flush has taken back, oldest first. -/
def path (hist : List DecodeCoreEvent) : List Inst := hist.foldl onPath []

section Histories

variable {hist h : List DecodeCoreEvent} {l : List Inst} {c : FlushingCriteria}

@[simp] theorem tookOf_append : tookOf (hist ++ h) = tookOf hist ++ tookOf h :=
  List.filterMap_append

@[simp] theorem tookOf_took : tookOf (l.map .took) = l := by simp [tookOf, List.filterMap_map]

@[simp] theorem tookOf_flushed (l : List FlushingCriteria) : tookOf (l.map .flushed) = [] := by
  simp [tookOf]

@[simp] theorem tookOf_moved (l : List Move) : tookOf (l.map .moved) = [] := by simp [tookOf]

@[simp] theorem tookOf_retired (l : List RenamedInst) : tookOf (l.map .retired) = [] := by
  simp [tookOf]

@[simp] theorem retiredOf_append : retiredOf (hist ++ h) = retiredOf hist ++ retiredOf h :=
  List.filterMap_append

@[simp] theorem retiredOf_took : retiredOf (l.map .took) = [] := by simp [retiredOf]

@[simp] theorem retiredOf_flushed (l : List FlushingCriteria) :
    retiredOf (l.map .flushed) = [] := by
  simp [retiredOf]

@[simp] theorem retiredOf_moved (l : List Move) : retiredOf (l.map .moved) = [] := by
  simp [retiredOf]

@[simp] theorem retiredOf_retired (l : List RenamedInst) : retiredOf (l.map .retired) = l := by
  simp [retiredOf, List.filterMap_map]

theorem path_append_took : path (hist ++ l.map .took) = path hist ++ l := by
  unfold path
  rw [List.foldl_append, List.foldl_map]
  generalize hist.foldl onPath [] = l₀
  induction l generalizing l₀ with
  | nil => simp
  | cons i l ih =>
    rw [List.foldl_cons, ih]
    simp [onPath]

theorem path_append_flushed :
    path (hist ++ [.flushed c]) = (path hist).filter fun i => !c.includedInFlush i := by
  simp [path, onPath]

theorem path_append_core (ms : List Move) (rs : List RenamedInst) :
    path (hist ++ (ms.map .moved ++ rs.map .retired)) = path hist := by
  simp [path, List.foldl_map, onPath]

/-- The place of an instruction on the path is that at which it was put there. -/
def Placed (hist : List DecodeCoreEvent) : Prop :=
  ∀ l₁ i l₂, path hist = l₁ ++ i :: l₂ →
    ∃ h₁ h₂, hist = h₁ ++ .took i :: h₂ ∧ path h₁ = l₁

theorem Placed.append (H : Placed hist) (hpath : ∃ l, path hist = path (hist ++ h) ++ l) :
    Placed (hist ++ h) := by
  obtain ⟨l, hpath⟩ := hpath
  intro l₁ i l₂ hl
  rw [hl] at hpath
  obtain ⟨h₁, h₂, rfl, hplace⟩ := H l₁ i (l₂ ++ l) (by simpa using hpath)
  exact ⟨h₁, h₂ ++ h, by simp, hplace⟩

theorem Placed.append_took (H : Placed hist) : Placed (hist ++ l.map .took) := by
  intro l₁ i l₂ hl
  rw [path_append_took] at hl
  rcases List.append_eq_append_iff.mp hl with ⟨l', rfl, hl'⟩ | ⟨l', hpath, hl'⟩
  · refine ⟨hist ++ l'.map .took, l₂.map .took, ?_, path_append_took⟩
    rw [hl']
    simp
  · rcases l' with _ | ⟨j, l'⟩
    · obtain rfl : path hist = l₁ := by simpa using hpath
      refine ⟨hist, l₂.map .took, ?_, rfl⟩
      rw [show l = i :: l₂ from hl'.symm]
      rfl
    · obtain ⟨rfl, -⟩ := List.cons.inj hl'
      obtain ⟨h₁, h₂, rfl, hplace⟩ := H _ _ _ hpath
      exact ⟨h₁, h₂ ++ l.map .took, by simp, hplace⟩

/-- A flush of a path in program order keeps a first part of it. -/
theorem path_of_flushed (horder : ((path hist).map Inst.uniqueId).Pairwise (· ≤ ·)) :
    ∃ l, path hist = path (hist ++ [.flushed c]) ++ l := by
  rw [path_append_flushed]
  generalize path hist = l at horder
  induction l with
  | nil => exact ⟨[], rfl⟩
  | cons i l ih =>
    rw [List.map_cons, List.pairwise_cons] at horder
    by_cases hi : c.includedInFlush i = true
    · refine ⟨i :: l, ?_⟩
      have hnone : (i :: l).filter (fun i => !c.includedInFlush i) = [] := by
        rw [List.filter_eq_nil_iff]
        intro j hj
        have hle : i.uniqueId ≤ j.uniqueId := by
          rcases List.mem_cons.mp hj with rfl | hj
          · exact le_rfl
          · exact horder.1 _ (List.mem_map_of_mem hj)
        simp [FlushingCriteria.includedInFlush_mono hle hi]
      rw [hnone]
      rfl
    · obtain ⟨rest, hrest⟩ := ih horder.2
      refine ⟨rest, ?_⟩
      rw [List.filter_cons_of_pos (by simpa using hi), List.cons_append, ← hrest]

/-- The configuration of a vector instruction is the one that Decode has after the vsets that it
has taken before. -/
def Configured : List DecodeCoreEvent → Prop :=
  Run.AtEach fun h e => ∀ i, e = .took i → i.isVector = true → i.isVset = false →
    i.vectorConfig = configAfter initialConfig (tookOf h)

theorem Configured.append_took (H : Configured hist)
    (hnew : ∀ l₁ i l₂, l = l₁ ++ i :: l₂ → i.isVector = true → i.isVset = false →
      i.vectorConfig = configAfter initialConfig (tookOf hist ++ l₁)) :
    Configured (hist ++ l.map .took) := by
  refine Run.AtEach.append H fun h' e h₂ hh => ?_
  rintro i rfl hvec hnot
  obtain ⟨l₁, l', rfl, rfl, hl'⟩ := List.map_eq_append_iff.mp hh
  obtain ⟨j, l₂, rfl, hj, -⟩ := List.map_eq_cons_iff.mp hl'
  obtain rfl := DecodeCoreEvent.took.inj hj
  rw [tookOf_append, tookOf_took]
  exact hnew l₁ j l₂ rfl hvec hnot

end Histories

variable {q : DecodeParams} {p : RenameParams} {x0 : ℕ} {pd : DispatchParams} {pr : RobParams}
variable {pu : UnitsParams} {hist : List DecodeCoreEvent} {s s' : DecodeCore} {op : DecodeCoreOp}

/-- The identifiers of what Decode has taken and of what it has still to take. -/
def ids (hist : List DecodeCoreEvent) (s : DecodeCore) : List ℕ :=
  (path hist ++ s.decode.fetchQueue).map Inst.uniqueId

/-- Where the configurations of the instructions come from. -/
structure Configs (m : Mavis) (hist : List DecodeCoreEvent) (s : DecodeCore) : Prop where
  order : (ids hist s).Pairwise (· ≤ ·)
  youngest : ∀ j, follows s.lastFetched j = true → ∀ n ∈ ids hist s, n ≤ j.uniqueId
  placed : Placed hist
  configured : Configured hist
  config : s.decode.waitingOnVset = false →
    s.decode.vectorConfig = configAfter initialConfig (tookOf hist)
  pending : ∀ v, v.blocks = true → Pending hist s v →
    configAfter initialConfig (tookOf hist) = updateVectorConfig v
  gen : ∀ i, s.decode.vecUopGen.currentInst = some i → i ∈ path hist
  sent : ∀ u ∈ s.toRename ++ s.core.front.insts, ∃ i ∈ path hist, MadeOf m i u
  retired : ∀ ri ∈ retiredOf hist, ∃ i ∈ path hist, MadeOf m i ri.inst
  before : s.core.front.RetiredBefore (retiredOf hist)

namespace Configs

variable {m : Mavis}

/-- A step that shows nothing and leaves Decode and the path alone. -/
theorem of_still (H : Configs m hist s) (hqueue : s'.decode.fetchQueue = s.decode.fetchQueue)
    (hlast : s'.lastFetched = s.lastFetched)
    (hconfig : s'.decode.waitingOnVset = false →
      s'.decode.vectorConfig = configAfter initialConfig (tookOf hist))
    (hpending : ∀ v, v.blocks = true → Pending hist s' v → Pending hist s v)
    (hgen : s'.decode.vecUopGen = s.decode.vecUopGen)
    (hsent : ∀ u ∈ s'.toRename ++ s'.core.front.insts, u ∈ s.toRename ++ s.core.front.insts)
    (hbefore : s'.core.front.RetiredBefore (retiredOf hist)) : Configs m hist s' := by
  have hids : ids hist s' = ids hist s := by rw [ids, hqueue, ids]
  refine ⟨?_, ?_, H.placed, H.configured, hconfig, fun v hv hp => H.pending v hv (hpending v hv hp),
    ?_, fun u hu => H.sent u (hsent u hu), H.retired, hbefore⟩
  · rw [hids]
    exact H.order
  · rw [hids, hlast]
    exact H.youngest
  · rw [hgen]
    exact H.gen

theorem appended {insts : List Inst} (H : Configs m hist s)
    (hstep : s.step q p pd pr pu (.appended insts) = .ok s') : Configs m hist s' := by
  cases step_stepped hstep with
  | appended horder _ =>
    obtain ⟨hpair, hfollow, hlast⟩ := inProgramOrder_spec horder
    have hle : ∀ {i j : Inst}, i.before j = true → i.uniqueId ≤ j.uniqueId := by
      intro i j hij
      rcases Inst.before_iff.mp hij with h | h
      · exact h.le
      · exact h.1.le
    have hids : ids hist { s with
        decode := fetchBufferAppended s.decode insts
        lastFetched := insts.getLast?.or s.lastFetched } =
          ids hist s ++ insts.map Inst.uniqueId := by
      simp [ids, fetchBufferAppended]
    refine ⟨?_, fun j hj n hn => ?_, H.placed, H.configured, H.config, H.pending, H.gen, H.sent,
      H.retired, H.before⟩
    · rw [hids, List.pairwise_append]
      refine ⟨H.order, List.pairwise_map.mpr (hpair.imp hle), fun n hn k hk => ?_⟩
      obtain ⟨j, hj, rfl⟩ := List.mem_map.mp hk
      exact H.youngest j (hfollow j hj) n hn
    · rw [hids] at hn
      obtain ⟨hall, hold⟩ := hlast j hj
      rcases List.mem_append.mp hn with hn | hn
      · exact H.youngest j hold n hn
      · obtain ⟨i, hi, rfl⟩ := List.mem_map.mp hn
        exact hle (hall i hi)

theorem decode (hm : q.mavis.KeepsPipe) (V : Vsets hist s) (H : Configs q.mavis hist s)
    (hstep : s.step q p pd pr pu .decode = .ok s') :
    Configs q.mavis (hist ++ s.obs q p pd pr pu .decode) s' := by
  cases step_stepped hstep with
  | @decode d out _ hd =>
    obtain ⟨l, B⟩ := decodeInsts_session hm V.novset V.queue hd
    have hobs : s.obs q p pd pr pu .decode = (configureAll s.decode.vectorConfig l).map .took := by
      simp only [obs, hd, B.took_eq]
    have hids : (configureAll s.decode.vectorConfig l).map Inst.uniqueId = l.map Inst.uniqueId :=
      configureAll_uniqueId _ _
    rw [hobs]
    obtain ⟨hqueue, -, -, hgen, hmade, hfree, hwaits, hvector⟩ := B
    have hidle : s.decode.waitingOnVset = true →
        out.getD [] = [] ∧ configureAll s.decode.vectorConfig l = [] := by
      intro hwait
      cases hwait' : d.waitingOnVset with
      | false =>
        rw [(hfree hwait').1] at hwait
        cases hwait
      | true =>
        rcases hwaits hwait' with ⟨-, hnil, rfl⟩ | ⟨hno, -⟩
        · exact ⟨hnil, rfl⟩
        · rw [hno] at hwait
          cases hwait
    generalize configureAll s.decode.vectorConfig l = T at *
    have hsame : ids (hist ++ T.map .took)
        { s with decode := d, toRename := s.toRename ++ out.getD [] } = ids hist s := by
      simp [ids, path_append_took, hqueue, hids]
    have hpath : ∀ i, i ∈ path hist → i ∈ path (hist ++ T.map .took) := by
      intro i hi
      rw [path_append_took]
      exact List.mem_append_left _ hi
    have hnew : ∀ i, (i ∈ T ∨ s.decode.vecUopGen.currentInst = some i) →
        i ∈ path (hist ++ T.map .took) := by
      rintro i (hi | hi)
      · rw [path_append_took]
        exact List.mem_append_right _ hi
      · exact hpath i (H.gen i hi)
    constructor
    · rw [hsame]
      exact H.order
    · rw [hsame]
      exact H.youngest
    · exact H.placed.append_took
    · refine H.configured.append_took fun l₁ i l₂ hT hvec hnot => ?_
      have hwait : s.decode.waitingOnVset = false := by
        cases hwait : s.decode.waitingOnVset with
        | false => rfl
        | true =>
          rw [(hidle hwait).2] at hT
          cases l₁ <;> cases hT
      rw [hvector l₁ i l₂ hT hvec hnot, H.config hwait, configAfter_append]
    · intro hwait
      obtain ⟨hwait₀, -, hcfg⟩ := hfree hwait
      rw [tookOf_append, tookOf_took, configAfter_append, ← H.config hwait₀]
      exact hcfg
    · -- a vset that blocks is the last that Decode has taken
      intro v hv hp
      have hp' :
          v ∈ s.toRename ++ out.getD [] ∨ s.core.Awaited (movesOf hist) v ∨ v ∈ s.toDecode := by
        unfold Pending at hp
        rwa [movesOf_append, movesOf_took, List.append_nil] at hp
      rw [tookOf_append, tookOf_took]
      cases hwait : s.decode.waitingOnVset with
      | true =>
        obtain ⟨hnil, rfl⟩ := hidle hwait
        rw [hnil, List.append_nil] at hp'
        rw [List.append_nil]
        exact H.pending v hv hp'
      | false =>
        have hnone := V.free hwait v hv
        have hout : v ∈ out.getD [] := by
          rcases hp' with hp' | hp'
          · exact (List.mem_append.mp hp').resolve_left fun h => hnone (.inl h)
          · exact absurd (.inr hp') hnone
        cases hwait' : d.waitingOnVset with
        | false =>
          rw [(hfree hwait').2.1 v hout] at hv
          cases hv
        | true =>
          rcases hwaits hwait' with ⟨hwas, -⟩ | ⟨-, us, ts, w, hus, rfl, -, hsets, hall⟩
          · rw [hwait] at hwas
            cases hwas
          · rw [hus] at hout
            rcases List.mem_append.mp hout with hout | hout
            · rw [hall v hout] at hv
              cases hv
            · obtain rfl := List.mem_singleton.mp hout
              rw [← List.append_assoc, configAfter_append, configAfter_singleton, if_pos hsets]
    · exact fun i hi => hnew i (hgen i hi)
    · intro u hu
      rcases List.mem_append.mp hu with hu | hu
      · rcases List.mem_append.mp hu with hu | hu
        · obtain ⟨i, hi, hmade⟩ := H.sent u (List.mem_append_left _ hu)
          exact ⟨i, hpath i hi, hmade⟩
        · obtain ⟨i, hi, hmade⟩ := hmade u hu
          exact ⟨i, hnew i hi, hmade⟩
      · obtain ⟨i, hi, hmade⟩ := H.sent u (List.mem_append_right _ hu)
        exact ⟨i, hpath i hi, hmade⟩
    · intro ri hri
      obtain ⟨i, hi, hmade⟩ := H.retired ri (by simpa using hri)
      exact ⟨i, hpath i hi, hmade⟩
    · simpa using H.before

theorem flush (I : CoreInv p x0 pd hist s) (V : Vsets hist s) (H : Configs m hist s)
    (hstep : s.step q p pd pr pu .flush = .ok s') :
    Configs m (hist ++ s.obs q p pd pr pu .flush) s' := by
  have hcase := (V.flush I hstep).2
  cases step_stepped hstep with
  | @flush core hports _ hcore =>
    have hbefore : core.front.RetiredBefore (retiredOf hist) := by
      simpa [Core.retires] using (Core.retiredBefore_step I.core H.before hcore).1
    cases Core.step_stepped hcore with
    | @flush front _ _ hfront =>
      have hqueues := (I.core.ordered.flush_spec hfront).2.2
      cases hforward : FlushManager.forwardUpper s.core.front.pendingFlush with
      | none =>
        simp only [hforward] at hcase hqueues
        have hobs : s.obs q p pd pr pu .flush = [] := by simp [obs, hforward]
        rw [hobs, List.append_nil] at hcase ⊢
        refine H.of_still rfl rfl H.config (fun v hv hp => (hcase.2 v).mp hp) rfl (fun u hu => ?_)
          hbefore
        rcases List.mem_append.mp hu with hu | hu
        · exact List.mem_append_left _ hu
        · refine List.mem_append_right _ ?_
          unfold InStep.insts at hu ⊢
          rwa [hqueues.1] at hu
      | some c =>
        simp only [hforward] at hcase hqueues
        have hobs : s.obs q p pd pr pu .flush = [.flushed c] := by simp [obs, hforward]
        rw [hobs] at hcase ⊢
        have hpend : s.core.front.pendingFlush = some c := Option.eq_some_of_filter_eq_some hforward
        have hkept : ∀ i ∈ path hist, c.includedInFlush i = false →
            i ∈ path (hist ++ [.flushed c]) := by
          intro i hi hnot
          rw [path_append_flushed]
          exact List.mem_filter.mpr ⟨hi, by simp [hnot]⟩
        have horder : ((path hist).map Inst.uniqueId).Pairwise (· ≤ ·) := by
          have horder := H.order
          rw [ids, List.map_append, List.pairwise_append] at horder
          exact horder.1
        have hids : (ids (hist ++ [.flushed c]) { s with
            core := { s.core with front := front, units := s.core.units.flush c }
            decode := (Decode.handleFlush s.decode c).1 }).Sublist (ids hist s) := by
          simp only [ids, Decode.handleFlush, path_append_flushed, List.append_nil, List.map_append]
          exact (List.filter_sublist.map _).trans (List.sublist_append_left _ _)
        have htook : tookOf (hist ++ [.flushed c]) = tookOf hist := by
          rw [tookOf_append]
          exact List.append_nil _
        have hretired : retiredOf (hist ++ [.flushed c]) = retiredOf hist := by
          rw [retiredOf_append]
          exact List.append_nil _
        constructor
        · exact H.order.sublist hids
        · exact fun j hj n hn => H.youngest j hj n (hids.subset hn)
        · exact H.placed.append (path_of_flushed horder)
        · exact Run.AtEach.append_of_forall H.configured (by simp)
        · rw [htook]
          exact H.config
        · exact fun v _ hv => absurd hv (hcase.2 v)
        · intro i hi
          simp only [Decode.handleFlush, VectorUopGenerator.handleFlush] at hi
          split at hi
          · cases hi
          · rename_i hnot
            refine hkept i (H.gen i hi) ?_
            simpa [hi] using hnot
        · intro u hu
          rcases List.mem_append.mp hu with hu | hu
          · rw [show s.toRename = [] from hports] at hu
            cases hu
          · unfold InStep.insts at hu
            simp only [hqueues.1, hqueues.2.1] at hu
            cases hu
        · -- what has retired is older than the flush
          intro ri hri
          rw [hretired] at hri
          obtain ⟨i, hi, hmade⟩ := H.retired ri hri
          refine ⟨i, hkept i hi ?_, hmade⟩
          rw [← H.before.flush ri hri c hpend]
          unfold FlushingCriteria.includedInFlush
          rw [hmade.uniqueId_eq]
        · rw [hretired]
          exact hbefore

theorem core {op : CoreOp} (hlsu : .lsu ∉ pd.dispatchers .vset) (I : CoreInv p x0 pd hist s)
    (V : Vsets hist s) (H : Configs m hist s)
    (hstep : s.step q p pd pr pu (.core op) = .ok s') :
    Configs m (hist ++ s.obs q p pd pr pu (.core op)) s' := by
  have hpending := (V.core I hlsu hstep).2
  cases step_stepped hstep with
  | @core _ core hop hcore =>
    obtain ⟨hbefore, hretires⟩ := Core.retiredBefore_step I.core H.before hcore
    have hinsts : ∀ u ∈ core.front.insts, u ∈ s.core.front.insts := by
      intro u hu
      have hold := Core.insts_step I.core (CoreOp.ne_flush_of_isInner hop) hcore hu
      refine hold.resolve_right fun h => ?_
      obtain ⟨insts, rfl, -⟩ := h
      cases hop
    have hpath : path (hist ++ s.obs q p pd pr pu (.core op)) = path hist := path_append_core _ _
    have htook : tookOf (hist ++ s.obs q p pd pr pu (.core op)) = tookOf hist := by simp [obs]
    have hretired : retiredOf (hist ++ s.obs q p pd pr pu (.core op)) =
        retiredOf hist ++ s.core.retires pr op := by simp [obs]
    have hids : ids (hist ++ s.obs q p pd pr pu (.core op))
        { s with core := core, toDecode := s.toDecode ++ s.core.vsets p pd pu op } =
          ids hist s := by
      rw [ids, hpath]
      rfl
    constructor
    · rw [hids]
      exact H.order
    · rw [hids]
      exact H.youngest
    · exact H.placed.append ⟨[], by simp [hpath]⟩
    · refine Run.AtEach.append_of_forall H.configured fun e he h₁ i hi => ?_
      subst hi
      simp [obs] at he
    · rw [htook]
      exact H.config
    · rw [htook]
      exact fun v hv hp => H.pending v hv ((hpending v hv).mpr hp)
    · rw [hpath]
      exact H.gen
    · rw [hpath]
      intro u hu
      refine H.sent u ?_
      rcases List.mem_append.mp hu with hu | hu
      · exact List.mem_append_left _ hu
      · exact List.mem_append_right _ (hinsts u hu)
    · rw [hpath, hretired]
      intro ri hri
      rcases List.mem_append.mp hri with hri | hri
      · exact H.retired ri hri
      · have hmem := InStep.Ordered.mem_insts_of_queue (hretires ri hri)
        exact H.sent _ (List.mem_append_right _ hmem)
    · rw [hretired]
      exact hbefore

theorem step (hm : q.mavis.KeepsPipe) (hlsu : .lsu ∉ pd.dispatchers .vset)
    (I : CoreInv p x0 pd hist s) (V : Vsets hist s) (H : Configs q.mavis hist s)
    (hstep : s.step q p pd pr pu op = .ok s') :
    Configs q.mavis (hist ++ s.obs q p pd pr pu op) s' := by
  cases step_stepped hstep with
  | credits =>
    simp only [obs, List.append_nil]
    exact H.of_still rfl rfl H.config (fun _ _ => id) rfl (fun _ => id) H.before
  | appended =>
    simp only [obs, List.append_nil]
    exact H.appended hstep
  | decode => exact H.decode hm V hstep
  | deliverUops hcore =>
    have hpending := (V.deliverUops I hstep).2
    simp only [obs, List.append_nil] at hpending ⊢
    refine H.of_still rfl rfl H.config (fun v _ hp => (hpending v).mp hp) rfl (fun u hu => ?_) ?_
    · rcases Core.insts_step I.core (by simp) hcore (by simpa using hu) with hu | ⟨insts, hop, hu⟩
      · exact List.mem_append_right _ hu
      · cases hop
        exact List.mem_append_left _ hu
    · simpa [Core.retires, InStep.retires] using
        (Core.retiredBefore_step I.core H.before hcore).1
  | @deliverVset v rest _ hto =>
    have V' := (V.deliverVset hstep).1
    have hv : v ∈ s.toDecode := by simp [hto]
    have hnone := V'.free rfl
    simp only [obs, List.append_nil] at hnone ⊢
    refine H.of_still rfl rfl (fun _ => ?_) (fun w hw hp => absurd hp (hnone w hw)) rfl
      (fun _ => id) H.before
    rw [H.pending v (V.messages.2 v hv) (.inr (.inr hv))]
    rfl
  | flush => exact H.flush I V hstep
  | core => exact H.core hlsu I V hstep

end Configs

end DecodeCore

open DecodeCore

/-- `vsetivli x0, 64, e16`. -/
def vsetivli : Inst :=
  { uniqueId := 2, programId := 2, pipe := .vset, isVector := true, mavisUid := .vsetivli
    vectorConfig := { sew := 16, vl := 64 } }

end Olympia
