import Olympia.Lsu.ReadyQueue

/-!
# The writebacks of the LSU

`completeInst_` sets the destination of an instruction ready before it looks whether the
instruction has completed before, so an instruction that passes the last stage twice writes twice.
A load passes it once if it is never in two places between the ready queue and the end of the
pipeline (`OnePass`).  Three handlers can put it into a second place: `appendReady_` looks at the
ready queue and the replay buffer but not at the pipeline, `abortYoungerLoads_` does not look at an
instruction that has been appended in the same cycle, and `handleCacheRead_` does not know what
`completeInst_` has just done if both are at one stage.
-/

namespace Olympia

namespace Lsu

variable {p : LsuParams} {sb : Scoreboards} {D q : List RenamedInst} {w w' : LsuWork}
variable {T T' : InstTable} {ri e : RenamedInst} {C C' : Prop}

/-! ## One place for each load -/

/-- A load is at one place between the ready queue and the last stage.  It has not completed, or it
is in the last stage and `completeInst_` has run in this cycle (`C`). -/
structure OnePass (p : LsuParams) (w : LsuWork) (T : InstTable) (C : Prop) (e : RenamedInst) :
    Prop where
  ready : e ∈ w.readyQueue → w.appended ≠ some e ∧ ∀ n ≤ p.completeStage, w.stages n ≠ some e
  appended : w.appended = some e → ∀ n ≤ p.completeStage, w.stages n ≠ some e
  stages : ∀ m ≤ p.completeStage, ∀ n ≤ p.completeStage,
    w.stages m = some e → w.stages n = some e → m = n
  waiting : e ∈ w.readyQueue ∨ e ∈ w.replayBuffer ∨ w.appended = some e →
    T.status e.key = .scheduled
  inPipeline : ∀ n ≤ p.completeStage, w.stages n = some e →
    T.status e.key = .scheduled ∨ n = p.completeStage ∧ C

theorem cacheLookupStage_lt (p : LsuParams) : p.cacheLookupStage < p.completeStage := by
  simp only [LsuParams.completeStage, LsuParams.cacheReadStage]
  omega

theorem cacheReadStage_le (p : LsuParams) : p.cacheReadStage ≤ p.completeStage := by
  simp only [LsuParams.completeStage]
  omega

namespace OnePass

/-- Nothing comes to a place. -/
theorem of_sub (H : OnePass p w T C e) (hready : e ∈ w'.readyQueue → e ∈ w.readyQueue)
    (hreplay : e ∈ w'.replayBuffer → e ∈ w.replayBuffer)
    (happ : w'.appended = some e → w.appended = some e)
    (hstages : ∀ n, w'.stages n = some e → w.stages n = some e) (hC : C → C')
    (hst : T.status e.key = .scheduled → T'.status e.key = .scheduled) :
    OnePass p w' T' C' e where
  ready h := ⟨fun h' => (H.ready (hready h)).1 (happ h'),
    fun n hn h' => (H.ready (hready h)).2 n hn (hstages n h')⟩
  appended h n hn h' := H.appended (happ h) n hn (hstages n h')
  stages m hm n hn h h' := H.stages m hm n hn (hstages m h) (hstages n h')
  waiting h := hst (H.waiting (h.imp hready (Or.imp hreplay happ)))
  inPipeline n hn h := (H.inPipeline n hn (hstages n h)).imp hst (And.imp id hC)

/-- A load that is at no place. -/
theorem of_not_at (h : ¬w.At e) : OnePass p w T C e where
  ready h' := (h (.inl h')).elim
  appended h' := (h (.inr (.inr (.inl h')))).elim
  stages m _ _ _ h' := (h (.inr (.inr (.inr (.inl ⟨m, h'⟩))))).elim
  waiting h' := (h (h'.elim .inl fun h' => .inr (h'.elim .inl fun h' => .inr (.inl h')))).elim
  inPipeline n _ h' := (h (.inr (.inr (.inr (.inl ⟨n, h'⟩))))).elim

/-- The load joins the ready queue. -/
theorem enqueue (H : OnePass p w T C e) (E : Enqueued w ri w')
    (hnew : e = ri → T.status e.key = .scheduled ∧ w.appended ≠ some e ∧
      ∀ n ≤ p.completeStage, w.stages n ≠ some e) : OnePass p w' T C e := by
  have happ : w'.appended = w.appended := by rw [E.rest]
  have hstages : w'.stages = w.stages := by rw [E.rest]
  have hreplay : w'.replayBuffer = w.replayBuffer := by rw [E.rest]
  have hready : ∀ {P : Prop}, e ∈ w'.readyQueue → (e = ri → P) → (e ∈ w.readyQueue → P) → P :=
    fun h h₁ h₂ => (List.mem_cons.mp (E.ready.mem_iff.mp h)).elim h₁ h₂
  refine ⟨fun h => ?_, ?_, ?_, ?_, ?_⟩
  · rw [happ, hstages]
    exact hready h (fun heq => (hnew heq).2) H.ready
  · rw [happ, hstages]
    exact H.appended
  · rw [hstages]
    exact H.stages
  · rw [happ, hreplay]
    rintro (h | h)
    · exact hready h (fun heq => (hnew heq).1) fun h => H.waiting (.inl h)
    · exact H.waiting (.inr h)
  · rw [hstages]
    exact H.inPipeline

/-- A dispatched load is at no place. -/
theorem of_dispatched (Hs : Holding D q sb w T) (hst : T.status e.key = .dispatched) :
    w.appended ≠ some e ∧ ∀ n ≤ p.completeStage, w.stages n ≠ some e :=
  ⟨fun h => (Hs.present e (.inr (.inr (.inl h)))).2.1 hst,
    fun n _ h => (Hs.present e (.inr (.inr (.inr (.inl ⟨n, h⟩))))).2.1 hst⟩

/-- An instruction is made ready for the first time. -/
theorem makeReady (Hs : Holding D q sb w T) (H : OnePass p w T C e)
    (hst : e = ri → T.status ri.key = .dispatched) (E : Enqueued w ri w') :
    OnePass p w' (T.setStatus ri.key .scheduled) C e := by
  have hkeep : T.status e.key = .scheduled →
      (T.setStatus ri.key .scheduled).status e.key = .scheduled := by
    intro h
    by_cases hk : e.key = ri.key
    · simp [InstTable.setStatus, hk]
    · simpa [InstTable.setStatus, hk] using h
  refine (H.of_sub id id id (fun _ => id) id hkeep).enqueue E fun heq => ?_
  subst heq
  exact ⟨by simp [InstTable.setStatus], of_dispatched Hs (hst rfl)⟩

theorem check (Hs : Holding D q sb w T) (H : OnePass p w T C e)
    (hst : e = ri → T.status ri.key ≠ .scheduled → inQueue q ri = true →
      T.status ri.key = .dispatched) {y : LsuWork × InstTable}
    (h : OperandCheck p sb q w T ri y) : OnePass p y.1 y.2 C e := by
  cases h with
  | scheduled _ => exact H
  | address _ _ => exact H.of_sub id id id (fun _ => id) id id
  | data _ _ _ => exact H.of_sub id id id (fun _ => id) id id
  | ready hne _ _ hin hen => exact H.makeReady Hs (fun heq => hst heq hne hin) hen
  | blocked _ _ _ _ _ => exact H

/-- A load that leaves the only stage it is in. -/
theorem stages_of_invalidateStage (H : OnePass p w T C e) {m : ℕ} (hm : m ≤ p.completeStage)
    (he : w.stages m = some e) :
    ∀ n ≤ p.completeStage, (w.invalidateStage m).stages n ≠ some e := by
  intro n hn h
  obtain ⟨h, hne⟩ := LsuWork.stages_of_invalidateStage h
  exact hne (H.stages n hn m hm h he)

/-- The stage that holds a load is dropped. -/
theorem stages_of_drop (hD : (D.map RenamedInst.key).Nodup) (Hs : Holding D q sb w T)
    (H : OnePass p w T C e) :
    ∀ n ≤ p.completeStage, (dropInstFromPipeline p w e).stages n ≠ some e := by
  intro n hn h
  unfold dropInstFromPipeline at h
  split at h
  · rename_i m hm
    obtain ⟨h, hne⟩ := LsuWork.stages_of_invalidateStage h
    have hle := List.mem_range.mp (List.mem_of_find?_eq_some hm)
    have hfound := List.find?_some hm
    simp only [Option.any_eq_true, decide_eq_true_eq] at hfound
    obtain ⟨e', he', hkey⟩ := hfound
    have hmem := (Hs.present e (.inr (.inr (.inr (.inl ⟨n, h⟩))))).1
    have hmem' := (Hs.present e' (.inr (.inr (.inr (.inl ⟨m, he'⟩))))).1
    obtain rfl := eq_of_key hD hmem' hmem hkey
    exact hne (H.stages n hn m (by omega) h he')
  · rename_i hnone
    have hno := List.find?_eq_none.mp hnone n (List.mem_range.mpr (by omega))
    simp [h] at hno

/-- What `appendReady_` puts into the ready queue, if it is a load, is nowhere else. -/
def Alone (p : LsuParams) (q : List RenamedInst) (w : LsuWork) (ri : RenamedInst) : Prop :=
  ri.inst.isStore = false →
    ri ∈ q ∧ w.appended ≠ some ri ∧ ∀ n ≤ p.completeStage, w.stages n ≠ some ri

/-- An aborted load has not just been appended. -/
def NotAppended (w : LsuWork) (e : RenamedInst) : Prop := w.appended ≠ some e

theorem move (hD : (D.map RenamedInst.key).Nodup) (hmem : e ∈ D)
    (hload : e.inst.isStore = false) (Hs : Holding D q sb w T) (H : OnePass p w T C e)
    (h : LsuMove p sb q (Alone p q) NotAppended (p.cacheReadStage = p.completeStage → ¬C)
      (w, T) (w', T')) : OnePass p w' T' C e := by
  generalize hy : (w', T') = y at h
  cases h with
  | note hinfo _ _ =>
    obtain ⟨rfl, rfl⟩ := Prod.mk.inj hy
    exact H.of_sub id id id (fun _ => id) id id
  | wake hri hst _ _ _ _ _ hen =>
    obtain ⟨rfl, rfl⟩ := Prod.mk.inj hy
    exact H.makeReady Hs (fun _ => hst) hen
  | request _ _ =>
    obtain ⟨rfl, rfl⟩ := Prod.mk.inj hy
    exact H.of_sub id id id (fun _ => id) id id
  | translate _ =>
    obtain ⟨rfl, rfl⟩ := Prod.mk.inj hy
    exact H.of_sub id id id (fun _ => id) id id
  | @abort _ w₁ _ r hr _ hok hen =>
    obtain ⟨rfl, rfl⟩ := Prod.mk.inj hy
    -- the load leaves its stage, joins the ready queue and leaves the replay buffer
    have Hd : OnePass p (dropInstFromPipeline p w r) _ C e :=
      H.of_sub (by rw [dropInstFromPipeline_readyQueue]; exact id)
        (by rw [dropInstFromPipeline_replayBuffer]; exact id)
        (by rw [dropInstFromPipeline_appended]; exact id)
        (fun _ => stages_of_dropInstFromPipeline) id id
    have Hen := Hd.enqueue (hen.dropInstFromPipeline p) fun heq => by
      subst heq
      rw [dropInstFromPipeline_appended]
      exact ⟨H.waiting (.inr (.inl hr)), hok, H.stages_of_drop hD Hs⟩
    exact Hen.of_sub id List.mem_of_mem_filter id (fun _ => id) id id
  | @bounce _ w₁ _ n r hn hr hen =>
    obtain ⟨rfl, rfl⟩ := Prod.mk.inj hy
    have hle : n ≤ p.completeStage := by
      rcases hn with rfl | ⟨rfl, -⟩
      · exact (cacheLookupStage_lt p).le
      · exact cacheReadStage_le p
    have Hr : OnePass p (scheduleReplay p w r) _ C e :=
      H.of_sub (by simp) (fun h => scheduleReplay_replayBuffer.subset h) (by simp) (by simp) id id
    have Hi : OnePass p ((scheduleReplay p w r).invalidateStage n) _ C e :=
      Hr.of_sub id id id (fun _ h => (LsuWork.stages_of_invalidateStage h).1) id id
    rcases hen with ⟨rfl, -⟩ | hen
    · exact Hi
    · refine Hi.enqueue (hen.invalidateStage n) fun heq => ?_
      subst heq
      refine ⟨?_, fun happ => H.appended (by simpa using happ) n hle hr,
        Hr.stages_of_invalidateStage hle (by simpa using hr)⟩
      rcases H.inPipeline n hle hr with hst | ⟨hlast, hC⟩
      · exact hst
      · rcases hn with rfl | ⟨rfl, hread⟩
        · exact absurd hlast (cacheLookupStage_lt p).ne
        · exact absurd hC (hread hlast)
  | @leave _ T₁ _ r hstage hT =>
    obtain ⟨rfl, rfl⟩ := Prod.mk.inj hy
    have hsub : (scheduleReplay p (w.invalidateStage p.cacheLookupStage) r).replayBuffer.Sublist
        w.replayBuffer := scheduleReplay_replayBuffer
    refine H.of_sub (by simp) (fun h => hsub.subset h) (by simp) (fun n h => ?_) id fun hst => ?_
    · rw [scheduleReplay_stages] at h
      exact (LsuWork.stages_of_invalidateStage h).1
    · rcases hT with rfl | ⟨hstore, -, rfl⟩
      · exact hst
      · have hr := (Hs.present r (.inr (.inr (.inr (.inl ⟨_, hstage⟩))))).1
        have hkey : e.key ≠ r.key := by
          intro hkey
          obtain rfl := eq_of_key hD hmem hr hkey
          rw [hload] at hstore
          cases hstore
        simpa [InstTable.setStatus, hkey] using hst
  | push _ _ =>
    obtain ⟨rfl, rfl⟩ := Prod.mk.inj hy
    exact H.of_sub id id id (fun _ => id) id id
  | unreplay =>
    obtain ⟨rfl, rfl⟩ := Prod.mk.inj hy
    exact H.of_sub id List.mem_of_mem_filter id (fun _ => id) id id
  | replay _ =>
    obtain ⟨rfl, rfl⟩ := Prod.mk.inj hy
    exact H.of_sub id id id (fun _ => id) id id
  | @append _ _ _ n r hr _ hok hen =>
    obtain ⟨rfl, rfl⟩ := Prod.mk.inj hy
    have Hp : OnePass p { w with appendReady := w.appendReady.eraseIdx n } _ C e :=
      H.of_sub id id id (fun _ => id) id id
    refine Hp.enqueue hen fun heq => ?_
    subst heq
    obtain ⟨hq, happ, hstages⟩ := hok hload
    refine ⟨?_, happ, hstages⟩
    have hne := (Hs.present e (.inr (.inr (.inr (.inr (.inl (List.mem_of_getElem? hr))))))).2.1
    rcases Hs.queue e hq with hst | hst | ⟨hstore, -⟩
    · exact absurd hst hne
    · exact hst
    · rw [hload] at hstore
      cases hstore
  | skip =>
    obtain ⟨rfl, rfl⟩ := Prod.mk.inj hy
    exact H.of_sub id id id (fun _ => id) id id

theorem moves (hD : (D.map RenamedInst.key).Nodup) (hq : ∀ ri ∈ q, ri ∈ D) (hmem : e ∈ D)
    (hload : e.inst.isStore = false) (Hs : Holding D q sb w T) (H : OnePass p w T C e)
    (h : Relation.ReflTransGen (LsuMove p sb q (Alone p q) NotAppended
      (p.cacheReadStage = p.completeStage → ¬C)) (w, T) (w', T')) : OnePass p w' T' C e := by
  have Hboth : Holding D q sb w' T' ∧ OnePass p w' T' C e :=
    LsuMove.invariant (I := fun x => Holding D q sb x.1 x.2 ∧ OnePass p x.1 x.2 C e)
      (fun ⟨Hs, H⟩ hmove => ⟨Hs.move hD hq hmove, H.move hD hmem hload Hs hmove⟩) ⟨Hs, H⟩ h
  exact Hboth.2

theorem issue (Hr : ReadyQueue p w) (H : OnePass p w T C e) (h : Issued p w ri w') :
    OnePass p w' T C e := by
  have hri : ri ∈ w.readyQueue := by
    rw [h.ready]
    exact List.mem_cons_self
  have hnot : ri ∉ w'.readyQueue := by
    intro hmem
    have hnodup := Hr.nodup
    rw [h.ready, List.map_cons] at hnodup
    exact (List.nodup_cons.mp hnodup).1 (List.mem_map_of_mem hmem)
  have happ : w'.appended = some ri := by rw [h.rest]
  have hstages : w'.stages = w.stages := by rw [h.rest]
  have hsub : e ∈ w'.readyQueue → e ∈ w.readyQueue := fun he => by
    rw [h.ready]
    exact List.mem_cons_of_mem _ he
  refine ⟨fun he => ⟨fun heq => ?_, ?_⟩, fun heq => ?_, ?_, ?_, ?_⟩
  · obtain rfl := Option.some.inj (happ.symm.trans heq)
    exact hnot he
  · rw [hstages]
    exact (H.ready (hsub he)).2
  · obtain rfl := Option.some.inj (happ.symm.trans heq)
    rw [hstages]
    exact (H.ready hri).2
  · rw [hstages]
    exact H.stages
  · rintro (he | he | heq)
    · exact H.waiting (.inl (hsub he))
    · rcases h.replay with ⟨-, hrep⟩ | ⟨-, hrep, -⟩
      · rw [hrep] at he
        exact H.waiting (.inr (.inl he))
      · rw [hrep] at he
        rcases List.mem_append.mp he with he | he
        · exact H.waiting (.inr (.inl he))
        · rw [List.mem_singleton.mp he]
          rw [List.mem_singleton.mp he] at H
          exact H.waiting (.inl hri)
    · obtain rfl := Option.some.inj (happ.symm.trans heq)
      exact H.waiting (.inl hri)
  · rw [hstages]
    exact H.inPipeline

/-- The pipeline moves, and a new cycle begins. -/
theorem advance (H : OnePass p w T C e) : OnePass p w.advance T False e := by
  refine ⟨fun he => ⟨by simp [LsuWork.advance], fun n hn => ?_⟩, fun h => (by cases h),
    fun m hm n hn h h' => ?_, fun h => ?_, fun n hn h => ?_⟩
  · rcases n with _ | n
    · exact (H.ready he).1
    · exact (H.ready he).2 n (by omega)
  · rcases m with _ | m
    · rcases n with _ | n
      · rfl
      · exact absurd h' (H.appended h n (by omega))
    · rcases n with _ | n
      · exact absurd h (H.appended h' m (by omega))
      · exact congrArg Nat.succ (H.stages m (by omega) n (by omega) h h')
  · rcases h with h | h | h
    · exact H.waiting (.inl h)
    · exact H.waiting (.inr (.inl h))
    · cases h
  · rcases n with _ | n
    · exact .inl (H.waiting (.inr (.inr h)))
    · rcases H.inPipeline n (by omega) h with hst | ⟨hlast, -⟩
      · exact .inl hst
      · omega

end OnePass

/-- An instruction that completes is not in the replay buffer any more. -/
theorem dropReplay_not_mem {s : LsuState}
    (h : p.allowSpeculativeLoadExec = false → s.work.replayBuffer = []) :
    ri ∉ (dropReplay p s ri).work.replayBuffer := by
  unfold dropReplay
  split
  · intro hmem
    simpa using (List.mem_filter.mp hmem).2
  · rename_i hspec
    rw [h (by simpa using hspec)]
    exact List.not_mem_nil

end Lsu

/-! ## Along a run -/

open Lsu

namespace LsuSystem

variable {p : LsuParams} {s s' : LsuSystem} {op : LsuSystemOp}

/-- A step that puts no load into a second place.  A store has no destination. -/
def OneEntry (p : LsuParams) (s : LsuSystem) : LsuSystemOp → Prop
  | .dispatch ri _ => ri.inst.isStore = true → ri.inst.dests = []
  | .work (.appendReady n) => ∀ ri, s.work.appendReady[n]? = some ri →
    (s.work.info ri.key).inReadyQueue = false → inQueue s.work.replayBuffer ri = false →
      OnePass.Alone p s.queue s.work ri
  | .work (.mmuAck n true) => ∀ ri, s.work.mmuRequests[n]? = some ri → ri.inst.isStore = true →
    p.allowSpeculativeLoadExec = true →
      ∀ e ∈ abortedLoads s.work ri, OnePass.NotAppended s.work e
  | .work .cacheRead => p.cacheReadStage = p.completeStage → .complete ∉ s.done
  | _ => True

def OnePasses (p : LsuParams) (s : LsuSystem) : Prop :=
  ∀ e ∈ s.dispatched, e.inst.isStore = false →
    OnePass p s.work s.table (.complete ∈ s.done) e

theorem mem_done_append {d : List LsuEvent} {ev : Option LsuEvent}
    (hev : ev ≠ some .complete) :
    LsuEvent.complete ∈ d ++ ev.toList ↔ LsuEvent.complete ∈ d := by
  rw [List.mem_append, or_iff_left]
  intro h
  exact hev (Option.mem_toList.mp h)

theorem onePass_complete (Hs : Inv s) (Hr : ReadyQueue p s.work) {e : RenamedInst}
    (he : e ∈ s.dispatched) (H : OnePass p s.work s.table (.complete ∈ s.done) e)
    {out : CompleteOut} (hout : completeInst p s.lsu s.table s.sb = .ok out) :
    OnePass p out.state.work out.table (.complete ∈ s.done ++ [.complete]) e := by
  obtain ⟨hwork, hreplay⟩ := completeInst_work hout
  have hsub : ∀ {T}, (s.table.status e.key = .scheduled → T.status e.key = .scheduled) →
      OnePass p out.state.work T (.complete ∈ s.done ++ [.complete]) e := by
    intro T hst
    refine H.of_sub ?_ (fun h => hreplay.subset h) ?_ ?_ (List.mem_append_left _) hst
    · rw [hwork]
      exact id
    · rw [hwork]
      exact id
    · rw [hwork]
      exact fun _ => id
  cases completeInst_cases hout with
  | idle _ => exact hsub id
  | wait _ _ _ _ _ => exact hsub id
  | again _ _ _ _ => exact hsub id
  | store _ _ _ _ _ _ _ => exact hsub id
  | @load ri sb' hri _ _ hload hret hcompl hin =>
    by_cases hkey : e.key = ri.key
    · -- the load that has completed is in the last stage only
      have hmem := (Hs.holding.present ri (.inr (.inr (.inr (.inl ⟨_, hri⟩))))).1
      obtain rfl := eq_of_key Hs.keys he hmem hkey
      have hri : s.work.stages p.completeStage = some e := hri
      have hready : e ∉ s.work.readyQueue := fun h => (H.ready h).2 _ le_rfl hri
      have happ : s.work.appended ≠ some e := fun h => H.appended h _ le_rfl hri
      rw [dropReplay_work]
      refine ⟨fun h => absurd h hready, fun h => absurd h happ, H.stages, ?_, fun n hn h => ?_⟩
      · rintro (h | h | h)
        · exact absurd h hready
        · exact absurd h (dropReplay_not_mem Hr.speculative)
        · exact absurd h happ
      · exact .inr ⟨H.stages n hn _ le_rfl h hri, by simp⟩
    · exact hsub fun hst => by simpa [InstTable.setStatus, hkey] using hst

theorem onePasses_step (Hs : Inv s) (Hr : ReadyQueue p s.work) (H : OnePasses p s)
    (hclean : OneEntry p s op) (h : s.step p op = .ok s') : OnePasses p s' := by
  intro e he hload
  cases step_stepped h with
  | @dispatch ri stale i w T hphase hnext hcheck hi =>
    have hfresh : ∀ e ∈ s.dispatched, e.key ≠ ri.key := fun e he =>
      (of_decide_eq_true (List.all_eq_true.mp hnext e he)).2
    have Harr := Hs.holding.arrive (f := fun _ => { inReadyQueue := stale })
      (fun e he => Hs.mem_dispatched he) hfresh
    have Hwait : OnePass p (s.work.modifyInfo ri.key fun _ => { inReadyQueue := stale })
        (s.table.setStatus ri.key .dispatched) (.complete ∈ s.done) e := by
      rcases List.mem_append.mp he with he | he
      · refine (H e he hload).of_sub id id id (fun _ => id) id fun hst => ?_
        simpa [InstTable.setStatus, hfresh e he] using hst
      · rw [List.mem_singleton.mp he]
        refine .of_not_at fun hat => ?_
        exact hfresh ri (Hs.holding.present ri hat).1 rfl
    exact Hwait.check Harr (fun _ _ _ => by simp [InstTable.setStatus]) hcheck
  | @retire n ri hri hphase hstatus =>
    refine (H e he hload).of_sub id id id (fun _ => id) id fun hst => ?_
    have hkey : e.key ≠ ri.key := fun hkey => by
      rw [hkey, hstatus] at hst
      cases hst
    simpa [InstTable.setStatus, hkey] using hst
  | robAck hphase hacks hin hf hi =>
    exact (H e he hload).of_sub id id id (fun _ => id) id id
  | @flush c i j hphase hretired hi hj =>
    by_cases hinc : c.includedInFlush e.inst = true
    · refine .of_not_at fun hat => ?_
      rw [(Inv.at_of_flush (Hs.between hphase).1 hat).2] at hinc
      cases hinc
    · refine (H e he hload).of_sub List.mem_of_mem_filter List.mem_of_mem_filter id
        (fun _ h => (Option.filter_eq_some_iff.mp h).1) id fun hst => ?_
      exact (Hs.flush_status he).trans ((if_neg hinc).trans hst)
  | setBits => exact H e he hload
  | clearBits _ => exact H e he hload
  | lookupInst _ _ => exact (H e he hload).of_sub id id id (fun _ => id) id id
  | @mmuReady ri rest w i hphase hreloads hready hi =>
    have hri := Hs.reloads ri (by rw [hreloads]; exact List.mem_cons_self)
    have Hp : Holding s.dispatched s.queue s.sb { s.work with mmuPending := some ri } s.table :=
      Hs.holding.setPending fun r hr => by
        rw [← Option.some.inj (Option.mem_def.mp hr)]
        exact hri
    have He : OnePass p { s.work with mmuPending := some ri } s.table (.complete ∈ s.done) e :=
      (H e he hload).of_sub id id id (fun _ => id) id id
    have Hw := He.moves Hs.keys (fun _ => Hs.mem_dispatched) he hload Hp
      (Hs.mmuReady_moves hreloads hready)
    exact Hw.of_sub id id id (fun _ => id) id id
  | @issueInst w ri j hcan hnow hissue hj =>
    have Hi := (H e he hload).issue Hr (issueInst_issued hissue)
    exact Hi.of_sub id id id (fun _ => id) (List.mem_append_left _) id
  | addressCalculation hcan hi =>
    exact (H e he hload).of_sub id id id (fun _ => id) (List.mem_append_left _) id
  | @complete out i hcan hout hi => exact onePass_complete Hs Hr he (H e he hload) hout
  | @callback n cb w T i hcb hdue hcheck hi =>
    obtain ⟨hknown, -, hwait⟩ := Hs.holding.waits cb (List.mem_of_getElem? hcb)
    have Hcb : Holding s.dispatched s.queue s.sb
        { s.work with callbacks := s.work.callbacks.eraseIdx n } s.table :=
      Hs.holding.setCallbacks fun _ => List.mem_of_mem_eraseIdx
    have He : OnePass p { s.work with callbacks := s.work.callbacks.eraseIdx n } s.table
        (.complete ∈ s.done) e :=
      (H e he hload).of_sub id id id (fun _ => id) id id
    refine He.check Hcb (fun _ hne hin => ?_) hcheck
    rcases hwait with hfl | ⟨-, hdisp | ⟨hsched, -⟩⟩
    · obtain ⟨r, hr, hkey⟩ := inQueue_iff.mp hin
      obtain rfl := eq_of_key Hs.keys (Hs.mem_dispatched hr) hknown hkey
      exact absurd hfl (Hs.holding.not_flushed hr)
    · exact hdisp
    · exact absurd hsched hne
  | @work op w T i hen hcallback hwork hi =>
    have hmoves : Relation.ReflTransGen
        (LsuMove p s.sb s.queue (OnePass.Alone p s.queue) OnePass.NotAppended
          (p.cacheReadStage = p.completeStage → .complete ∉ s.done)) (s.work, s.table) (w, T) := by
      refine Hs.work_moves hen hcallback ?_ ?_ ?_ hwork
      · rintro n ri rfl hri hflag hreplay
        exact hclean ri hri hflag hreplay
      · rintro n w₁ ri r rfl hri hstore hspec happ hr
        unfold OnePass.NotAppended
        rw [happ]
        exact hclean ri hri hstore hspec r hr
      · rintro rfl
        exact hclean
    have hevent : event op ≠ some .complete := by cases op <;> simp [event]
    have Hw := (H e he hload).moves Hs.keys (fun _ => Hs.mem_dispatched) he hload Hs.holding hmoves
    exact Hw.of_sub id id id (fun _ => id) (mem_done_append hevent).mpr id
  | tick hphase => exact H e he hload
  | nextCycle hover =>
    exact (H e he hload).advance.of_sub id id id (fun _ => id) (fun h => h.elim) id

/-! ## The history of the writebacks -/

/-- The instruction whose destination a step sets ready, and its status. -/
def writes (p : LsuParams) (s : LsuSystem) : LsuSystemOp → List (InstKey × InstStatus)
  | .complete => ((s.work.stages p.completeStage).filter fun ri =>
      (s.work.info ri.key).dataReady && !ri.inst.dests.isEmpty).toList.map fun ri =>
        (ri.key, s.table.status ri.key)
  | _ => []

/-- An instruction that has completed or been flushed. -/
def Finished (st : InstStatus) : Prop := st = .completed ∨ st = .retired ∨ st = .flushed

theorem finished_step (Hs : Inv s) (h : s.step p op = .ok s') {e : RenamedInst}
    (he : e ∈ s.dispatched) (hfin : Finished (s.table.status e.key)) :
    Finished (s'.table.status e.key) := by
  have hst := Hs.statusStep h he
  generalize s.table.status e.key = a at hst hfin
  generalize s'.table.status e.key = b at hst ⊢
  cases hst with
  | same => exact hfin
  | schedule => rcases hfin with h | h | h <;> cases h
  | complete _ => exact .inl rfl
  | retire => exact .inr (.inl rfl)
  | flush _ => exact .inr (.inr rfl)

/-- What is known of the history of the writebacks. -/
structure Wrote (p : LsuParams) (hist : List (InstKey × InstStatus)) (s : LsuSystem) : Prop where
  inv : Inv s
  issue : Issue p s
  passes : OnePasses p s
  stores : ∀ ri ∈ s.dispatched, ri.inst.isStore = true → ri.inst.dests = []
  nodup : (hist.map Prod.fst).Nodup
  known : ∀ x ∈ hist, ∃ ri ∈ s.dispatched, ri.key = x.1 ∧ Finished (s.table.status ri.key)
  scheduled : ∀ x ∈ hist, x.2 = .scheduled

theorem Wrote.init : Wrote p [] {} where
  inv := Inv.init
  issue := Issue.init
  passes _ h := by cases h
  stores _ h := by cases h
  nodup := List.nodup_nil
  known _ h := by cases h
  scheduled _ h := by cases h

/-- Only a load that completes in this step writes its destination. -/
theorem Wrote.writes {hist : List (InstKey × InstStatus)} (H : Wrote p hist s)
    (h : s.step p op = .ok s') {x : InstKey × InstStatus} (hx : x ∈ s.writes p op) :
    x.2 = .scheduled ∧ s.writes p op = [x] ∧
      ∃ ri ∈ s.dispatched, ri.key = x.1 ∧ s.table.status ri.key = .scheduled ∧
        Finished (s'.table.status ri.key) := by
  cases step_stepped h with
  | @complete out i hcan hout hi =>
    obtain ⟨ri, hri, rfl⟩ := List.mem_map.mp hx
    obtain ⟨hri, hcond⟩ := Option.filter_eq_some_iff.mp (Option.mem_toList.mp hri)
    simp only [Bool.and_eq_true, Bool.not_eq_true', List.isEmpty_eq_false_iff] at hcond
    obtain ⟨hdata, hdests⟩ := hcond
    have hmem := (H.inv.holding.present ri (.inr (.inr (.inr (.inl ⟨_, hri⟩))))).1
    have hload : ri.inst.isStore = false := by
      by_contra hstore
      exact hdests (H.stores ri hmem (by simpa using hstore))
    have hsched : s.table.status ri.key = .scheduled := by
      rcases (H.passes ri hmem hload).inPipeline _ le_rfl hri with hst | ⟨-, hdone⟩
      · exact hst
      · exact absurd hdone (of_decide_eq_true hcan).2
    refine ⟨hsched, ?_, ri, hmem, rfl, hsched, ?_⟩
    · simp [LsuSystem.writes, hri, Option.filter, hdata, hdests]
    · have hsame : ∀ {r}, s.lsu.work.stages p.completeStage = some r → r = ri := fun hr =>
        Option.some.inj (hr.symm.trans hri)
      have hno : ∀ {r}, s.lsu.work.stages p.completeStage = some r →
          r.inst.isStore = true → False := by
        intro r hr hstore
        rw [hsame hr, hload] at hstore
        cases hstore
      cases completeInst_cases hout with
      | idle hidle =>
        have hri : s.lsu.work.stages p.completeStage = some ri := hri
        have hdata : (s.lsu.work.info ri.key).dataReady = true := hdata
        simp [hasData, hri, hdata] at hidle
      | wait hr _ _ hstore _ => exact (hno hr hstore).elim
      | again hr _ _ hdone =>
        rcases hdone with ⟨-, hst | hst⟩ | ⟨hstore, -⟩
        · rw [hsame hr, hsched] at hst
          cases hst
        · rw [hsame hr, hsched] at hst
          cases hst
        · exact (hno hr hstore).elim
      | load hr _ _ _ _ _ _ =>
        rw [hsame hr]
        exact .inl (by simp [InstTable.setStatus])
      | store hr _ _ hstore _ _ _ => exact (hno hr hstore).elim
  | _ => cases hx

theorem Wrote.step {hist : List (InstKey × InstStatus)} (H : Wrote p hist s)
    (hclean : OneEntry p s op) (h : s.step p op = .ok s') : Wrote p (hist ++ s.writes p op) s' := by
  have hdispatched :
      ∀ ri ∈ s'.dispatched, ri ∈ s.dispatched ∨ ∃ stale, op = .dispatch ri stale := by
    intro ri hri
    cases step_stepped h with
    | @dispatch r stale _ _ _ _ _ _ _ =>
      rcases List.mem_append.mp hri with hri | hri
      · exact .inl hri
      · rw [List.mem_singleton.mp hri]
        exact .inr ⟨stale, rfl⟩
    | _ => exact .inl hri
  have hkept : ∀ ri ∈ s.dispatched, ri ∈ s'.dispatched := by
    intro ri hri
    cases step_stepped h with
    | dispatch _ _ _ _ => exact List.mem_append_left _ hri
    | _ => exact hri
  refine ⟨H.inv.step h, H.issue.step H.inv h, onePasses_step H.inv H.issue.ready H.passes hclean h,
    fun ri hri hstore => ?_, ?_, fun x hx => ?_, fun x hx => ?_⟩
  · rcases hdispatched ri hri with hri | ⟨stale, rfl⟩
    · exact H.stores ri hri hstore
    · exact hclean hstore
  · rw [List.map_append, List.nodup_append]
    refine ⟨H.nodup, ?_, ?_⟩
    · rcases hw : s.writes p op with _ | ⟨x, l⟩
      · exact List.nodup_nil
      · have heq := (H.writes h (x := x) (by rw [hw]; exact List.mem_cons_self)).2.1
        rw [hw] at heq
        rw [heq]
        exact List.nodup_singleton _
    · rintro k hk k' hk' rfl
      obtain ⟨x, hx, rfl⟩ := List.mem_map.mp hk
      obtain ⟨y, hy, hxy⟩ := List.mem_map.mp hk'
      obtain ⟨ri, -, hkey, hfin⟩ := H.known x hx
      obtain ⟨-, -, ri', -, hkey', hsched, -⟩ := H.writes h hy
      rw [hkey, ← hxy, ← hkey', hsched] at hfin
      rcases hfin with h | h | h <;> cases h
  · rcases List.mem_append.mp hx with hx | hx
    · obtain ⟨ri, hri, hkey, hfin⟩ := H.known x hx
      exact ⟨ri, hkept ri hri, hkey, finished_step H.inv h hri hfin⟩
    · obtain ⟨-, -, ri, hri, hkey, -, hfin⟩ := H.writes h hx
      exact ⟨ri, hkept ri hri, hkey, hfin⟩
  · rcases List.mem_append.mp hx with hx | hx
    · exact H.scheduled x hx
    · exact (H.writes h hx).1

/-- Each instruction writes its destination at most once, and not after it has completed, in every
run that puts no load into a second place. -/
theorem one_writeback {l : List LsuSystemOp} {hist : List (InstKey × InstStatus)}
    (hclean : ∀ t op, Run.Takes (step p) {} l t op → OneEntry p t op)
    (hrun : l.foldlM (Run.traced (step p) (writes p)) ([], {}) = .ok (hist, s)) :
    (hist.map Prod.fst).Nodup ∧
      ∀ x ∈ hist, x.2 ≠ .completed ∧ x.2 ≠ .retired ∧ x.2 ≠ .flushed := by
  have H : Wrote p hist s := by
    refine (Run.Visits.last hrun).invariant (I := fun hs => Wrote p hs.1 hs.2) Wrote.init ?_
    rintro op ⟨hist, s⟩ ⟨hist', s'⟩ H htakes hstep
    obtain ⟨hstep, rfl⟩ := Run.traced_eq_ok.mp hstep
    exact H.step (hclean s op htakes.of_traced) hstep
  refine ⟨H.nodup, fun x hx => ?_⟩
  rw [H.scheduled x hx]
  simp

/-! ## Two runs -/

/-- A load takes its data from the store behind it. -/
def forwardedLoadRun : List LsuSystemOp :=
  [.dispatch (sampleLoad 1 2 64) false, .dispatch (sampleStore 2 3 64 .integer 4) false, .tick,
    .issueInst, .nextCycle, .tick, .addressCalculation, .issueInst, .nextCycle, .tick,
    .addressCalculation, .work .mmuLookup, .work (.mmuAck 0 true), .nextCycle, .tick,
    .work .mmuLookup, .work (.mmuAck 0 true), .work .cacheLookup, .nextCycle, .tick,
    .work .cacheLookup, .work .cacheRead, .nextCycle, .tick, .complete]

theorem one_writeback_in_run : ∃ hist s,
    forwardedLoadRun.foldlM (Run.traced (step {}) (writes {})) ([], {}) = .ok (hist, s) ∧
      hist = [((1, 0), .scheduled)] ∧ (hist.map Prod.fst).Nodup := by
  obtain ⟨⟨hist, s⟩, hrun, heq⟩ := Run.ok_of_eval
    (x := forwardedLoadRun.foldlM (Run.traced (step {}) (writes {})) ([], {}))
    (f := Prod.fst) (b := [((1, 0), .scheduled)]) (by decide +kernel)
  refine ⟨hist, s, hrun, heq, (one_writeback (p := {}) (l := forwardedLoadRun) ?_ hrun).1⟩
  intro t op htakes
  have hall : Run.along (step {}) (fun _ op =>
      match op with
      | .dispatch ri _ => ri.inst.dests.isEmpty || !ri.inst.isStore
      | .work (.appendReady _) => false
      | _ => true) {} forwardedLoadRun = true := by decide +kernel
  have htest := Run.Takes.of_along hall htakes
  unfold OneEntry
  split
  · intro hstore
    simpa [hstore] using htest
  · cases htest
  · rintro ri - - hspec
    cases hspec
  · intro hstage
    cases hstage
  · trivial

/-- A load hits in the cache while it is in the pipeline, and goes back to the ready queue. -/
def secondPassRun : List LsuSystemOp :=
  [.dispatch (sampleLoad 1 2 64) false, .tick, .issueInst, .nextCycle, .tick,
    .addressCalculation, .nextCycle, .tick, .work .mmuLookup, .work (.mmuAck 0 true), .nextCycle,
    .tick, .work .cacheLookup, .work (.cacheAck 0 .hit), .work (.appendReady 0), .issueInst,
    .nextCycle, .tick, .addressCalculation, .work .cacheRead, .nextCycle, .tick, .work .mmuLookup,
    .complete, .nextCycle, .tick, .work .cacheLookup, .nextCycle, .tick, .work .cacheRead,
    .nextCycle, .tick, .complete]

/-- It writes its destination twice, the second time after it has completed. -/
theorem second_writeback : ∃ hist s,
    secondPassRun.foldlM (Run.traced (step {}) (writes {})) ([], {}) = .ok (hist, s) ∧
      ¬(hist.map Prod.fst).Nodup ∧ ∃ x ∈ hist, x.2 = .completed := by
  obtain ⟨⟨hist, s⟩, hrun, heq⟩ := Run.ok_of_eval
    (x := secondPassRun.foldlM (Run.traced (step {}) (writes {})) ([], {}))
    (f := Prod.fst) (b := [((1, 0), .scheduled), ((1, 0), .completed)]) (by decide +kernel)
  obtain rfl : hist = _ := heq
  exact ⟨_, s, hrun, by decide, ((1, 0), .completed), by simp, rfl⟩

end LsuSystem

end Olympia
