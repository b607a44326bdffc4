import Olympia.Lib.Latest
import Olympia.Execute.Units
import Olympia.Lsu.Held

/-!
# What the execution units hold

An instruction passes from Rename through Dispatch to a unit, is issued and executed.  `Place`
names the stations of that way, and a history of `Move`s says where each instruction is
(`placeAfter`).

`View` is what the units need to know of the rest of the core: which instructions they can have
been given, where each one is, which are still to be completed, and the scoreboards.  `View.Holds`
says that every unit holds only instructions that are there, that what waits in an issue queue or
has not been issued by the LSU is still to be completed, and that what is in a ready queue has
passed its check.  It is kept when the rest of the core moves on (`View.Holds.mono`), by a flush
that includes everything that is still to be completed (`View.Holds.flush`), by the arrival of an
instruction (`View.Holds.receive`) and by every handler of every unit (`View.Holds.step`).
-/

namespace Olympia

/-! ## Places -/

/-- Where an instruction is between Rename and the end of its execution. -/
inductive Place where
  | renamed
  /-- on the port from Dispatch to a unit -/
  | sent (d : UnitId)
  | waiting (d : UnitId)
  /-- in an execution pipe -/
  | working (e : PipeId)
  /-- its final pass is done -/
  | executed
  /-- it has been in the load/store pipeline -/
  | lsuIssued
  deriving DecidableEq

namespace Place

/-- The instruction has arrived at a unit. -/
def arrived : Place → Bool
  | renamed => false
  | sent _ => false
  | _ => true

/-- The unit may complete the instruction. -/
def done : Place → Bool
  | executed => true
  | lsuIssued => true
  | _ => false

end Place

/-- An instruction reaches a place. -/
structure Move where
  inst : RenamedInst
  place : Place

def Move.key (m : Move) : InstKey := m.inst.key

/-- Where an instruction is; one that has not been renamed is nowhere. -/
def placeAfter (hist : List Move) (k : InstKey) : Option Place :=
  (Log.latest (fun m => decide (m.key = k)) hist).map Move.place

theorem placeAfter_eq_none {hist : List Move} {k : InstKey} :
    placeAfter hist k = none ↔ ∀ m ∈ hist, m.key ≠ k := by
  unfold placeAfter
  rw [Option.map_eq_none_iff, Log.latest_eq_none]
  simp

theorem mem_of_placeAfter {hist : List Move} {k : InstKey} {pl : Place}
    (h : placeAfter hist k = some pl) : ∃ ri, ⟨ri, pl⟩ ∈ hist ∧ ri.key = k := by
  obtain ⟨m, hm, rfl⟩ := Option.map_eq_some_iff.mp h
  have hkey : m.key = k := by simpa using Log.of_latest hm
  exact ⟨m.inst, Log.mem_of_latest hm, hkey⟩

/-- The places after some moves of distinct instructions. -/
structure Moved (moves : List Move) (place place' : InstKey → Option Place) : Prop where
  moved : ∀ m ∈ moves, place' m.key = some m.place
  stays : ∀ k, (∀ m ∈ moves, m.key ≠ k) → place' k = place k

theorem Moved.nil (place : InstKey → Option Place) : Moved [] place place :=
  ⟨by simp, fun _ _ => rfl⟩

theorem moved_placeAfter (hist : List Move) {moves : List Move}
    (hnodup : (moves.map Move.key).Nodup) :
    Moved moves (placeAfter hist) (placeAfter (hist ++ moves)) := by
  constructor
  · intro m hm
    unfold placeAfter
    rw [Log.latest_append_of_unique hm (by simp)]
    · rfl
    · intro m' hm' hkey
      exact List.inj_on_of_nodup_map hnodup hm' hm (by simpa using hkey)
  · intro k hk
    unfold placeAfter
    rw [Log.latest_append_of_forall]
    intro m hm
    simpa using hk m hm

/-! ## Bits that stay set -/

/-- From `sb` to `sb'`, no bit that the instruction reads has been cleared. -/
def Scoreboards.Keeps (sb sb' : Scoreboards) (ri : RenamedInst) : Prop :=
  ∀ f q, q ∈ ri.srcMask f ∨ q ∈ ri.dataMask f → sb f q = true → sb' f q = true

theorem Scoreboard.isSet_iff {sb : Scoreboard} {mask : RegisterBitMask} :
    sb.isSet mask = true ↔ ∀ q ∈ mask, sb q = true := by
  simp [Scoreboard.isSet]

theorem IssueQueue.filesNotReady_eq_nil {sb : Scoreboards} {ri : RenamedInst} :
    filesNotReady sb ri = [] ↔
      ∀ f, ri.getSourceList f ≠ [] → ∀ q ∈ ri.srcMask f, sb f q = true := by
  unfold filesNotReady
  rw [List.filter_eq_nil_iff]
  constructor
  · intro h f hsrc
    have hf := h f f.mem_all
    simp only [Bool.and_eq_true, not_and] at hf
    have hset := hf (by simpa using hsrc)
    exact Scoreboard.isSet_iff.mp (by simpa using hset)
  · intro h f _ hcond
    simp only [Bool.and_eq_true] at hcond
    have hset := Scoreboard.isSet_iff.mpr (h f (by simpa using hcond.1))
    simp [hset] at hcond

theorem Scoreboards.Keeps.filesNotReady {sb sb' : Scoreboards} {ri : RenamedInst}
    (h : sb.Keeps sb' ri) (hready : IssueQueue.filesNotReady sb ri = []) :
    IssueQueue.filesNotReady sb' ri = [] := by
  rw [IssueQueue.filesNotReady_eq_nil] at hready ⊢
  intro f hsrc q hq
  exact h f q (.inl hq) (hready f hsrc q hq)

theorem Lsu.dataNotReady_eq_nil {sb : Scoreboards} {ri : RenamedInst} :
    dataNotReady sb ri = [] ↔
      (ri.dataReg.any fun r => r.opInfo.isX0) = true ∨
        ∀ f, ∀ q ∈ ri.dataMask f, sb f q = true := by
  unfold dataNotReady
  split
  · rename_i hx0
    exact ⟨fun _ => .inl hx0, fun _ => rfl⟩
  · rename_i hx0
    rw [List.filter_eq_nil_iff]
    constructor
    · intro h
      refine .inr fun f => ?_
      have hf := h f f.mem_all
      exact Scoreboard.isSet_iff.mp (by simpa using hf)
    · rintro (h | h) f -
      · exact absurd h hx0
      · simp [Scoreboard.isSet_iff.mpr (h f)]

theorem Scoreboards.Keeps.checked {sb sb' : Scoreboards} {ri : RenamedInst}
    (h : sb.Keeps sb' ri) (hready : Lsu.Checked sb ri) : Lsu.Checked sb' ri := by
  obtain ⟨haddr, hdata⟩ := hready
  refine ⟨Scoreboard.isSet_iff.mpr fun q hq => ?_, fun hstore => ?_⟩
  · exact h .integer q (.inl hq) (Scoreboard.isSet_iff.mp haddr q hq)
  · rcases Lsu.dataNotReady_eq_nil.mp (hdata hstore) with hx0 | hset
    · exact Lsu.dataNotReady_eq_nil.mpr (.inl hx0)
    · refine Lsu.dataNotReady_eq_nil.mpr (.inr fun f q hq => ?_)
      exact h f q (.inr hq) (hset f q hq)

/-! ## The view of the units -/

/-- What the units need to know of the rest of the core. -/
structure View where
  /-- the instruction has been renamed, and the unit serves its target pipe -/
  known : UnitId → RenamedInst → Prop
  place : InstKey → Option Place
  /-- the instruction is in the reorder buffer, or on its way there, and not completed -/
  live : RenamedInst → Prop
  sb : Scoreboards

namespace View

def arrived (v : View) (k : InstKey) : Prop := (v.place k).any Place.arrived = true

theorem arrived_of_place {v : View} {k : InstKey} {pl : Place} (h : v.place k = some pl)
    (hpl : pl.arrived = true) : v.arrived k := by
  unfold arrived
  rw [h]
  exact hpl

/-- An instruction has one identity, whichever unit knows it. -/
def Unique (v : View) : Prop :=
  ∀ d d' ri rj, v.known d ri → v.known d' rj → ri.key = rj.key → ri = rj

structure HoldsQueue (v : View) (n : ℕ) (s : IssueQueueState) : Prop where
  queue : ∀ ri ∈ s.issueQueue,
    v.known (.iq n) ri ∧ v.place ri.key = some (.waiting (.iq n)) ∧ v.live ri
  nodup : (s.issueQueue.map RenamedInst.key).Nodup
  ready : ∀ ri ∈ s.readyQueue, v.known (.iq n) ri ∧ v.arrived ri.key ∧
    (ri ∈ s.issueQueue → IssueQueue.filesNotReady v.sb ri = [])
  callbacks : ∀ cb ∈ s.callbacks, v.known (.iq n) cb.2 ∧ v.arrived cb.2.key

structure HoldsPipe (v : View) (e : PipeId) (s : ExecutePipeState) : Prop where
  single : ExecutePipe.Single s
  working : ∀ ri ∈ ExecutePipe.working s,
    (∃ n, v.known (.iq n) ri) ∧ v.place ri.key = some (.working e) ∧ v.live ri
  completing : ∀ ri ∈ s.completeInst,
    (∃ n, v.known (.iq n) ri) ∧ v.place ri.key = some .executed

/-- The LSU has issued the instruction. -/
def lsuIssued (v : View) (ri : RenamedInst) : Prop :=
  v.known .lsu ri ∧ v.place ri.key = some .lsuIssued

/-- The LSU has the instruction and has not issued it. -/
def lsuWaiting (v : View) (ri : RenamedInst) : Prop :=
  v.known .lsu ri ∧ v.place ri.key = some (.waiting .lsu) ∧ v.live ri

/-- The LSU may issue the instruction, again or because it has passed the check. -/
def lsuReady (v : View) (ri : RenamedInst) : Prop :=
  v.lsuIssued ri ∨ (v.lsuWaiting ri ∧ Lsu.Checked v.sb ri)

structure HoldsLsu (v : View) (s : LsuState) : Prop where
  queue : ∀ ri ∈ s.ldstInstQueue, v.lsuIssued ri ∨ v.lsuWaiting ri
  work : s.work.Holds (v.known .lsu) v.lsuReady v.lsuIssued

structure Holds (v : View) (u : Units) : Prop where
  iqs : ∀ n, v.HoldsQueue n (u.iqs n)
  pipes : ∀ e, v.HoldsPipe e (u.pipes e)
  lsu : v.HoldsLsu u.lsu

theorem holds_init (v : View) : v.Holds {} where
  iqs n := ⟨by simp, by simp, by simp, by simp⟩
  pipes e := ⟨⟨by simp [ExecutePipe.working], fun _ => rfl⟩, by simp [ExecutePipe.working], by simp⟩
  lsu := ⟨by simp, .init _ _ _⟩

/-! ## When the rest of the core moves on -/

/-- The view has changed from `v` to `v'`, but not for instructions at the places in `S`. -/
structure Follows (v v' : View) (S : Place → Prop) : Prop where
  known : ∀ d ri, v.known d ri → v'.known d ri
  arrived : ∀ k, v.arrived k → v'.arrived k
  place : ∀ k pl, S pl → v.place k = some pl → v'.place k = some pl
  live : ∀ ri pl, S pl → pl.done = false → v.place ri.key = some pl → v.live ri → v'.live ri
  keeps : ∀ ri, v.live ri → v.sb.Keeps v'.sb ri

theorem Follows.mono {v v' : View} {S S' : Place → Prop} (h : v.Follows v' S)
    (hS : ∀ pl, S' pl → S pl) : v.Follows v' S' where
  known := h.known
  arrived := h.arrived
  place k pl hpl := h.place k pl (hS pl hpl)
  live ri pl hpl := h.live ri pl (hS pl hpl)
  keeps := h.keeps

section Mono

variable {v v' : View} {n : ℕ} {e : PipeId}

theorem HoldsQueue.mono {s : IssueQueueState} (H : v.HoldsQueue n s)
    (h : v.Follows v' (· = .waiting (.iq n))) : v'.HoldsQueue n s where
  queue ri hri := by
    obtain ⟨hknown, hplace, hlive⟩ := H.queue ri hri
    exact ⟨h.known _ _ hknown, h.place _ _ rfl hplace, h.live _ _ rfl rfl hplace hlive⟩
  nodup := H.nodup
  ready ri hri := by
    obtain ⟨hknown, harr, hready⟩ := H.ready ri hri
    refine ⟨h.known _ _ hknown, h.arrived _ harr, fun hq => ?_⟩
    exact (h.keeps ri (H.queue ri hq).2.2).filesNotReady (hready hq)
  callbacks cb hcb := by
    obtain ⟨hknown, harr⟩ := H.callbacks cb hcb
    exact ⟨h.known _ _ hknown, h.arrived _ harr⟩

theorem HoldsPipe.mono {s : ExecutePipeState} (H : v.HoldsPipe e s)
    (h : v.Follows v' fun pl => pl = .working e ∨ pl = .executed) : v'.HoldsPipe e s where
  single := H.single
  working ri hri := by
    obtain ⟨⟨n, hknown⟩, hplace, hlive⟩ := H.working ri hri
    exact ⟨⟨n, h.known _ _ hknown⟩, h.place _ _ (.inl rfl) hplace,
      h.live _ _ (.inl rfl) rfl hplace hlive⟩
  completing ri hri := by
    obtain ⟨⟨n, hknown⟩, hplace⟩ := H.completing ri hri
    exact ⟨⟨n, h.known _ _ hknown⟩, h.place _ _ (.inr rfl) hplace⟩

section Lsu

variable (h : v.Follows v' fun pl => pl = .waiting .lsu ∨ pl = .lsuIssued) {ri : RenamedInst}
include h

theorem Follows.lsuIssued (hri : v.lsuIssued ri) : v'.lsuIssued ri :=
  ⟨h.known _ _ hri.1, h.place _ _ (.inr rfl) hri.2⟩

theorem Follows.lsuWaiting (hri : v.lsuWaiting ri) : v'.lsuWaiting ri := by
  obtain ⟨hknown, hplace, hlive⟩ := hri
  exact ⟨h.known _ _ hknown, h.place _ _ (.inl rfl) hplace,
    h.live _ _ (.inl rfl) rfl hplace hlive⟩

theorem Follows.lsuReady (hri : v.lsuReady ri) : v'.lsuReady ri := by
  rcases hri with hri | ⟨hri, hchecked⟩
  · exact .inl (h.lsuIssued hri)
  · exact .inr ⟨h.lsuWaiting hri, (h.keeps ri hri.2.2).checked hchecked⟩

theorem HoldsLsu.mono {s : LsuState} (H : v.HoldsLsu s) : v'.HoldsLsu s where
  queue ri hri := (H.queue ri hri).imp h.lsuIssued h.lsuWaiting
  work := H.work.mono (h.known .lsu) (fun _ => h.lsuReady) fun _ => h.lsuIssued

end Lsu

/-- What the units hold does not change when their view moves on elsewhere. -/
theorem Holds.mono {u : Units} (H : v.Holds u) (h : v.Follows v' fun pl => pl.arrived = true) :
    v'.Holds u where
  iqs n := (H.iqs n).mono (h.mono (by rintro _ rfl; rfl))
  pipes e := (H.pipes e).mono (h.mono (by rintro _ (rfl | rfl) <;> rfl))
  lsu := (H.lsu).mono (h.mono (by rintro _ (rfl | rfl) <;> rfl))

end Mono

/-! ## Flushes -/

section Flush

variable {v v' : View} {c : FlushingCriteria}

/-- After a flush that includes everything that is still to be completed, only what has been
issued is left in the units. -/
theorem Holds.flush {u : Units} (H : v.Holds u) (hknown : v'.known = v.known)
    (hplace : v'.place = v.place) (hcov : ∀ ri, v.live ri → c.includedInFlush ri.inst = true) :
    v'.Holds (u.flush c) := by
  have harr : ∀ k, v.arrived k → v'.arrived k := by
    intro k hk
    unfold arrived
    rw [hplace]
    exact hk
  have hissued : ∀ ri, v.lsuIssued ri → v'.lsuIssued ri := by
    intro ri hri
    unfold View.lsuIssued
    rw [hknown, hplace]
    exact hri
  refine ⟨fun n => ?_, fun e => ?_, ?_⟩
  · have hnil : (IssueQueue.flushInst (u.iqs n) c).1.issueQueue = [] := by
      refine List.filter_eq_nil_iff.mpr fun ri hri => ?_
      simp [hcov ri ((H.iqs n).queue ri hri).2.2]
    refine ⟨by simp [Units.flush, hnil], by simp [Units.flush, hnil], fun ri hri => ?_,
      fun cb hcb => ?_⟩
    · obtain ⟨hk, ha, -⟩ := (H.iqs n).ready ri (List.mem_of_mem_filter hri)
      refine ⟨by rw [hknown]; exact hk, harr _ ha, fun hq => ?_⟩
      simp [Units.flush, hnil] at hq
    · obtain ⟨hk, ha⟩ := (H.iqs n).callbacks cb (List.mem_of_mem_filter hcb)
      exact ⟨by rw [hknown]; exact hk, harr _ ha⟩
  · obtain ⟨hsingle, hworking, hcompleting⟩ := ExecutePipe.flushInst_spec (H.pipes e).single c
    refine ⟨hsingle, fun ri hri => ?_, fun ri hri => ?_⟩
    · obtain ⟨hri, hkeep⟩ := hworking ri hri
      rw [hcov ri ((H.pipes e).working ri hri).2.2] at hkeep
      cases hkeep
    · rw [hknown, hplace]
      exact (H.pipes e).completing ri (hcompleting ri hri)
  · obtain ⟨hqueue, hwork⟩ := Lsu.handleFlush_holds H.lsu.work c
    refine ⟨fun ri hri => ?_, hwork.mono (fun ri hri => by rw [hknown]; exact hri)
      (fun ri hri => ?_) hissued⟩
    · obtain ⟨hri, hkeep⟩ := hqueue ri hri
      rcases H.lsu.queue ri hri with hri | hri
      · exact .inl (hissued ri hri)
      · rw [hcov ri hri.2.2] at hkeep
        cases hkeep
    · obtain ⟨hri | ⟨hri, -⟩, hkeep⟩ := hri
      · exact .inl (hissued ri hri)
      · rw [hcov ri hri.2.2] at hkeep
        cases hkeep

end Flush

/-! ## Arrivals -/

section Receive

variable {v : View} {n : ℕ} {ri : RenamedInst}

theorem HoldsQueue.handleOperandIssueCheck {p : IssueQueueParams} {s : IssueQueueState}
    (H : v.HoldsQueue n s) (hri : v.known (.iq n) ri) (harr : v.arrived ri.key) :
    v.HoldsQueue n (IssueQueue.handleOperandIssueCheck p v.sb s ri) := by
  unfold IssueQueue.handleOperandIssueCheck
  split
  · rename_i hready
    refine { H with ready := fun r hr => ?_ }
    have hmem : r ∈ s.readyQueue ∨ r = ri := by
      unfold IssueQueue.insertReady at hr
      split at hr
      · simpa using hr
      · rcases List.mem_append.mp hr with hr | hr
        · exact .inl ((List.takeWhile_sublist _).subset hr)
        · rcases List.mem_cons.mp hr with hr | hr
          · exact .inr hr
          · exact .inl ((List.dropWhile_sublist _).subset hr)
    rcases hmem with hr | rfl
    · exact H.ready r hr
    · exact ⟨hri, harr, fun _ => hready⟩
  · refine { H with callbacks := fun cb hcb => ?_ }
    rcases List.mem_append.mp hcb with hcb | hcb
    · exact H.callbacks cb hcb
    · obtain ⟨f, -, rfl⟩ := List.mem_map.mp hcb
      exact ⟨hri, harr⟩

/-- An instruction that was on its way arrives: `v'` is the view after its move. -/
theorem Holds.receive {p : UnitsParams} {v' : View} {u u' : Units} {T T' : InstTable}
    {d : UnitId} (H : v.Holds u) (hsent : v.place ri.key = some (.sent d))
    (hmoved : Moved [⟨ri, .waiting d⟩] v.place v'.place) (hknown : v'.known = v.known)
    (hlive : v'.live = v.live) (hsb : v'.sb = v.sb) (hri : v.known d ri) (hriLive : v.live ri)
    (h : u.receive p T v.sb d ri = .ok (u', T')) :
    v'.Holds u' ∧ T.Progress v.lsuIssued T' := by
  have hthere : v'.place ri.key = some (.waiting d) := hmoved.moved _ List.mem_cons_self
  have hstay : ∀ k pl, pl.arrived = true → v.place k = some pl → v'.place k = some pl := by
    intro k pl hpl hk
    rw [← hk]
    refine hmoved.stays k fun m hm heq => ?_
    obtain rfl := List.mem_singleton.mp hm
    have heq' : ri.key = k := heq
    rw [← heq', hsent] at hk
    obtain rfl := Option.some.inj hk
    cases hpl
  have hnew : ¬v.arrived ri.key := by
    unfold arrived
    rw [hsent]
    exact Bool.false_ne_true
  have H' : v'.Holds u := by
    refine H.mono ⟨fun d ri hri => by rw [hknown]; exact hri, fun k hk => ?_, hstay,
      fun ri _ _ _ _ hri => by rw [hlive]; exact hri,
      fun ri _ => by rw [hsb]; exact fun _ _ _ h => h⟩
    obtain ⟨pl, hpl, harr⟩ := (Option.any_eq_true _ _).mp hk
    exact arrived_of_place (hstay k pl harr hpl) harr
  cases Units.receive_received h with
  | @iq n =>
    have hfresh : ∀ e ∈ (u.iqs n).issueQueue, e.key ≠ ri.key := by
      intro e he heq
      rw [← heq] at hnew
      exact hnew (arrived_of_place ((H.iqs n).queue e he).2.1 rfl)
    have hqueue : v'.HoldsQueue n
        { u.iqs n with issueQueue := (u.iqs n).issueQueue ++ [ri] } := by
      refine { H'.iqs n with queue := fun e he => ?_, nodup := ?_, ready := fun e he => ?_ }
      · rcases List.mem_append.mp he with he | he
        · exact (H'.iqs n).queue e he
        · rw [List.mem_singleton.mp he, hknown, hlive]
          exact ⟨hri, hthere, hriLive⟩
      · rw [List.map_append, List.nodup_append]
        refine ⟨(H.iqs n).nodup, by simp, ?_⟩
        rintro a ha b hb rfl
        obtain ⟨e, he, rfl⟩ := List.mem_map.mp ha
        exact hfresh e he (by simpa using hb)
      · obtain ⟨hk, ha, hready⟩ := (H'.iqs n).ready e he
        refine ⟨hk, ha, fun hq => ?_⟩
        rcases List.mem_append.mp hq with hq | hq
        · exact hready hq
        · rw [List.mem_singleton.mp hq] at he
          exact absurd ((H.iqs n).ready ri he).2.1 hnew
    have hknown' : v'.known (.iq n) ri := by
      rw [hknown]
      exact hri
    have hchecked := hqueue.handleOperandIssueCheck (p := p.iq n) hknown'
      (arrived_of_place hthere rfl)
    rw [hsb] at hchecked
    refine ⟨⟨fun m => ?_, H'.pipes, H'.lsu⟩, .refl _ T⟩
    by_cases hm : m = n
    · subst hm
      simpa using hchecked
    · simpa [hm] using H'.iqs m
  | lsu hlsu =>
    have hwaiting : v'.lsuWaiting ri := by
      unfold lsuWaiting
      rw [hknown, hlive]
      exact ⟨hri, hthere, hriLive⟩
    obtain ⟨hq, hwork, hT⟩ := Lsu.getInstsFromDispatch_holds H'.lsu.work hwaiting.1
      (fun hchecked => .inr ⟨hwaiting, by rw [hsb]; exact hchecked⟩) hlsu
    refine ⟨⟨H'.iqs, H'.pipes, ⟨fun e he => ?_, hwork⟩⟩, hT.mono fun e he => ?_⟩
    · have he' : e ∈ u.lsu.ldstInstQueue ++ [ri] := by
        rw [← hq]
        exact he
      rcases List.mem_append.mp he' with he | he
      · exact H'.lsu.queue e he
      · rw [List.mem_singleton.mp he]
        exact .inr hwaiting
    · obtain ⟨hk, hpl⟩ := he
      refine ⟨by rw [← hknown]; exact hk, ?_⟩
      by_cases hkey : ri.key = e.key
      · rw [← hkey, hthere] at hpl
        cases hpl
      · rw [← hpl]
        refine (hmoved.stays _ fun m hm heq => ?_).symm
        obtain rfl := List.mem_singleton.mp hm
        exact hkey heq

end Receive

/-- The ROB acknowledges a store, which the LSU has issued long before. -/
theorem HoldsLsu.getAckFromROB {v : View} {s s' : LsuState} {T : InstTable} {ri : RenamedInst}
    (H : v.HoldsLsu s) (hsame : ∀ e, v.known .lsu e → e.key = ri.key → e = ri)
    (hlive : v.live ri → T.status ri.key ≠ .retired)
    (h : Lsu.getAckFromROB s T ri = .ok s') : v.HoldsLsu s' := by
  obtain ⟨hq, hwork⟩ := Lsu.getAckFromROB_holds H.work h fun hret hin => by
    obtain ⟨e, he, hkey⟩ := List.any_eq_true.mp hin
    rcases H.queue e he with hissued | hwaiting
    · rw [← hsame e hissued.1 (by simpa using hkey)]
      exact hissued
    · obtain rfl := hsame e hwaiting.1 (by simpa using hkey)
      exact absurd hret (hlive hwaiting.2.2)
  exact ⟨by rw [hq]; exact H.queue, hwork⟩

/-! ## Handlers -/

/-- The view after some moves, when the scoreboards have become `sb`. -/
structure After (v : View) (moves : List Move) (sb : Scoreboards) (v' : View) : Prop where
  known : v'.known = v.known
  moved : Moved moves v.place v'.place
  live : ∀ ri, v.live ri → (∀ pl, v'.place ri.key = some pl → pl.done = false) → v'.live ri
  sb : v'.sb = sb

theorem After.follows {v v' : View} {moves : List Move} {sb : Scoreboards} {S : Place → Prop}
    (h : v.After moves sb v') (hsb : ∀ f q, v.sb f q = true → sb f q = true)
    (harr : ∀ m ∈ moves, m.place.arrived = true)
    (hS : ∀ m ∈ moves, ∀ pl, S pl → v.place m.key ≠ some pl) : v.Follows v' S := by
  have hstay : ∀ k pl, S pl → v.place k = some pl → v'.place k = some pl := by
    intro k pl hpl hk
    rw [← hk]
    refine h.moved.stays k fun m hm heq => hS m hm pl hpl ?_
    rw [heq]
    exact hk
  refine ⟨fun d ri hri => by rw [h.known]; exact hri, fun k hk => ?_, hstay, ?_,
    fun ri _ f q _ hq => by rw [h.sb]; exact hsb f q hq⟩
  · by_cases hmove : ∃ m ∈ moves, m.key = k
    · obtain ⟨m, hm, rfl⟩ := hmove
      exact arrived_of_place (h.moved.moved m hm) (harr m hm)
    · unfold arrived
      rw [h.moved.stays k fun m hm heq => hmove ⟨m, hm, heq⟩]
      exact hk
  · intro ri pl hpl hdone hplace hlive
    refine h.live ri hlive fun pl' hpl' => ?_
    rw [hstay _ pl hpl hplace] at hpl'
    obtain rfl := Option.some.inj hpl'
    exact hdone

end View

/-- The moves of a handler of the units. -/
def UnitsOut.moves (out : UnitsOut) : List Move :=
  out.issued.map (fun x => ⟨x.2, .working x.1⟩) ++
    out.executed.toList.map (fun ri => ⟨ri, .executed⟩) ++
    out.lsuIssued.toList.map (fun ri => ⟨ri, .lsuIssued⟩)

namespace View

/-- The instructions a handler may complete, or find mispredicted. -/
def completes (v : View) (out : UnitsOut) (ri : RenamedInst) : Prop :=
  (∃ d, v.known d ri) ∧
    ((∃ pl, v.place ri.key = some pl ∧ pl.done = true) ∨ ⟨ri, .executed⟩ ∈ out.moves)

/-- What a handler of the units has done. -/
structure StepSpec (v : View) (T : InstTable) (out : UnitsOut) : Prop where
  nodup : (out.moves.map Move.key).Nodup
  moves : ∀ m ∈ out.moves,
    m.place.arrived = true ∧ v.arrived m.key ∧ ∃ d, v.known d m.inst
  undone : ∀ m ∈ out.moves, m.place.done = false →
    ∀ pl, v.place m.key = some pl → pl.done = false
  unexecuted : ∀ m ∈ out.moves, v.place m.key ≠ some .executed
  table : T.Progress (v.completes out) out.table
  issued : ∀ x ∈ out.issued, ∃ n, v.known (.iq n) x.2 ∧ IssueQueue.filesNotReady v.sb x.2 = []
  lsuIssued : ∀ ri ∈ out.lsuIssued, v.lsuReady ri
  scoreboards : (out.executed = none ∧ (out.scoreboards = v.sb ∨
      ∃ ri, v.known .lsu ri ∧ Lsu.writeback v.sb ri = .ok out.scoreboards)) ∨
    ∃ ri, out.executed = some ri ∧ out.moves = [⟨ri, .executed⟩] ∧
      (∃ n, v.known (.iq n) ri) ∧ v.live ri ∧
      out.scoreboards = ExecutePipe.writeback v.sb ri
  next : ∀ v', v.After out.moves out.scoreboards v' → v'.Holds out.units

section Step

variable {v : View} {u : Units} {T : InstTable}

/-- A handler that moves nothing and leaves the scoreboards alone. -/
theorem StepSpec.of_still {u' : Units} {T' : InstTable} {credits : List (UnitId × ℕ)}
    (hT : T.Progress (fun ri => (∃ d, v.known d ri) ∧
      ∃ pl, v.place ri.key = some pl ∧ pl.done = true) T') (H : v.Holds u') :
    v.StepSpec T { units := u', table := T', scoreboards := v.sb, credits := credits } where
  nodup := by simp [UnitsOut.moves]
  moves := by simp [UnitsOut.moves]
  undone := by simp [UnitsOut.moves]
  unexecuted := by simp [UnitsOut.moves]
  table := hT.mono fun ri hri => ⟨hri.1, .inl hri.2⟩
  issued := by simp
  lsuIssued := by simp
  scoreboards := .inl ⟨rfl, .inl rfl⟩
  next v' hv' := H.mono (hv'.follows (fun _ _ h => h) (by simp [UnitsOut.moves])
    (by simp [UnitsOut.moves]))

theorem Holds.setQueue {n : ℕ} {iq : IssueQueueState} (H : v.Holds u) (hiq : v.HoldsQueue n iq) :
    v.Holds { u with iqs := Function.update u.iqs n iq } := by
  refine ⟨fun m => ?_, H.pipes, H.lsu⟩
  by_cases hm : m = n
  · subst hm
    simpa using hiq
  · simpa [hm] using H.iqs m

theorem Holds.setPipe {e : PipeId} {pipe : ExecutePipeState} (H : v.Holds u)
    (hpipe : v.HoldsPipe e pipe) :
    v.Holds { u with pipes := Function.update u.pipes e pipe } := by
  refine ⟨H.iqs, fun e' => ?_, H.lsu⟩
  by_cases he : e' = e
  · subst he
    simpa using hpipe
  · simpa [he] using H.pipes e'

theorem HoldsQueue.readyCallback {p : IssueQueueParams} {n i : ℕ} {s s' : IssueQueueState}
    (H : v.HoldsQueue n s) (h : IssueQueue.readyCallback p v.sb s i = some s') :
    v.HoldsQueue n s' := by
  unfold IssueQueue.readyCallback at h
  split at h
  · cases h
  · rename_i f ri hcb
    split at h
    · obtain rfl := Option.some.inj h
      obtain ⟨hknown, harr⟩ := H.callbacks (f, ri) (List.mem_of_getElem? hcb)
      refine HoldsQueue.handleOperandIssueCheck { H with callbacks := fun cb hcb => ?_ } hknown harr
      exact H.callbacks cb (List.mem_of_mem_eraseIdx hcb)
    · cases h

/-! ### Issue -/

theorem StepSpec.sendReadyInsts {p : UnitsParams} {n : ℕ} {iq : IssueQueueState}
    {st : IssueQueue.SendState} {credits : List (UnitId × ℕ)} (hunique : v.Unique) (H : v.Holds u)
    (h : IssueQueue.sendReadyInsts (p.iq n) p.pipe (u.iqs n) u.pipes T = .ok (iq, st)) :
    v.StepSpec T {
      units := { u with iqs := Function.update u.iqs n iq, pipes := st.pipes }
      table := st.table
      scoreboards := v.sb
      credits := credits
      issued := st.issued } := by
  obtain ⟨D, rfl⟩ := IssueQueue.sendReadyInsts_spec (fun e => (H.pipes e).single)
    (fun ri hri e he => hunique _ _ _ _ ((H.iqs n).queue e he).1 ((H.iqs n).ready ri hri).1) h
  have hqueued : ∀ x ∈ st.issued, x.2 ∈ (u.iqs n).issueQueue := fun x hx =>
    D.queue.mem_iff.mp (List.mem_append_left _ (List.mem_map_of_mem hx))
  have hstayed : ∀ ri ∈ st.issueQueue, ri ∈ (u.iqs n).issueQueue := fun ri hri =>
    D.queue.mem_iff.mp (List.mem_append_right _ hri)
  have hnodup : ((st.issued.map Prod.snd ++ st.issueQueue).map RenamedInst.key).Nodup :=
    (D.queue.map RenamedInst.key).nodup_iff.mpr (H.iqs n).nodup
  rw [List.map_append, List.nodup_append] at hnodup
  obtain ⟨hissued, hrest, hdisjoint⟩ := hnodup
  have hready : ∀ x ∈ st.issued, IssueQueue.filesNotReady v.sb x.2 = [] := fun x hx =>
    ((H.iqs n).ready x.2 (D.issued x hx)).2.2 (hqueued x hx)
  have hmove : ∀ m : Move, m ∈ st.issued.map (fun x => (⟨x.2, .working x.1⟩ : Move)) →
      ∃ x ∈ st.issued, m = ⟨x.2, .working x.1⟩ := by
    intro m hm
    obtain ⟨x, hx, rfl⟩ := List.mem_map.mp hm
    exact ⟨x, hx, rfl⟩
  refine ⟨?_, ?_, ?_, ?_, ?_, ?_, by simp, .inl ⟨rfl, .inl rfl⟩, ?_⟩
  all_goals simp only [UnitsOut.moves, Option.toList_none, List.map_nil, List.append_nil]
  · rw [List.map_map] at hissued ⊢
    exact hissued
  · intro m hm
    obtain ⟨x, hx, rfl⟩ := hmove m hm
    obtain ⟨hknown, hplace, -⟩ := (H.iqs n).queue x.2 (hqueued x hx)
    exact ⟨rfl, arrived_of_place hplace rfl, _, hknown⟩
  · intro m hm _ pl hpl
    obtain ⟨x, hx, rfl⟩ := hmove m hm
    obtain rfl := Option.some.inj (((H.iqs n).queue x.2 (hqueued x hx)).2.1.symm.trans hpl)
    rfl
  · intro m hm hpl
    obtain ⟨x, hx, rfl⟩ := hmove m hm
    cases ((H.iqs n).queue x.2 (hqueued x hx)).2.1.symm.trans hpl
  · exact D.table _
  · intro x hx
    exact ⟨n, ((H.iqs n).queue x.2 (hqueued x hx)).1, hready x hx⟩
  · intro v' hv'
    -- what moves has been waiting in this queue, so nothing changes elsewhere
    have hfollows : ∀ S : Place → Prop, ¬S (.waiting (.iq n)) → v.Follows v' S := by
      intro S hS
      refine hv'.follows (fun _ _ h => h) (fun m hm => ?_) fun m hm pl hpl hplace => ?_
      · obtain ⟨x, hx, rfl⟩ := hmove m hm
        rfl
      · obtain ⟨x, hx, rfl⟩ := hmove m hm
        have hwait := ((H.iqs n).queue x.2 (hqueued x hx)).2.1
        obtain rfl := Option.some.inj (hwait.symm.trans hplace)
        exact hS hpl
    have hkeep : ∀ ri, v.live ri → v.sb.Keeps v'.sb ri := (hfollows (fun _ => False) id).keeps
    refine ⟨fun m => ?_, fun e => ?_, H.lsu.mono (hfollows _ (by simp))⟩
    · by_cases hm : m = n
      · subst hm
        simp only [Function.update_self]
        have harr := (hfollows (fun _ => False) id).arrived
        refine ⟨fun ri hri => ?_, hrest, fun ri hri => ?_, fun cb hcb => ?_⟩
        · obtain ⟨hknown, hplace, hlive⟩ := (H.iqs m).queue ri (hstayed ri hri)
          have hsame : v'.place ri.key = some (.waiting (.iq m)) := by
            rw [← hplace]
            refine hv'.moved.stays _ fun mv hmv heq => ?_
            obtain ⟨x, hx, rfl⟩ := hmove mv hmv
            exact hdisjoint _ (List.mem_map_of_mem (List.mem_map_of_mem hx)) _
              (List.mem_map_of_mem hri) heq
          refine ⟨by rw [hv'.known]; exact hknown, hsame, hv'.live ri hlive fun pl hpl => ?_⟩
          obtain rfl := Option.some.inj (hsame.symm.trans hpl)
          rfl
        · obtain ⟨hknown, ha, hr⟩ := (H.iqs m).ready ri (D.kept ri hri)
          refine ⟨by rw [hv'.known]; exact hknown, harr _ ha, fun hq => ?_⟩
          have hq' := hstayed ri hq
          exact (hkeep ri ((H.iqs m).queue ri hq').2.2).filesNotReady (hr hq')
        · obtain ⟨hknown, ha⟩ := (H.iqs m).callbacks cb hcb
          exact ⟨by rw [hv'.known]; exact hknown, harr _ ha⟩
      · simp only [Function.update_of_ne hm]
        exact (H.iqs m).mono (hfollows _ (by simp [Ne.symm hm]))
    · have hold := (H.pipes e).mono (hfollows _ (by simp))
      refine ⟨D.single e, fun ri hri => ?_, fun ri hri => ?_⟩
      · rcases D.working e ri hri with hri | hri
        · exact hold.working ri hri
        · obtain ⟨hknown, -, hlive⟩ := (H.iqs n).queue ri (hqueued _ hri)
          have hthere : v'.place ri.key = some (.working e) :=
            hv'.moved.moved ⟨ri, .working e⟩ (List.mem_map.mpr ⟨_, hri, rfl⟩)
          refine ⟨⟨n, by rw [hv'.known]; exact hknown⟩, hthere, hv'.live ri hlive fun pl hpl => ?_⟩
          obtain rfl := Option.some.inj (hthere.symm.trans hpl)
          rfl
      · rw [D.completing e] at hri
        exact hold.completing ri hri

/-! ### Execution -/

theorem StepSpec.executeInst {p : ExecutePipeParams} {e : PipeId} {i : ℕ} {random : Bool}
    {pipe : ExecutePipeState} {T' : InstTable} {sb' : Scoreboards} {executed : Option RenamedInst}
    (H : v.Holds u)
    (h : ExecutePipe.executeInst p (u.pipes e) T v.sb i random = some (pipe, T', sb', executed)) :
    v.StepSpec T {
      units := { u with pipes := Function.update u.pipes e pipe }
      table := T'
      scoreboards := sb'
      executed := executed } := by
  obtain ⟨ri, hworking, hsingle, hcase⟩ := ExecutePipe.executeInst_spec (H.pipes e).single h
  obtain ⟨hknown, hplace, hlive⟩ := (H.pipes e).working ri (by simp [hworking])
  rcases hcase with ⟨rfl, hwork, hcomp, rfl, rfl⟩ | ⟨rfl, hwork, hcomp, hT, rfl⟩
  · refine .of_still (.refl _ _) (H.setPipe ⟨hsingle, fun r hr => ?_, fun r hr => ?_⟩)
    · rw [hwork, ← hworking] at hr
      exact (H.pipes e).working r hr
    · rw [hcomp] at hr
      exact (H.pipes e).completing r hr
  · have hgrow : ∀ f q, v.sb f q = true → ExecutePipe.writeback v.sb ri f q = true := by
      intro f q hq
      simp [ExecutePipe.writeback, Scoreboard.setReady, hq]
    refine ⟨?_, ?_, ?_, ?_, ?_, by simp, by simp,
      .inr ⟨ri, rfl, by simp [UnitsOut.moves], hknown, hlive, rfl⟩, ?_⟩
    all_goals simp only [UnitsOut.moves, List.map_nil, List.nil_append, Option.toList_none,
      Option.toList_some, List.map_cons, List.append_nil]
    · simp
    · intro m hm
      obtain rfl := List.mem_singleton.mp hm
      obtain ⟨n, hn⟩ := hknown
      exact ⟨rfl, arrived_of_place hplace rfl, _, hn⟩
    · intro m hm hdone
      obtain rfl := List.mem_singleton.mp hm
      cases hdone
    · intro m hm hpl
      obtain rfl := List.mem_singleton.mp hm
      cases hplace.symm.trans hpl
    · refine hT.mono ?_
      rintro _ rfl
      obtain ⟨n, hn⟩ := hknown
      exact ⟨⟨_, hn⟩, .inr (by simp [UnitsOut.moves])⟩
    · intro v' hv'
      have hthere : v'.place ri.key = some .executed := hv'.moved.moved _ List.mem_cons_self
      have hfollows : ∀ S : Place → Prop, ¬S (.working e) → v.Follows v' S := by
        intro S hS
        refine hv'.follows hgrow (fun m hm => ?_) fun m hm pl hpl hplace' => ?_
        · obtain rfl := List.mem_singleton.mp hm
          rfl
        · obtain rfl := List.mem_singleton.mp hm
          obtain rfl := Option.some.inj (hplace.symm.trans hplace')
          exact hS hpl
      refine ⟨fun n => (H.iqs n).mono (hfollows _ (by simp)), fun e' => ?_,
        H.lsu.mono (hfollows _ (by simp))⟩
      by_cases he : e' = e
      · subst he
        simp only [Function.update_self]
        refine ⟨hsingle, by simp [hwork], fun r hr => ?_⟩
        rw [hcomp] at hr
        have hF := hfollows (· = .executed) (by simp)
        rcases List.mem_append.mp hr with hr | hr
        · obtain ⟨⟨n, hn⟩, hpl⟩ := (H.pipes e').completing r hr
          exact ⟨⟨n, hF.known _ _ hn⟩, hF.place _ _ rfl hpl⟩
        · rw [List.mem_singleton.mp hr, hv'.known]
          exact ⟨hknown, hthere⟩
      · simp only [Function.update_of_ne he]
        exact (H.pipes e').mono (hfollows _ (by simp [Ne.symm he]))

theorem HoldsPipe.reissueInst {p : ExecutePipeParams} {e : PipeId} {i : ℕ}
    {s s' : ExecutePipeState} {T' : InstTable} (H : v.HoldsPipe e s)
    (h : ExecutePipe.reissueInst p s T i = some (.ok (s', T'))) :
    v.HoldsPipe e s' ∧ ∀ P, T.Progress P T' := by
  obtain ⟨hsingle, hwork, hcomp, hT⟩ := ExecutePipe.reissueInst_spec H.single h
  refine ⟨⟨hsingle, fun r hr => H.working r (hwork r hr), fun r hr => ?_⟩, hT⟩
  rw [hcomp] at hr
  exact H.completing r hr

theorem HoldsPipe.completeInst {e : PipeId} {i : ℕ} {s s' : ExecutePipeState} {T' : InstTable}
    (H : v.HoldsPipe e s) (h : ExecutePipe.completeInst s T i = some (s', T')) :
    v.HoldsPipe e s' ∧ T.Progress (fun ri => (∃ d, v.known d ri) ∧
      ∃ pl, v.place ri.key = some pl ∧ pl.done = true) T' := by
  obtain ⟨ri, hri, h⟩ := Option.map_eq_some_iff.mp h
  obtain ⟨rfl, rfl⟩ := Prod.mk.inj h
  obtain ⟨⟨n, hn⟩, hplace⟩ := H.completing ri (List.mem_of_getElem? hri)
  refine ⟨⟨⟨H.single.length_le, H.single.idle⟩, H.working, fun r hr => ?_⟩,
    .completed ⟨⟨_, hn⟩, _, hplace, rfl⟩ T⟩
  exact H.completing r (List.mem_of_mem_eraseIdx hr)

/-! ### The LSU -/

theorem lsuIssued_done {ri : RenamedInst} (h : v.lsuIssued ri) :
    (∃ d, v.known d ri) ∧ ∃ pl, v.place ri.key = some pl ∧ pl.done = true :=
  ⟨⟨_, h.1⟩, _, h.2, rfl⟩

theorem StepSpec.issueInst {p : LsuParams} {w : LsuWork} {ri : RenamedInst} (H : v.Holds u)
    (h : Lsu.issueInst p u.lsu.work = .ok (w, ri)) :
    v.StepSpec T
      { units := u.setWork w, table := T, scoreboards := v.sb, lsuIssued := some ri } := by
  obtain ⟨rest, replay, info, hready, -, -⟩ := Lsu.issueInst_spec h
  have hri : v.lsuReady ri := H.lsu.work.ready ri (by simp [hready])
  have hknown : v.known .lsu ri := by
    rcases hri with hri | hri
    · exact hri.1
    · exact hri.1.1
  have hplace : v.place ri.key = some .lsuIssued ∨ v.place ri.key = some (.waiting .lsu) := by
    rcases hri with hri | hri
    · exact .inl hri.2
    · exact .inr hri.1.2.1
  refine ⟨?_, ?_, ?_, ?_, .refl _ _, by simp, by simpa using hri, .inl ⟨rfl, .inl rfl⟩, ?_⟩
  all_goals simp only [UnitsOut.moves, List.map_nil, List.nil_append, Option.toList_none,
    Option.toList_some, List.map_cons]
  · simp
  · intro m hm
    obtain rfl := List.mem_singleton.mp hm
    refine ⟨rfl, ?_, _, hknown⟩
    rcases hplace with hplace | hplace
    · exact arrived_of_place hplace rfl
    · exact arrived_of_place hplace rfl
  · intro m hm hdone
    obtain rfl := List.mem_singleton.mp hm
    cases hdone
  · intro m hm hpl
    obtain rfl := List.mem_singleton.mp hm
    rcases hplace with hplace | hplace
    · cases hplace.symm.trans hpl
    · cases hplace.symm.trans hpl
  · intro v' hv'
    have hthere : v'.place ri.key = some .lsuIssued := hv'.moved.moved _ List.mem_cons_self
    have hfollows : ∀ S : Place → Prop, ¬S .lsuIssued → ¬S (.waiting .lsu) → v.Follows v' S := by
      intro S hS hS'
      refine hv'.follows (fun _ _ h => h) (fun m hm => ?_) fun m hm pl hpl hplace' => ?_
      · obtain rfl := List.mem_singleton.mp hm
        rfl
      · obtain rfl := List.mem_singleton.mp hm
        have hplace' : v.place ri.key = some pl := hplace'
        rw [hplace'] at hplace
        rcases hplace with hplace | hplace
        · exact hS (Option.some.inj hplace ▸ hpl)
        · exact hS' (Option.some.inj hplace ▸ hpl)
    -- of the instructions of the LSU only this one has moved
    have hstay : ∀ r : RenamedInst, r.key ≠ ri.key → v'.place r.key = v.place r.key := by
      intro r hr
      refine hv'.moved.stays _ fun m hm heq => ?_
      obtain rfl := List.mem_singleton.mp hm
      exact hr heq.symm
    have hissued : ∀ r, v.lsuIssued r → v'.lsuIssued r := by
      rintro r ⟨hk, hpl⟩
      refine ⟨by rw [hv'.known]; exact hk, ?_⟩
      by_cases hkey : r.key = ri.key
      · rw [hkey]
        exact hthere
      · rw [hstay r hkey]
        exact hpl
    have hwaiting : ∀ r, v.lsuWaiting r → v'.lsuIssued r ∨ v'.lsuWaiting r := by
      rintro r ⟨hk, hpl, hlive⟩
      by_cases hkey : r.key = ri.key
      · exact .inl ⟨by rw [hv'.known]; exact hk, by rw [hkey]; exact hthere⟩
      · have hpl' : v'.place r.key = some (.waiting .lsu) := by
          rw [hstay r hkey]
          exact hpl
        refine .inr ⟨by rw [hv'.known]; exact hk, hpl', hv'.live r hlive fun pl hpl₁ => ?_⟩
        obtain rfl := Option.some.inj (hpl'.symm.trans hpl₁)
        rfl
    refine ⟨fun n => (H.iqs n).mono (hfollows _ (by simp) (by simp)),
      fun e => (H.pipes e).mono (hfollows _ (by simp) (by simp)), fun r hr => ?_, ?_⟩
    · rcases H.lsu.queue r hr with hr | hr
      · exact .inl (hissued r hr)
      · exact hwaiting r hr
    · refine Lsu.issueInst_holds (H.lsu.work.mono (fun r hr => by rw [hv'.known]; exact hr)
        (fun r hr => ?_) hissued) h ⟨by rw [hv'.known]; exact hknown, hthere⟩
      rcases hr with hr | ⟨hr, hchecked⟩
      · exact .inl (hissued r hr)
      · rcases hwaiting r hr with hr | hr
        · exact .inl hr
        · exact .inr ⟨hr, by rw [hv'.sb]; exact hchecked⟩

theorem lsuWriteback_grows {sb sb' : Scoreboards} {ri : RenamedInst}
    (h : Lsu.writeback sb ri = .ok sb') (f : RegFile) (q : ℕ) (hq : sb f q = true) :
    sb' f q = true := by
  unfold Lsu.writeback at h
  split at h
  · obtain rfl := Except.ok.inj h
    exact hq
  · rename_i d _
    obtain rfl := Except.ok.inj h
    by_cases hf : f = d.regFile
    · subst hf
      simp [Scoreboard.setReady, hq]
    · simpa [hf] using hq
  · cases h

theorem StepSpec.completeLsu {p : LsuParams} {out : Lsu.CompleteOut}
    {credits : List (UnitId × ℕ)} (H : v.Holds u)
    (h : Lsu.completeInst p u.lsu T v.sb = .ok out) :
    v.StepSpec T {
      units := { u with lsu := out.state }
      table := out.table
      scoreboards := out.scoreboards
      credits := credits } := by
  have D := Lsu.completeInst_spec H.lsu.work h
  have hgrow : ∀ f q, v.sb f q = true → out.scoreboards f q = true := by
    intro f q hq
    rcases D.scoreboards with hsb | ⟨ri, -, hsb⟩
    · rw [hsb]
      exact hq
    · exact lsuWriteback_grows hsb f q hq
  refine ⟨by simp [UnitsOut.moves], by simp [UnitsOut.moves], by simp [UnitsOut.moves],
    by simp [UnitsOut.moves], D.table.mono fun ri hri => ⟨⟨_, hri.1⟩, .inl ⟨_, hri.2, rfl⟩⟩,
    by simp, by simp, .inl ⟨rfl, ?_⟩, fun v' hv' => ?_⟩
  · rcases D.scoreboards with hsb | ⟨ri, hri, hsb⟩
    · exact .inl hsb
    · exact .inr ⟨ri, hri.1, hsb⟩
  · have H' : v.Holds { u with lsu := out.state } :=
      ⟨H.iqs, H.pipes, ⟨fun r hr => H.lsu.queue r (D.queue.subset hr), D.work⟩⟩
    exact H'.mono (hv'.follows hgrow (by simp [UnitsOut.moves]) (by simp [UnitsOut.moves]))

theorem HoldsLsu.workStep {p : LsuParams} {s : LsuState} {T' : InstTable} {op : LsuOp}
    {w : LsuWork} (hunique : v.Unique) (H : v.HoldsLsu s)
    (h : Lsu.workStep p s T v.sb op = .ok (w, T')) :
    v.HoldsLsu { s with work := w } ∧ T.Progress v.lsuIssued T' := by
  have hknown : ∀ e ∈ s.ldstInstQueue, v.known .lsu e := by
    intro e he
    rcases H.queue e he with he | he
    · exact he.1
    · exact he.1
  have hmake : ∀ ri, v.known .lsu ri → Lsu.inQueue s.ldstInstQueue ri = true →
      Lsu.Checked v.sb ri → v.lsuReady ri := by
    intro ri hri hin hchecked
    -- the entry of the queue for the instruction is the instruction
    obtain ⟨e, he, hkey⟩ := List.any_eq_true.mp hin
    obtain rfl := hunique _ _ _ _ (hknown e he) hri (by simpa using hkey)
    rcases H.queue e he with he | he
    · exact .inl he
    · exact .inr ⟨he, hchecked⟩
  have hkey : ∀ e ∈ s.ldstInstQueue, ∀ ri, v.lsuIssued ri → e.key = ri.key → v.lsuIssued e :=
    fun e he ri hri hkey => ⟨hknown e he, by rw [hkey]; exact hri.2⟩
  obtain ⟨hwork, hT⟩ := Lsu.workStep_holds (fun ri => .inl) hknown hmake hkey H.work h
  exact ⟨⟨H.queue, hwork⟩, hT⟩

/-! ### All handlers -/

/-- Every handler of every unit keeps what the units hold. -/
theorem Holds.step {p : UnitsParams} {op : UnitsOp} {out : UnitsOut} (hunique : v.Unique)
    (H : v.Holds u) (h : u.step p T v.sb op = .ok out) : v.StepSpec T out := by
  cases Units.step_stepped h with
  | @iqCallback n _ _ hcb =>
    exact .of_still (.refl _ T) (H.setQueue ((H.iqs n).readyCallback hcb))
  | sendReadyInsts hsend => exact .sendReadyInsts hunique H hsend
  | executeInst hexe => exact .executeInst H hexe
  | @reissueInst e _ _ _ hre =>
    obtain ⟨hpipe, hT⟩ := (H.pipes e).reissueInst hre
    exact .of_still (hT _) (H.setPipe hpipe)
  | @completePipe e _ _ _ hcomp =>
    obtain ⟨hpipe, hT⟩ := (H.pipes e).completeInst hcomp
    exact .of_still hT (H.setPipe hpipe)
  | issueInst hissue => exact .issueInst H hissue
  | completeLsu hcomp => exact .completeLsu H hcomp
  | lsu hwork =>
    obtain ⟨hlsu, hT⟩ := H.lsu.workStep hunique hwork
    exact .of_still (hT.mono fun ri => lsuIssued_done) ⟨H.iqs, H.pipes, hlsu⟩

end Step

end View

end Olympia
