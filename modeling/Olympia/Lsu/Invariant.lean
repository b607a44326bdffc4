import Olympia.Execute.Held
import Olympia.Lsu.Moves

/-!
# The instructions in the LSU

`LsuSystem.Inv` says which instructions the LSU can hold.  Behind the operand check there are only
instructions that have been scheduled and not flushed; what waits for a callback has not been
scheduled, except in the cycle in which another callback of the same instruction has made it
ready, and then it is not in the pipeline yet.  Flushed instructions stay only in callbacks of the
vector file and in the requests to the MMU and the cache.
-/

namespace Olympia

open Lsu

namespace LsuWork

/-- The instruction is at a place behind the operand check. -/
def At (w : LsuWork) (ri : RenamedInst) : Prop :=
  ri ∈ w.readyQueue ∨ ri ∈ w.replayBuffer ∨ w.appended = some ri ∨
    (∃ n, w.stages n = some ri) ∨ ri ∈ w.appendReady ∨ ri ∈ w.replayReady

/-- The MMU or the cache has been asked about the instruction. -/
def Asked (w : LsuWork) (ri : RenamedInst) : Prop :=
  ri ∈ w.mmuRequests ∨ w.mmuPending = some ri ∨ ri ∈ w.cacheRequests

@[simp] theorem invalidateStage_info (w : LsuWork) (m : ℕ) :
    (w.invalidateStage m).info = w.info := rfl

@[simp] theorem invalidateStage_readyQueue (w : LsuWork) (m : ℕ) :
    (w.invalidateStage m).readyQueue = w.readyQueue := rfl

@[simp] theorem invalidateStage_appended (w : LsuWork) (m : ℕ) :
    (w.invalidateStage m).appended = w.appended := rfl

@[simp] theorem invalidateStage_replayBuffer (w : LsuWork) (m : ℕ) :
    (w.invalidateStage m).replayBuffer = w.replayBuffer := rfl

theorem stages_of_invalidateStage {w : LsuWork} {m n : ℕ} {e : RenamedInst}
    (h : (w.invalidateStage m).stages n = some e) : w.stages n = some e ∧ n ≠ m := by
  by_cases hn : n = m
  · simp [invalidateStage, hn] at h
  · exact ⟨by simpa [invalidateStage, hn] using h, hn⟩

theorem at_of_invalidateStage {w : LsuWork} {m : ℕ} {e : RenamedInst}
    (h : (w.invalidateStage m).At e) : w.At e := by
  obtain h | h | h | ⟨n, h⟩ | h | h := h
  · exact .inl h
  · exact .inr (.inl h)
  · exact .inr (.inr (.inl h))
  · exact .inr (.inr (.inr (.inl ⟨n, (stages_of_invalidateStage h).1⟩)))
  · exact .inr (.inr (.inr (.inr (.inl h))))
  · exact .inr (.inr (.inr (.inr (.inr h))))

theorem at_of_removeFromReplay {w : LsuWork} {ri e : RenamedInst}
    (h : (w.removeFromReplay ri).At e) : w.At e := by
  obtain h | h | h := h
  · exact .inl h
  · exact .inr (.inl (List.mem_of_mem_filter h))
  · exact .inr (.inr h)

end LsuWork

namespace Lsu

section Places

variable {p : LsuParams} {w w' : LsuWork} {ri e : RenamedInst}

theorem Enqueued.at (E : Enqueued w ri w') (h : w'.At e) : e = ri ∨ w.At e := by
  rw [E.rest] at h
  obtain h | h := h
  · rcases List.mem_cons.mp (E.ready.mem_iff.mp h) with h | h
    · exact .inl h
    · exact .inr (.inl h)
  · exact .inr (.inr h)

theorem dropInstFromPipeline_cases (p : LsuParams) (w : LsuWork) (ri : RenamedInst) :
    dropInstFromPipeline p w ri = w ∨ ∃ n, dropInstFromPipeline p w ri = w.invalidateStage n := by
  unfold dropInstFromPipeline
  split
  · exact .inr ⟨_, rfl⟩
  · exact .inl rfl

theorem stages_of_dropInstFromPipeline {n : ℕ}
    (h : (dropInstFromPipeline p w ri).stages n = some e) : w.stages n = some e := by
  rcases dropInstFromPipeline_cases p w ri with heq | ⟨m, heq⟩
  · rwa [heq] at h
  · rw [heq] at h
    exact (LsuWork.stages_of_invalidateStage h).1

theorem at_of_dropInstFromPipeline (h : (dropInstFromPipeline p w ri).At e) : w.At e := by
  rcases dropInstFromPipeline_cases p w ri with heq | ⟨m, heq⟩
  · rwa [heq] at h
  · rw [heq] at h
    exact LsuWork.at_of_invalidateStage h

@[simp] theorem scheduleReplay_readyQueue :
    (scheduleReplay p w ri).readyQueue = w.readyQueue := by
  unfold scheduleReplay
  split <;> rfl

@[simp] theorem scheduleReplay_appended : (scheduleReplay p w ri).appended = w.appended := by
  unfold scheduleReplay
  split <;> rfl

@[simp] theorem scheduleReplay_stages : (scheduleReplay p w ri).stages = w.stages := by
  unfold scheduleReplay
  split <;> rfl

@[simp] theorem scheduleReplay_callbacks : (scheduleReplay p w ri).callbacks = w.callbacks := by
  unfold scheduleReplay
  split <;> rfl

@[simp] theorem scheduleReplay_mmuRequests :
    (scheduleReplay p w ri).mmuRequests = w.mmuRequests := by
  unfold scheduleReplay
  split <;> rfl

theorem scheduleReplay_asked (h : (scheduleReplay p w ri).Asked e) : w.Asked e := by
  unfold scheduleReplay at h
  split at h
  · exact h
  · exact h

theorem scheduleReplay_replayBuffer :
    (scheduleReplay p w ri).replayBuffer.Sublist w.replayBuffer := by
  unfold scheduleReplay
  split
  · exact List.filter_sublist
  · exact List.Sublist.refl _

theorem at_of_scheduleReplay (h : (scheduleReplay p w ri).At e) : e = ri ∨ w.At e := by
  unfold scheduleReplay at h
  split at h
  · obtain h | h | h | h | h | h := h
    · exact .inr (.inl h)
    · exact .inr (.inr (.inl (List.mem_of_mem_filter h)))
    · exact .inr (.inr (.inr (.inl h)))
    · exact .inr (.inr (.inr (.inr (.inl h))))
    · exact .inr (.inr (.inr (.inr (.inr (.inl h)))))
    · rcases List.mem_append.mp h with h | h
      · exact .inr (.inr (.inr (.inr (.inr (.inr h)))))
      · exact .inl (List.mem_singleton.mp h)
  · exact .inr h

end Places

/-! ## What a move keeps -/

namespace LsuMove

variable {p : LsuParams} {sb : Scoreboards} {q : List RenamedInst}
variable {Ap Ab : LsuWork → RenamedInst → Prop} {Re : Prop} {x y : LsuWork × InstTable}

/-- What every move keeps is kept by a sequence of moves. -/
theorem invariant {I : LsuWork × InstTable → Prop}
    (hstep : ∀ {x y}, I x → LsuMove p sb q Ap Ab Re x y → I y) (hI : I x)
    (h : Relation.ReflTransGen (LsuMove p sb q Ap Ab Re) x y) : I y := by
  induction h with
  | refl => exact hI
  | tail _ hmove ih => exact hstep ih hmove

theorem callbacks (h : LsuMove p sb q Ap Ab Re x y) : y.1.callbacks = x.1.callbacks := by
  cases h with
  | wake _ _ _ _ _ _ _ hen => rw [hen.rest]
  | @abort w w' T e _ _ _ hen =>
    show (dropInstFromPipeline p w' e).callbacks = _
    rcases dropInstFromPipeline_cases p w' e with heq | ⟨m, heq⟩
    · rw [heq, hen.rest]
    · rw [heq, hen.rest]
      rfl
  | @bounce w w' T n ri _ _ hen =>
    show w'.callbacks = _
    rcases hen with ⟨rfl, -⟩ | hen
    · simp
    · rw [hen.rest]
      simp
  | leave _ _ => exact scheduleReplay_callbacks
  | append _ _ _ hen => rw [hen.rest]
  | _ => rfl

/-- Moves only empty stages. -/
theorem stages (h : LsuMove p sb q Ap Ab Re x y) {n : ℕ} {e : RenamedInst}
    (he : y.1.stages n = some e) : x.1.stages n = some e := by
  cases h with
  | wake _ _ _ _ _ _ _ hen =>
    rw [hen.rest] at he
    exact he
  | abort _ _ _ hen =>
    have he := stages_of_dropInstFromPipeline he
    rw [hen.rest] at he
    exact he
  | bounce _ _ hen =>
    have he := (LsuWork.stages_of_invalidateStage he).1
    rcases hen with ⟨rfl, -⟩ | hen
    · simpa using he
    · rw [hen.rest] at he
      simpa using he
  | leave _ _ =>
    simp only [scheduleReplay_stages] at he
    exact (LsuWork.stages_of_invalidateStage he).1
  | append _ _ _ hen =>
    rw [hen.rest] at he
    exact he
  | _ => exact he

/-- What a move brings to a place is in the queue, and is not just dispatched. -/
theorem at_or (h : LsuMove p sb q Ap Ab Re x y) {e : RenamedInst} (he : y.1.At e) :
    x.1.At e ∨ e ∈ q ∧ y.2.status e.key ≠ .dispatched := by
  cases h with
  | note => exact .inl he
  | wake hri _ _ _ _ _ _ hen =>
    rcases hen.at he with rfl | he
    · exact .inr ⟨hri, by simp [InstTable.setStatus]⟩
    · exact .inl he
  | request => exact .inl he
  | translate => exact .inl he
  | abort hmem _ _ hen =>
    rcases hen.at (at_of_dropInstFromPipeline (LsuWork.at_of_removeFromReplay he)) with rfl | he
    · exact .inl (.inr (.inl hmem))
    · exact .inl he
  | @bounce w w' T n ri _ hstage hen =>
    have hri : w.At ri := .inr (.inr (.inr (.inl ⟨n, hstage⟩)))
    have he := LsuWork.at_of_invalidateStage he
    have hsched : ∀ {e}, (scheduleReplay p w ri).At e → w.At e := by
      intro e he
      rcases at_of_scheduleReplay he with rfl | he
      · exact hri
      · exact he
    rcases hen with ⟨rfl, -⟩ | hen
    · exact .inl (hsched he)
    · rcases hen.at he with rfl | he
      · exact .inl hri
      · exact .inl (hsched he)
  | leave hstage _ =>
    rcases at_of_scheduleReplay he with rfl | he
    · exact .inl (.inr (.inr (.inr (.inl ⟨_, hstage⟩))))
    · exact .inl (LsuWork.at_of_invalidateStage he)
  | push hri hstatus =>
    simp only [LsuWork.At, List.mem_append, List.mem_singleton] at he ⊢
    grind
  | unreplay => exact .inl (LsuWork.at_of_removeFromReplay he)
  | replay hn =>
    have hmem := List.mem_of_getElem? hn
    simp only [LsuWork.At, List.mem_append, List.mem_singleton] at he ⊢
    grind [List.mem_of_mem_eraseIdx]
  | append hn _ _ hen =>
    have hmem := List.mem_of_getElem? hn
    have he := hen.at he
    simp only [LsuWork.At] at he ⊢
    grind [List.mem_of_mem_eraseIdx]
  | skip =>
    simp only [LsuWork.At] at he ⊢
    grind [List.mem_of_mem_eraseIdx]

theorem asked_or (h : LsuMove p sb q Ap Ab Re x y) {e : RenamedInst} (he : y.1.Asked e) :
    x.1.Asked e ∨ x.1.At e := by
  cases h with
  | note _ hpending hrequests =>
    obtain h | h | h := he
    · exact .inl (.inl h)
    · exact .inl (.inr (.inl (hpending e h)))
    · rcases hrequests e h with h | h
      · exact .inl (.inr (.inr h))
      · exact .inr (.inr (.inr (.inr (.inl ⟨_, h⟩))))
  | wake _ _ _ _ _ _ _ hen =>
    rw [hen.rest] at he
    exact .inl he
  | request hstage _ =>
    obtain h | h := he
    · rcases List.mem_append.mp h with h | h
      · exact .inl (.inl h)
      · rw [List.mem_singleton.mp h]
        exact .inr (.inr (.inr (.inr (.inl ⟨_, hstage⟩))))
    · exact .inl (.inr h)
  | @translate w T n ri hit hn =>
    obtain h | h | h := he
    · exact .inl (.inl (List.mem_of_mem_eraseIdx h))
    · have h : (if hit then w.mmuPending else w.mmuPending.or (some ri)) = some e := h
      rcases hpend : w.mmuPending with _ | r
      · cases hit
        · obtain rfl : ri = e := by simpa [hpend] using h
          exact .inl (.inl (List.mem_of_getElem? hn))
        · simp [hpend] at h
      · obtain rfl : r = e := by cases hit <;> simpa [hpend] using h
        exact .inl (.inr (.inl hpend))
    · exact .inl (.inr (.inr h))
  | @abort w w' T r _ _ _ hen =>
    refine .inl ?_
    have he : (dropInstFromPipeline p w' r).Asked e := he
    rcases dropInstFromPipeline_cases p w' r with heq | ⟨m, heq⟩
    · rw [heq, hen.rest] at he
      exact he
    · rw [heq, hen.rest] at he
      exact he
  | @bounce w w' T n ri _ _ hen =>
    have he : w'.Asked e := he
    rcases hen with ⟨rfl, -⟩ | hen
    · exact .inl (scheduleReplay_asked he)
    · rw [hen.rest] at he
      exact .inl (scheduleReplay_asked he)
  | leave _ _ =>
    have he := scheduleReplay_asked he
    exact .inl he
  | append _ _ _ hen =>
    rw [hen.rest] at he
    exact .inl he
  | _ => exact .inl he

/-- A move makes a waiting load scheduled, or completes a scheduled store. -/
theorem status (h : LsuMove p sb q Ap Ab Re x y) (k : InstKey) :
    y.2.status k = x.2.status k ∨
      (x.2.status k = .dispatched ∧ y.2.status k = .scheduled ∧
        ∃ ri ∈ q, ri.key = k ∧ ri.inst.isStore = false ∧ instOperandReady sb ri = true) ∨
      (x.2.status k = .scheduled ∧ y.2.status k = .completed ∧
        ∃ ri n, x.1.stages n = some ri ∧ ri.inst.isStore = true ∧ ri.key = k) := by
  cases h with
  | @wake w w' T ri st hri hstatus hload hready =>
    by_cases hk : k = ri.key
    · subst hk
      exact .inr (.inl ⟨hstatus, by simp [InstTable.setStatus], ri, hri, rfl, hload, hready⟩)
    · exact .inl (by simp [InstTable.setStatus, hk])
  | @leave w T T' ri hstage hT =>
    rcases hT with rfl | ⟨hstore, hsched, rfl⟩
    · exact .inl rfl
    · by_cases hk : k = ri.key
      · subst hk
        exact .inr (.inr ⟨hsched, by simp [InstTable.setStatus], ri, _, hstage, hstore, rfl⟩)
      · exact .inl (by simp [InstTable.setStatus, hk])
  | _ => exact .inl rfl

theorem replayBuffer (h : LsuMove p sb q Ap Ab Re x y) :
    y.1.replayBuffer.Sublist x.1.replayBuffer := by
  cases h with
  | wake _ _ _ _ _ _ _ hen => rw [hen.rest]
  | @abort w w' T r _ _ _ hen =>
    refine List.Sublist.trans List.filter_sublist ?_
    rw [dropInstFromPipeline_replayBuffer, hen.rest]
  | @bounce w w' T n ri _ _ hen =>
    show w'.replayBuffer.Sublist _
    rcases hen with ⟨rfl, -⟩ | hen
    · exact scheduleReplay_replayBuffer
    · rw [hen.rest]
      exact scheduleReplay_replayBuffer
  | leave _ _ => exact scheduleReplay_replayBuffer
  | unreplay => exact List.filter_sublist
  | append _ _ _ hen => rw [hen.rest]
  | _ => exact List.Sublist.refl _

end LsuMove

/-! ## What the LSU holds -/

/-- What is known of a callback.  It waits for an instruction that has not been scheduled; or its
bits are set, and another callback has just made the instruction ready; or the instruction has been
flushed. -/
structure Waits (D q : List RenamedInst) (sb : Scoreboards) (w : LsuWork) (T : InstTable)
    (cb : LsuCallback) : Prop where
  known : cb.inst ∈ D
  store : ∀ f ri, cb = .data f ri → ri.inst.isStore = true ∧
    (ri.dataReg.any fun r => r.opInfo.isX0) = false
  status : T.status cb.inst.key = .flushed ∨ cb.inst ∈ q ∧
    (T.status cb.inst.key = .dispatched ∨ T.status cb.inst.key = .scheduled ∧
      (sb cb.regFile).isSet cb.mask = true ∧ ∀ n, w.stages n ≠ some cb.inst)

/-- The instructions of the LSU, among the instructions `D` that Dispatch has sent. -/
structure Holding (D q : List RenamedInst) (sb : Scoreboards) (w : LsuWork) (T : InstTable) :
    Prop where
  queue : ∀ ri ∈ q, T.status ri.key = .dispatched ∨ T.status ri.key = .scheduled ∨
    ri.inst.isStore = true ∧ (T.status ri.key = .completed ∨ T.status ri.key = .retired)
  present : ∀ ri, w.At ri →
    ri ∈ D ∧ T.status ri.key ≠ .dispatched ∧ T.status ri.key ≠ .flushed
  asked : ∀ ri, w.Asked ri → ri ∈ D ∧ T.status ri.key ≠ .dispatched
  waits : ∀ cb ∈ w.callbacks, Waits D q sb w T cb
  replay : (w.replayBuffer.map RenamedInst.key).Nodup

/-- Two instructions with the same key are the same. -/
theorem eq_of_key {D : List RenamedInst} (hD : (D.map RenamedInst.key).Nodup)
    {a b : RenamedInst} (ha : a ∈ D) (hb : b ∈ D) (h : a.key = b.key) : a = b :=
  List.inj_on_of_nodup_map hD ha hb h

/-- A callback of an instruction that passes the check is due. -/
theorem Waits.due {D q : List RenamedInst} {sb : Scoreboards} {w : LsuWork} {T : InstTable}
    {cb : LsuCallback} (h : Waits D q sb w T cb) (hchecked : Checked sb cb.inst) :
    (sb cb.regFile).isSet cb.mask = true := by
  obtain ⟨haddr, hdata⟩ := hchecked
  rcases cb with ri | ⟨f, ri⟩
  · exact haddr
  · obtain ⟨hstore, hx0⟩ := h.store f ri rfl
    rcases dataNotReady_eq_nil.mp (hdata hstore) with hx | hset
    · rw [LsuCallback.inst, hx0] at hx
      cases hx
    · exact Scoreboard.isSet_iff.mpr (hset f)

namespace Holding

variable {p : LsuParams} {D q : List RenamedInst} {sb sb' : Scoreboards} {w w' : LsuWork}
variable {T T' : InstTable} {Ap Ab : LsuWork → RenamedInst → Prop}

theorem not_flushed (H : Holding D q sb w T) {ri : RenamedInst} (h : ri ∈ q) :
    T.status ri.key ≠ .flushed := by
  rcases H.queue ri h with h | h | ⟨-, h | h⟩ <;> simp [h]

theorem move (hD : (D.map RenamedInst.key).Nodup) (hq : ∀ ri ∈ q, ri ∈ D)
    (H : Holding D q sb w T) (h : LsuMove p sb q Ap Ab Re (w, T) (w', T')) :
    Holding D q sb w' T' := by
  have hstatus := h.status
  dsimp only at hstatus
  have hqueue : ∀ ri ∈ q, T'.status ri.key = .dispatched ∨ T'.status ri.key = .scheduled ∨
      ri.inst.isStore = true ∧
        (T'.status ri.key = .completed ∨ T'.status ri.key = .retired) := by
    intro ri hri
    rcases hstatus ri.key with hst | ⟨-, hst, -⟩ | ⟨-, hst, e, n, hstage, hstore, hkey⟩
    · rw [hst]
      exact H.queue ri hri
    · exact .inr (.inl hst)
    · have he := (H.present e (.inr (.inr (.inr (.inl ⟨n, hstage⟩))))).1
      obtain rfl := eq_of_key hD he (hq ri hri) hkey
      exact .inr (.inr ⟨hstore, .inl hst⟩)
  -- a status that is neither `dispatched` nor `flushed` never becomes so
  have hkeep : ∀ k, T.status k ≠ .dispatched → T'.status k ≠ .dispatched ∧
      (T.status k ≠ .flushed → T'.status k ≠ .flushed) := by
    intro k hk
    rcases hstatus k with hst | ⟨hst, -⟩ | ⟨-, hst, -⟩
    · rw [hst]
      exact ⟨hk, id⟩
    · exact absurd hst hk
    · simp [hst]
  refine ⟨hqueue, fun ri hri => ?_, fun ri hri => ?_, fun cb hcb => ?_,
    H.replay.sublist (h.replayBuffer.map _)⟩
  · rcases h.at_or hri with hat | ⟨hri, hne⟩
    · obtain ⟨hmem, hne, hnf⟩ := H.present ri hat
      exact ⟨hmem, (hkeep _ hne).1, (hkeep _ hne).2 hnf⟩
    · refine ⟨hq ri hri, hne, ?_⟩
      rcases hqueue ri hri with h | h | ⟨-, h | h⟩ <;> simp [h]
  · rcases h.asked_or hri with hask | hat
    · exact ⟨(H.asked ri hask).1, (hkeep _ (H.asked ri hask).2).1⟩
    · exact ⟨(H.present ri hat).1, (hkeep _ (H.present ri hat).2.1).1⟩
  · have hcb' : cb ∈ w.callbacks := by
      rw [← h.callbacks]
      exact hcb
    obtain ⟨hknown, hstore, hst⟩ := H.waits cb hcb'
    refine ⟨hknown, hstore, ?_⟩
    rcases hst with hfl | ⟨hmem, hdisp | ⟨hsched, hdue, hstages⟩⟩
    · rcases hstatus cb.inst.key with heq | ⟨hst, -⟩ | ⟨hst, -⟩
      · exact .inl (by rw [heq]; exact hfl)
      · rw [hfl] at hst
        cases hst
      · rw [hfl] at hst
        cases hst
    · rcases hstatus cb.inst.key with heq | ⟨-, hst, ri, hri, hkey, hload, hready⟩ | ⟨hst, -⟩
      · exact .inr ⟨hmem, .inl (by rw [heq]; exact hdisp)⟩
      · -- the store has woken the load, which waits for its address only
        obtain rfl := eq_of_key hD (hq ri hri) hknown hkey
        refine .inr ⟨hmem, .inr ⟨hst, ?_, fun n hn => ?_⟩⟩
        · rcases cb with ri | ⟨f, ri⟩
          · exact hready
          · have hload : ri.inst.isStore = false := hload
            rw [(hstore f ri rfl).1] at hload
            cases hload
        · exact (H.present _ (.inr (.inr (.inr (.inl ⟨n, h.stages hn⟩))))).2.1 hdisp
      · rw [hdisp] at hst
        cases hst
    · rcases hstatus cb.inst.key with heq | ⟨hst, -⟩ | ⟨-, -, ri, n, hstage, -, hkey⟩
      · refine .inr ⟨hmem, .inr ⟨by rw [heq]; exact hsched, hdue, fun n hn => ?_⟩⟩
        exact hstages n (h.stages hn)
      · rw [hsched] at hst
        cases hst
      · have hri := (H.present ri (.inr (.inr (.inr (.inl ⟨n, hstage⟩))))).1
        obtain rfl := eq_of_key hD hri hknown hkey
        exact absurd hstage (hstages n)

theorem moves (hD : (D.map RenamedInst.key).Nodup) (hq : ∀ ri ∈ q, ri ∈ D)
    (H : Holding D q sb w T)
    (h : Relation.ReflTransGen (LsuMove p sb q Ap Ab Re) (w, T) (w', T')) :
    Holding D q sb w' T' := by
  exact LsuMove.invariant (I := fun x => Holding D q sb x.1 x.2)
    (fun H hmove => H.move hD hq hmove) H h

/-- Moves dispatch nothing, and leave the retired stores alone. -/
theorem status_of_moves
    (h : Relation.ReflTransGen (LsuMove p sb q Ap Ab Re) (w, T) (w', T')) (k : InstKey) :
    (T.status k ≠ .dispatched → T'.status k ≠ .dispatched) ∧
      (T.status k = .retired → T'.status k = .retired) := by
  refine LsuMove.invariant (I := fun x => (T.status k ≠ .dispatched →
    x.2.status k ≠ .dispatched) ∧ (T.status k = .retired → x.2.status k = .retired)) ?_
    ⟨id, id⟩ h
  intro x y ih hmove
  rcases hmove.status k with heq | ⟨hst, hst', -⟩ | ⟨hst, hst', -⟩
  · rw [heq]
    exact ih
  · rw [hst] at ih
    exact ⟨fun hne => absurd rfl (ih.1 hne), fun hret => by cases ih.2 hret⟩
  · rw [hst] at ih
    exact ⟨fun _ => by simp [hst'], fun hret => by cases ih.2 hret⟩

/-- The check makes at most one dispatched instruction scheduled. -/
theorem check_status {ri : RenamedInst} (hD : (D.map RenamedInst.key).Nodup)
    (hq : ∀ ri ∈ q, ri ∈ D) (H : Holding D q sb w T) (hmem : ri ∈ D)
    (hst : T.status ri.key = .flushed ∨
      ri ∈ q ∧ (T.status ri.key = .dispatched ∨ T.status ri.key = .scheduled))
    (h : OperandCheck p sb q w T ri (w', T')) (k : InstKey) :
    T'.status k = T.status k ∨ k = ri.key ∧ ri ∈ q ∧ T.status k = .dispatched ∧
      T'.status k = .scheduled := by
  generalize hy : (w', T') = y at h
  cases h with
  | @ready w₁ hne hchecked _ hin hen =>
    obtain ⟨-, rfl⟩ := Prod.mk.inj hy
    obtain ⟨e, he, hkey⟩ := inQueue_iff.mp hin
    obtain rfl := eq_of_key hD (hq e he) hmem hkey
    by_cases hk : k = e.key
    · subst hk
      refine .inr ⟨rfl, he, ?_, by simp [InstTable.setStatus]⟩
      rcases hst with hst | ⟨-, hst | hst⟩
      · exact absurd hst (H.not_flushed he)
      · exact hst
      · exact absurd hst hne
    · exact .inl (by simp [InstTable.setStatus, hk])
  | _ =>
    obtain ⟨-, rfl⟩ := Prod.mk.inj hy
    exact .inl rfl

/-- The check of an instruction that has not been made ready. -/
theorem check {ri : RenamedInst} (hD : (D.map RenamedInst.key).Nodup) (hq : ∀ ri ∈ q, ri ∈ D)
    (H : Holding D q sb w T) (hmem : ri ∈ D) (hst : T.status ri.key = .flushed ∨
      ri ∈ q ∧ (T.status ri.key = .dispatched ∨ T.status ri.key = .scheduled))
    (h : OperandCheck p sb q w T ri (w', T')) : Holding D q sb w' T' := by
  have hdisp : T.status ri.key ≠ .scheduled →
      T.status ri.key = .flushed ∨ ri ∈ q ∧ T.status ri.key = .dispatched := by
    intro hne
    rcases hst with hst | ⟨hri, hst | hst⟩
    · exact .inl hst
    · exact .inr ⟨hri, hst⟩
    · exact absurd hst hne
  have hwait : ∀ {cb : LsuCallback}, cb.inst = ri → T.status ri.key ≠ .scheduled →
      T.status cb.inst.key = .flushed ∨ cb.inst ∈ q ∧ (T.status cb.inst.key = .dispatched ∨
        T.status cb.inst.key = .scheduled ∧ (sb cb.regFile).isSet cb.mask = true ∧
          ∀ n, w.stages n ≠ some cb.inst) := by
    intro cb hcb hne
    rw [hcb]
    exact (hdisp hne).imp id fun h => ⟨h.1, .inl h.2⟩
  generalize hy : (w', T') = y at h
  cases h with
  | scheduled _ =>
    obtain ⟨rfl, rfl⟩ := Prod.mk.inj hy
    exact H
  | blocked _ _ _ _ _ =>
    obtain ⟨rfl, rfl⟩ := Prod.mk.inj hy
    exact H
  | address hne _ =>
    obtain ⟨rfl, rfl⟩ := Prod.mk.inj hy
    refine ⟨H.queue, H.present, H.asked, fun cb hcb => ?_, H.replay⟩
    rcases List.mem_append.mp hcb with hcb | hcb
    · exact ⟨(H.waits cb hcb).known, (H.waits cb hcb).store, (H.waits cb hcb).status⟩
    · obtain rfl := List.mem_singleton.mp hcb
      exact ⟨hmem, by simp, hwait rfl hne⟩
  | data hne _ hstore =>
    obtain ⟨rfl, rfl⟩ := Prod.mk.inj hy
    refine ⟨H.queue, H.present, H.asked, fun cb hcb => ?_, H.replay⟩
    rcases List.mem_append.mp hcb with hcb | hcb
    · exact ⟨(H.waits cb hcb).known, (H.waits cb hcb).store, (H.waits cb hcb).status⟩
    · obtain ⟨f, hf, rfl⟩ := List.mem_map.mp hcb
      refine ⟨hmem, fun f' ri' heq => ?_, hwait rfl hne⟩
      obtain ⟨-, rfl⟩ := LsuCallback.data.inj heq
      refine ⟨hstore, ?_⟩
      by_contra hx0
      rw [dataNotReady, if_pos (by simpa using hx0)] at hf
      cases hf
  | @ready w₁ hne hchecked _ hin hen =>
    obtain ⟨rfl, rfl⟩ := Prod.mk.inj hy
    obtain ⟨e, he, hkey⟩ := inQueue_iff.mp hin
    obtain rfl := eq_of_key hD (hq e he) hmem hkey
    have hdisp : T.status e.key = .dispatched := by
      rcases hdisp hne with hfl | ⟨-, hdisp⟩
      · exact absurd hfl (H.not_flushed he)
      · exact hdisp
    have hstatus : ∀ k, (T.setStatus e.key .scheduled).status k =
        if k = e.key then .scheduled else T.status k := by
      intro k
      by_cases hk : k = e.key
      · subst hk
        simp [InstTable.setStatus]
      · simp [InstTable.setStatus, hk]
    refine ⟨fun ri hri => ?_, fun ri hri => ?_, fun ri hri => ?_, fun cb hcb => ?_, ?_⟩
    · rw [hstatus]
      split
      · exact .inr (.inl rfl)
      · exact H.queue ri hri
    · rw [hstatus]
      rcases hen.at hri with rfl | hat
      · simp [hmem]
      · obtain ⟨hD', hne', hnf⟩ := H.present ri hat
        refine ⟨hD', ?_⟩
        split
        · simp
        · exact ⟨hne', hnf⟩
    · rw [hstatus]
      rw [hen.rest] at hri
      obtain ⟨hD', hne'⟩ := H.asked ri hri
      refine ⟨hD', ?_⟩
      split
      · simp
      · exact hne'
    · rw [hen.rest] at hcb
      have W := H.waits cb hcb
      refine ⟨W.known, W.store, ?_⟩
      rw [hstatus, hen.rest]
      by_cases hk : cb.inst.key = e.key
      · obtain heq := eq_of_key hD W.known hmem hk
        rw [if_pos hk, heq]
        refine .inr ⟨he, .inr ⟨rfl, ?_, fun n hn => ?_⟩⟩
        · exact W.due (heq ▸ hchecked)
        · exact (H.present e (.inr (.inr (.inr (.inl ⟨n, hn⟩))))).2.1 hdisp
      · rw [if_neg hk]
        exact W.status
    · rw [hen.rest]
      exact H.replay

/-- The scoreboard changes, but no bit that an instruction of the queue reads is cleared. -/
theorem scoreboards (H : Holding D q sb w T) (h : ∀ ri ∈ q, sb.Keeps sb' ri) :
    Holding D q sb' w T := by
  refine ⟨H.queue, H.present, H.asked, fun cb hcb => ?_, H.replay⟩
  obtain ⟨hknown, hstore, hst⟩ := H.waits cb hcb
  refine ⟨hknown, hstore, hst.imp id fun ⟨hri, hst⟩ => ⟨hri, hst.imp id ?_⟩⟩
  rintro ⟨hsched, hdue, hstages⟩
  refine ⟨hsched, Scoreboard.isSet_iff.mpr fun b hb => ?_, hstages⟩
  refine h _ hri _ b ?_ (Scoreboard.isSet_iff.mp hdue b hb)
  rcases cb with ri | ⟨f, ri⟩
  · exact .inl hb
  · exact .inr hb

/-- An instruction arrives, before it is checked. -/
theorem arrive {ri : RenamedInst} {f : LoadStoreInstInfo → LoadStoreInstInfo}
    (hq : ∀ e ∈ q, e ∈ D) (hfresh : ∀ e ∈ D, e.key ≠ ri.key) (H : Holding D q sb w T) :
    Holding (D ++ [ri]) (q ++ [ri]) sb (w.modifyInfo ri.key f)
      (T.setStatus ri.key .dispatched) := by
  have hold : ∀ e ∈ D, (T.setStatus ri.key .dispatched).status e.key = T.status e.key := by
    intro e he
    simp [InstTable.setStatus, hfresh e he]
  refine ⟨fun e he => ?_, fun e he => ?_, fun e he => ?_, fun cb hcb => ?_, H.replay⟩
  · rcases List.mem_append.mp he with he | he
    · rw [hold e (hq e he)]
      exact H.queue e he
    · rw [List.mem_singleton.mp he]
      exact .inl (by simp [InstTable.setStatus])
  · obtain ⟨hmem, hst⟩ := H.present e he
    rw [hold e hmem]
    exact ⟨List.mem_append_left _ hmem, hst⟩
  · obtain ⟨hmem, hst⟩ := H.asked e he
    rw [hold e hmem]
    exact ⟨List.mem_append_left _ hmem, hst⟩
  · obtain ⟨hknown, hstore, hst⟩ := H.waits cb hcb
    refine ⟨List.mem_append_left _ hknown, hstore, ?_⟩
    rw [hold _ hknown]
    exact hst.imp id fun h => ⟨List.mem_append_left _ h.1, h.2⟩

/-- The pipeline moves, when no callback is due. -/
theorem advance (H : Holding D q sb w T)
    (hdue : ∀ cb ∈ w.callbacks, (sb cb.regFile).isSet cb.mask = false) :
    Holding D q sb w.advance T := by
  refine ⟨H.queue, fun ri hri => H.present ri ?_, H.asked, fun cb hcb => ?_, H.replay⟩
  · obtain h | h | h | ⟨n, h⟩ | h := hri
    · exact .inl h
    · exact .inr (.inl h)
    · cases h
    · rcases n with _ | n
      · exact .inr (.inr (.inl h))
      · exact .inr (.inr (.inr (.inl ⟨n, h⟩)))
    · exact .inr (.inr (.inr (.inr h)))
  · obtain ⟨hknown, hstore, hst⟩ := H.waits cb hcb
    refine ⟨hknown, hstore, hst.imp id fun h => ⟨h.1, h.2.imp id fun h => ?_⟩⟩
    rw [hdue cb hcb] at h
    cases h.2.1

end Holding

/-! ## Issue and completion -/

section Cases

variable {p : LsuParams} {w w' : LsuWork} {ri : RenamedInst}

/-- What `issueInst_` has done. -/
structure Issued (p : LsuParams) (w : LsuWork) (ri : RenamedInst) (w' : LsuWork) : Prop where
  ready : w.readyQueue = ri :: w'.readyQueue
  replay : p.allowSpeculativeLoadExec = false ∧ w'.replayBuffer = w.replayBuffer ∨
    p.allowSpeculativeLoadExec = true ∧ w'.replayBuffer = w.replayBuffer ++ [ri] ∧
      ∀ e ∈ w.replayBuffer, e.key ≠ ri.key
  flag : ∀ k, (w'.info k).inReadyQueue = (decide (k ≠ ri.key) && (w.info k).inReadyQueue)
  access : ∀ k, (w'.info k).toMemoryAccessInfo = (w.info k).toMemoryAccessInfo
  rest : w' = { w with
    info := w'.info
    readyQueue := w'.readyQueue
    appended := some ri
    replayBuffer := w'.replayBuffer }

theorem issueInst_issued (h : Lsu.issueInst p w = .ok (w', ri)) : Issued p w ri w' := by
  have hinfo : ∀ (w₁ : LsuWork) k,
      ((w₁.modifyInfo ri.key fun i => { i with
        inReadyQueue := false, state := .issued, priority := .lowest }).info k).inReadyQueue =
        (decide (k ≠ ri.key) && (w₁.info k).inReadyQueue) ∧
      ((w₁.modifyInfo ri.key fun i => { i with
        inReadyQueue := false, state := .issued, priority := .lowest }).info k).toMemoryAccessInfo =
        (w₁.info k).toMemoryAccessInfo := by
    intro w₁ k
    by_cases hk : k = ri.key
    · subst hk
      simp [LsuWork.modifyInfo]
    · simp [LsuWork.modifyInfo, hk]
  unfold Lsu.issueInst at h
  split at h
  · cases h
  · rename_i e rest hready
    obtain ⟨-, -, h⟩ := Run.bind_eq_ok.mp h
    dsimp only at h
    split at h
    · rename_i hspec
      obtain ⟨w₁, hw₁, h⟩ := Run.bind_eq_ok.mp h
      obtain ⟨-, -, hw₁⟩ := Run.bind_eq_ok.mp hw₁
      obtain ⟨u', hnot, hw₁⟩ := Run.bind_eq_ok.mp hw₁
      obtain rfl := Except.ok.inj hw₁
      obtain ⟨rfl, rfl⟩ := Prod.mk.inj (Except.ok.inj h)
      refine ⟨hready, .inr ⟨hspec, rfl, fun e' he' hkey => ?_⟩, fun k => (hinfo _ k).1,
        fun k => (hinfo _ k).2, rfl⟩
      have hnot : ¬inQueue w.replayBuffer e = true := by simpa using hnot
      exact hnot (inQueue_iff.mpr ⟨e', he', hkey⟩)
    · rename_i hspec
      obtain ⟨rfl, rfl⟩ := Prod.mk.inj (Except.ok.inj h)
      exact ⟨hready, .inl ⟨by simpa using hspec, rfl⟩, fun k => (hinfo _ k).1,
        fun k => (hinfo _ k).2, rfl⟩

theorem Issued.at (h : Issued p w ri w') {e : RenamedInst} (he : w'.At e) : w.At e := by
  have hri : w.At ri := .inl (by rw [h.ready]; exact List.mem_cons_self)
  rw [h.rest] at he
  obtain he | he | he | he := he
  · exact .inl (by rw [h.ready]; exact List.mem_cons_of_mem _ he)
  · rcases h.replay with ⟨-, heq⟩ | ⟨-, heq, -⟩
    · exact .inr (.inl (by rw [← heq]; exact he))
    · have he : e ∈ w.replayBuffer ++ [ri] := by
        rw [← heq]
        exact he
      rcases List.mem_append.mp he with he | he
      · exact .inr (.inl he)
      · rw [List.mem_singleton.mp he]
        exact hri
  · obtain rfl := Option.some.inj he
    exact hri
  · exact .inr (.inr (.inr he))

theorem Holding.issue {D q : List RenamedInst} {sb : Scoreboards} {T : InstTable}
    (H : Holding D q sb w T) (h : Issued p w ri w') : Holding D q sb w' T := by
  refine ⟨H.queue, fun e he => H.present e (h.at he), fun e he => H.asked e ?_,
    fun cb hcb => ?_, ?_⟩
  · rw [h.rest] at he
    exact he
  · rw [h.rest] at hcb
    obtain ⟨hknown, hstore, hst⟩ := H.waits cb hcb
    rw [h.rest]
    exact ⟨hknown, hstore, hst⟩
  · rcases h.replay with ⟨-, heq⟩ | ⟨-, heq, hnot⟩
    · rw [heq]
      exact H.replay
    · rw [heq, List.map_append, List.nodup_append]
      refine ⟨H.replay, List.nodup_singleton _, ?_⟩
      rintro a ha b hb rfl
      obtain ⟨e, he, hkey⟩ := List.mem_map.mp ha
      exact hnot e he (hkey.trans (List.mem_singleton.mp hb))

/-- What `completeInst_` can do. -/
inductive Completion (p : LsuParams) (s : LsuState) (T : InstTable) (sb : Scoreboards) :
    CompleteOut → Prop where
  | idle (h : hasData p s.work = false) : Completion p s T sb ⟨s, T, sb, 0⟩
  /-- a store has not retired -/
  | wait {ri : RenamedInst} {sb' : Scoreboards} (hri : s.work.stages p.completeStage = some ri)
      (hdata : (s.work.info ri.key).dataReady = true) (hsb : writeback sb ri = .ok sb')
      (hstore : ri.inst.isStore = true) (hstatus : T.status ri.key ≠ .retired) :
    Completion p s T sb ⟨s, T, sb', 0⟩
  /-- a load has completed before, a store has left the queue -/
  | again {ri : RenamedInst} {sb' : Scoreboards} (hri : s.work.stages p.completeStage = some ri)
      (hdata : (s.work.info ri.key).dataReady = true) (hsb : writeback sb ri = .ok sb')
      (hdone : ri.inst.isStore = false ∧
          (T.status ri.key = .retired ∨ T.status ri.key = .completed) ∨
        ri.inst.isStore = true ∧ T.status ri.key = .retired ∧
          inQueue s.ldstInstQueue ri = false) :
    Completion p s T sb ⟨dropReplay p s ri, T, sb', 0⟩
  | load {ri : RenamedInst} {sb' : Scoreboards} (hri : s.work.stages p.completeStage = some ri)
      (hdata : (s.work.info ri.key).dataReady = true) (hsb : writeback sb ri = .ok sb')
      (hload : ri.inst.isStore = false) (hstatus : T.status ri.key ≠ .retired)
      (hstatus' : T.status ri.key ≠ .completed) (hin : inQueue s.ldstInstQueue ri = true) :
    Completion p s T sb ⟨dropReplay p { s with
      ldstInstQueue := s.ldstInstQueue.eraseP fun e => e.key = ri.key } ri,
        T.setStatus ri.key .completed, sb', 1⟩
  | store {ri : RenamedInst} {sb' : Scoreboards} (hri : s.work.stages p.completeStage = some ri)
      (hdata : (s.work.info ri.key).dataReady = true) (hsb : writeback sb ri = .ok sb')
      (hstore : ri.inst.isStore = true) (hstatus : T.status ri.key = .retired)
      (hmmu : (s.work.info ri.key).mmuState = .hit) (hin : inQueue s.ldstInstQueue ri = true) :
    Completion p s T sb ⟨dropReplay p { s with
      ldstInstQueue := s.ldstInstQueue.eraseP fun e => e.key = ri.key } ri, T, sb', 1⟩

theorem finish_eq {s : LsuState} {T : InstTable} {sb : Scoreboards} {out : CompleteOut}
    (h : finish p s T sb ri = .ok out) : inQueue s.ldstInstQueue ri = true ∧
      out = ⟨dropReplay p { s with
        ldstInstQueue := s.ldstInstQueue.eraseP fun e => e.key = ri.key } ri, T, sb, 1⟩ := by
  obtain ⟨q, hq, h⟩ := Run.bind_eq_ok.mp h
  obtain rfl := Except.ok.inj h
  unfold popIssueQueue at hq
  split at hq
  · rename_i hin
    obtain rfl := Except.ok.inj hq
    exact ⟨hin, rfl⟩
  · cases hq

theorem completeInst_cases {s : LsuState} {T : InstTable} {sb : Scoreboards} {out : CompleteOut}
    (h : completeInst p s T sb = .ok out) : Completion p s T sb out := by
  unfold completeInst at h
  split at h
  · rename_i hnone
    obtain rfl := Except.ok.inj h
    exact .idle (by simp [hasData, hnone])
  · rename_i ri hri
    dsimp only at h
    split at h
    · rename_i hdata
      obtain rfl := Except.ok.inj h
      exact .idle (by simpa [hasData, hri] using hdata)
    · rename_i hdata
      have hdata : (s.work.info ri.key).dataReady = true := by simpa using hdata
      obtain ⟨sb', hsb, h⟩ := Run.bind_eq_ok.mp h
      split at h
      · rename_i hload
        have hload : ri.inst.isStore = false := by simpa using hload
        obtain ⟨-, -, h⟩ := Run.bind_eq_ok.mp h
        split at h
        · rename_i hdone
          obtain rfl := Except.ok.inj h
          exact .again hri hdata hsb (.inl ⟨hload, hdone⟩)
        · rename_i hdone
          obtain ⟨hin, rfl⟩ := finish_eq h
          exact .load hri hdata hsb hload (fun hst => hdone (.inl hst))
            (fun hst => hdone (.inr hst)) hin
      · rename_i hstore
        have hstore : ri.inst.isStore = true := by simpa using hstore
        split at h
        · rename_i hst
          obtain ⟨-, -, h⟩ := Run.bind_eq_ok.mp h
          obtain rfl := Except.ok.inj h
          exact .wait hri hdata hsb hstore hst
        · rename_i hst
          have hst : T.status ri.key = .retired := not_not.mp hst
          obtain ⟨u, hhit, h⟩ := Run.bind_eq_ok.mp h
          have hhit := spartaAssert_eq_ok.mp hhit
          simp only [Bool.and_eq_true, decide_eq_true_eq] at hhit
          split at h
          · rename_i hnot
            obtain rfl := Except.ok.inj h
            exact .again hri hdata hsb (.inr ⟨hstore, hst, by simpa using hnot⟩)
          · obtain ⟨hin, rfl⟩ := finish_eq h
            exact .store hri hdata hsb hstore hst hhit.2 hin

theorem dropReplay_work_at {s : LsuState} {e : RenamedInst}
    (h : (dropReplay p s ri).work.At e) : s.work.At e := by
  unfold dropReplay at h
  split at h
  · exact LsuWork.at_of_removeFromReplay h
  · exact h

@[simp] theorem dropReplay_ldstInstQueue (s : LsuState) :
    (dropReplay p s ri).ldstInstQueue = s.ldstInstQueue := by
  unfold dropReplay
  split <;> rfl

theorem dropReplay_work (p : LsuParams) (s : LsuState) (ri : RenamedInst) :
    (dropReplay p s ri).work =
      { s.work with replayBuffer := (dropReplay p s ri).work.replayBuffer } := by
  unfold dropReplay
  split <;> rfl

theorem dropReplay_replayBuffer (p : LsuParams) (s : LsuState) (ri : RenamedInst) :
    (dropReplay p s ri).work.replayBuffer.Sublist s.work.replayBuffer := by
  unfold dropReplay
  split
  · exact List.filter_sublist
  · exact List.Sublist.refl _

/-- Completion changes the work of the LSU in the replay buffer only. -/
theorem completeInst_work {s : LsuState} {T : InstTable} {sb : Scoreboards} {out : CompleteOut}
    (h : completeInst p s T sb = .ok out) :
    out.state.work = { s.work with replayBuffer := out.state.work.replayBuffer } ∧
      out.state.work.replayBuffer.Sublist s.work.replayBuffer := by
  cases completeInst_cases h with
  | idle _ => exact ⟨rfl, List.Sublist.refl _⟩
  | wait _ _ _ _ _ => exact ⟨rfl, List.Sublist.refl _⟩
  | again _ _ _ _ => exact ⟨dropReplay_work _ _ _, dropReplay_replayBuffer _ _ _⟩
  | load _ _ _ _ _ _ _ => exact ⟨dropReplay_work _ _ _, dropReplay_replayBuffer _ _ _⟩
  | store _ _ _ _ _ _ _ => exact ⟨dropReplay_work _ _ _, dropReplay_replayBuffer _ _ _⟩

end Cases

namespace Holding

variable {D q : List RenamedInst} {sb : Scoreboards} {w : LsuWork} {T : InstTable}

/-- Fewer callbacks wait. -/
theorem setCallbacks (H : Holding D q sb w T) {cbs : List LsuCallback}
    (h : ∀ cb ∈ cbs, cb ∈ w.callbacks) : Holding D q sb { w with callbacks := cbs } T :=
  ⟨H.queue, H.present, H.asked, fun cb hcb =>
    ⟨(H.waits cb (h cb hcb)).known, (H.waits cb (h cb hcb)).store, (H.waits cb (h cb hcb)).status⟩,
    H.replay⟩

theorem setPending (H : Holding D q sb w T) {pending : Option RenamedInst}
    (h : ∀ ri ∈ pending, ri ∈ D ∧ T.status ri.key ≠ .dispatched) :
    Holding D q sb { w with mmuPending := pending } T := by
  refine ⟨H.queue, H.present, fun ri hri => ?_, fun cb hcb => ?_, H.replay⟩
  · obtain hri | hri | hri := hri
    · exact H.asked ri (.inl hri)
    · exact h ri hri
    · exact H.asked ri (.inr (.inr hri))
  · exact ⟨(H.waits cb hcb).known, (H.waits cb hcb).store, (H.waits cb hcb).status⟩

theorem dropReplay {p : LsuParams} {s : LsuState} (H : Holding D q sb s.work T)
    (ri : RenamedInst) : Holding D q sb (dropReplay p s ri).work T := by
  refine ⟨H.queue, fun e he => H.present e (dropReplay_work_at he), fun e he => H.asked e ?_,
    fun cb hcb => ?_, H.replay.sublist ((dropReplay_replayBuffer p s ri).map _)⟩
  · rw [dropReplay_work] at he
    exact he
  · rw [dropReplay_work] at hcb ⊢
    exact ⟨(H.waits cb hcb).known, (H.waits cb hcb).store, (H.waits cb hcb).status⟩

/-- A retired store goes to the ready queue. -/
theorem retry {ri : RenamedInst} {f : LoadStoreInstInfo → LoadStoreInstInfo}
    (H : Holding D q sb w T) (hmem : ri ∈ D) (hst : T.status ri.key = .retired) :
    Holding D q sb { w.modifyInfo ri.key f with appendReady := w.appendReady ++ [ri] } T := by
  refine ⟨H.queue, fun e he => ?_, H.asked, fun cb hcb => ?_, H.replay⟩
  · obtain he | he | he | he | he | he := he
    · exact H.present e (.inl he)
    · exact H.present e (.inr (.inl he))
    · exact H.present e (.inr (.inr (.inl he)))
    · exact H.present e (.inr (.inr (.inr (.inl he))))
    · rcases List.mem_append.mp he with he | he
      · exact H.present e (.inr (.inr (.inr (.inr (.inl he)))))
      · rw [List.mem_singleton.mp he]
        simp [hmem, hst]
    · exact H.present e (.inr (.inr (.inr (.inr (.inr he)))))
  · exact ⟨(H.waits cb hcb).known, (H.waits cb hcb).store, (H.waits cb hcb).status⟩

/-- An instruction that no callback waits for leaves the queue. -/
theorem pop {q' : List RenamedInst} {k : InstKey} (H : Holding D q sb w T)
    (hcb : ∀ cb ∈ w.callbacks, cb.inst.key ≠ k) (hsub : ∀ ri ∈ q', ri ∈ q)
    (hq' : ∀ ri ∈ q, ri.key ≠ k → ri ∈ q') : Holding D q' sb w T := by
  refine ⟨fun ri hri => H.queue ri (hsub ri hri), H.present, H.asked, fun cb hmem => ?_, H.replay⟩
  obtain ⟨hknown, hstore, hwait⟩ := H.waits cb hmem
  exact ⟨hknown, hstore, hwait.imp id fun h => ⟨hq' _ h.1 (hcb cb hmem), h.2⟩⟩

/-- A status changes behind the operand check, of an instruction that no callback waits for. -/
theorem setStatus {q' : List RenamedInst} {k : InstKey} {st : InstStatus}
    (hst : st ≠ .dispatched ∧ st ≠ .flushed) (H : Holding D q sb w T)
    (hcb : ∀ cb ∈ w.callbacks, cb.inst.key ≠ k) (hsub : ∀ ri ∈ q', ri ∈ q)
    (hq' : ∀ ri ∈ q, ri.key ≠ k → ri ∈ q')
    (hk : ∀ ri ∈ q', ri.key = k → st = .scheduled ∨
      ri.inst.isStore = true ∧ (st = .completed ∨ st = .retired)) :
    Holding D q' sb w (T.setStatus k st) := by
  have hstatus : ∀ k', (T.setStatus k st).status k' = if k' = k then st else T.status k' := by
    intro k'
    by_cases h : k' = k
    · subst h
      simp [InstTable.setStatus]
    · simp [InstTable.setStatus, h]
  refine ⟨fun ri hri => ?_, fun ri hri => ?_, fun ri hri => ?_, fun cb hmem => ?_, H.replay⟩
  · rw [hstatus]
    split
    · rename_i hkey
      exact .inr (hk ri hri hkey)
    · exact H.queue ri (hsub ri hri)
  · rw [hstatus]
    obtain ⟨hD, hne⟩ := H.present ri hri
    refine ⟨hD, ?_⟩
    split
    · exact hst
    · exact hne
  · rw [hstatus]
    obtain ⟨hD, hne⟩ := H.asked ri hri
    refine ⟨hD, ?_⟩
    split
    · exact hst.1
    · exact hne
  · obtain ⟨hknown, hstore, hwait⟩ := H.waits cb hmem
    refine ⟨hknown, hstore, ?_⟩
    rw [hstatus, if_neg (hcb cb hmem)]
    exact hwait.imp id fun h => ⟨hq' _ h.1 (hcb cb hmem), h.2⟩

/-- No callback waits for what is in the pipeline or further. -/
theorem callback_ne {ri : RenamedInst} (hD : (D.map RenamedInst.key).Nodup)
    (H : Holding D q sb w T) (hmem : ri ∈ D)
    (hst : (∃ n, w.stages n = some ri) ∨ T.status ri.key = .completed ∨
      T.status ri.key = .retired) : ∀ cb ∈ w.callbacks, cb.inst.key ≠ ri.key := by
  intro cb hcb hkey
  obtain ⟨hknown, -, hwait⟩ := H.waits cb hcb
  obtain rfl := eq_of_key hD hknown hmem hkey
  rcases hst with ⟨n, hn⟩ | hst | hst
  · obtain ⟨-, hne, hnf⟩ := H.present _ (.inr (.inr (.inr (.inl ⟨n, hn⟩))))
    rcases hwait with h | ⟨-, h | ⟨-, -, h⟩⟩
    · exact hnf h
    · exact hne h
    · exact h n hn
  · simp [hst] at hwait
  · simp [hst] at hwait

end Holding

end Lsu

/-! ## The invariant -/

namespace LsuSystem

/-- The invariant that all other invariants of the LSU rest on. -/
structure Inv (s : LsuSystem) : Prop where
  keys : (s.dispatched.map RenamedInst.key).Nodup
  sorted : s.dispatched.Pairwise fun a b => a.uniqueId ≤ b.uniqueId
  queue : s.queue.Sublist s.dispatched
  holding : Holding s.dispatched s.queue s.sb s.work s.table
  reloads : ∀ ri ∈ s.reloads, ri ∈ s.dispatched ∧ s.table.status ri.key ≠ .dispatched
  acks : ∀ ri ∈ s.acks, ri ∈ s.dispatched ∧ s.table.status ri.key = .retired
  between : s.phase = .portUpdate →
    s.work.appended = none ∧ s.work.mmuRequests = [] ∧ s.done = []

namespace Inv

variable {p : LsuParams} {s s' : LsuSystem} {op : LsuSystemOp}

theorem mem_dispatched (H : Inv s) {ri : RenamedInst} (h : ri ∈ s.queue) : ri ∈ s.dispatched :=
  H.queue.subset h

theorem init : Inv ({} : LsuSystem) where
  keys := List.nodup_nil
  sorted := .nil
  queue := List.Sublist.refl _
  holding := by
    refine ⟨fun ri h => ?_, fun ri h => ?_, fun ri h => ?_, fun cb h => ?_, List.nodup_nil⟩
    · cases h
    · obtain h | h | h | ⟨n, h⟩ | h | h := h <;> cases h
    · obtain h | h | h := h <;> cases h
    · cases h
  reloads := fun _ h => by cases h
  acks := fun _ h => by cases h
  between := fun _ => ⟨rfl, rfl, rfl⟩

/-- The status of an instruction that a flush leaves alone stays. -/
theorem flush_status (H : Inv s) {c : FlushingCriteria} {ri : RenamedInst}
    (hri : ri ∈ s.dispatched) :
    (s.table.setStatuses ((s.dispatched.filter fun e => c.includedInFlush e.inst).map
      RenamedInst.key) .flushed).status ri.key =
      if c.includedInFlush ri.inst then .flushed else s.table.status ri.key := by
  by_cases hinc : c.includedInFlush ri.inst = true
  · rw [if_pos hinc]
    exact if_pos (List.mem_map.mpr ⟨ri, List.mem_filter.mpr ⟨hri, hinc⟩, rfl⟩)
  · rw [if_neg hinc]
    refine if_neg fun hmem => ?_
    obtain ⟨e, he, hkey⟩ := List.mem_map.mp hmem
    obtain ⟨he, hinc'⟩ := List.mem_filter.mp he
    obtain rfl := eq_of_key H.keys he hri hkey
    exact hinc hinc'

/-- What a flush leaves at its place is not flushed. -/
theorem at_of_flush {c : FlushingCriteria} {ri : RenamedInst}
    (happ : s.work.appended = none) (h : (handleFlush s.lsu c).1.work.At ri) :
    s.work.At ri ∧ c.includedInFlush ri.inst = false := by
  have hkeep : ∀ {l : List RenamedInst}, ri ∈ l.filter (fun e => !c.includedInFlush e.inst) →
      ri ∈ l ∧ c.includedInFlush ri.inst = false := by
    intro l hl
    simpa using List.mem_filter.mp hl
  obtain h | h | h | ⟨n, h⟩ | h | h := h
  · exact ⟨.inl (hkeep h).1, (hkeep h).2⟩
  · exact ⟨.inr (.inl (hkeep h).1), (hkeep h).2⟩
  · have h : s.work.appended = some ri := h
    rw [happ] at h
    cases h
  · obtain ⟨h, hinc⟩ := Option.filter_eq_some_iff.mp h
    exact ⟨.inr (.inr (.inr (.inl ⟨n, h⟩))), by simpa using hinc⟩
  · exact ⟨.inr (.inr (.inr (.inr (.inl (hkeep h).1)))), (hkeep h).2⟩
  · exact ⟨.inr (.inr (.inr (.inr (.inr (hkeep h).1)))), (hkeep h).2⟩

theorem flush (H : Inv s) {c : FlushingCriteria} (happ : s.work.appended = none) :
    Holding s.dispatched (handleFlush s.lsu c).1.ldstInstQueue s.sb (handleFlush s.lsu c).1.work
      (s.table.setStatuses ((s.dispatched.filter fun e => c.includedInFlush e.inst).map
        RenamedInst.key) .flushed) := by
  refine ⟨fun ri hri => ?_, fun ri hri => ?_, fun ri hri => ?_, fun cb hcb => ?_,
    H.holding.replay.sublist (List.filter_sublist.map _)⟩
  · obtain ⟨hri, hinc⟩ := List.mem_filter.mp hri
    rw [H.flush_status (H.mem_dispatched hri), if_neg (by simpa using hinc)]
    exact H.holding.queue ri hri
  · obtain ⟨hat, hinc⟩ := at_of_flush happ hri
    obtain ⟨hD, hst⟩ := H.holding.present ri hat
    rw [H.flush_status hD, if_neg (by simp [hinc])]
    exact ⟨hD, hst⟩
  · obtain ⟨hD, hst⟩ := H.holding.asked ri hri
    rw [H.flush_status hD]
    refine ⟨hD, ?_⟩
    split
    · simp
    · exact hst
  · obtain ⟨hknown, hstore, hwait⟩ := H.holding.waits cb (List.mem_of_mem_filter hcb)
    refine ⟨hknown, hstore, ?_⟩
    rw [H.flush_status hknown]
    split
    · exact .inl rfl
    · rename_i hinc
      refine hwait.imp id fun ⟨hri, h⟩ => ⟨List.mem_filter.mpr ⟨hri, by simpa using hinc⟩, ?_⟩
      refine h.imp id fun ⟨hsched, hset, hstages⟩ => ⟨hsched, hset, fun n hn => ?_⟩
      exact hstages n (Option.filter_eq_some_iff.mp hn).1

/-- A step that changes only the objects in the LSU and the statuses. -/
theorem of_holding (H : Inv s) {w : LsuWork} {T : InstTable} {buffer : List RenamedInst}
    {i : Bool} {done : List LsuEvent}
    (hholding : Holding s.dispatched s.queue s.sb w T)
    (hstatus : ∀ k, (s.table.status k ≠ .dispatched → T.status k ≠ .dispatched) ∧
      (s.table.status k = .retired → T.status k = .retired))
    (hbetween : s.phase = .portUpdate →
      w.appended = none ∧ w.mmuRequests = [] ∧ done = []) :
    Inv { s with
      lsu := { ldstInstQueue := s.queue, storeBuffer := buffer, work := w }
      table := T, done := done, issueNow := i } where
  keys := H.keys
  sorted := H.sorted
  queue := H.queue
  holding := hholding
  reloads ri h := ⟨(H.reloads ri h).1, (hstatus _).1 (H.reloads ri h).2⟩
  acks ri h := ⟨(H.acks ri h).1, (hstatus _).2 (H.acks ri h).2⟩
  between := hbetween

theorem mmuReady_moves {Ap Ab : LsuWork → RenamedInst → Prop} {Re : Prop} (H : Inv s)
    {ri : RenamedInst}
    {rest : List RenamedInst} {w : LsuWork} (hreloads : s.reloads = ri :: rest)
    (h : handleMMUReadyReq p s.queue { s.work with mmuPending := some ri } s.table =
      some (.ok w)) :
    Relation.ReflTransGen (LsuMove p s.sb s.queue Ap Ab Re)
      ({ s.work with mmuPending := some ri }, s.table) (w, s.table) := by
  refine handleMMUReadyReq_moves (fun e he => ?_) h
  rw [← Option.some.inj (Option.mem_def.mp he)]
  exact (H.reloads ri (by rw [hreloads]; exact List.mem_cons_self)).2

theorem work_moves {Ap Ab : LsuWork → RenamedInst → Prop} {Re : Prop} (H : Inv s) {op : LsuOp}
    {w : LsuWork} {T : InstTable} (hen : s.workEnabled op = true)
    (hcallback : ∀ n, op ≠ .callback n)
    (hAp : ∀ n ri, op = .appendReady n → s.work.appendReady[n]? = some ri →
      (s.work.info ri.key).inReadyQueue = false → inQueue s.work.replayBuffer ri = false →
        Ap s.work ri)
    (hAb : ∀ n w₁ ri e, op = .mmuAck n true → s.work.mmuRequests[n]? = some ri →
      ri.inst.isStore = true → p.allowSpeculativeLoadExec = true →
        w₁.appended = s.work.appended → e ∈ abortedLoads s.work ri → Ab w₁ e)
    (hRe : op = .cacheRead → Re)
    (h : workStep p s.lsu s.table s.sb op = .ok (w, T)) :
    Relation.ReflTransGen (LsuMove p s.sb s.queue Ap Ab Re) (s.work, s.table) (w, T) := by
  have hadvance : op ≠ .advance := by
    rintro rfl
    cases hen
  refine workStep_moves hcallback hadvance H.holding.replay (fun ri hri hin => ?_)
    (fun ri hri => (H.holding.asked ri (.inr (.inl hri))).2)
    (fun ri hri => (H.holding.asked ri (.inr (.inr hri))).2) hAp hAb hRe h
  obtain ⟨e, he, hkey⟩ := inQueue_iff.mp hin
  have hD := (H.holding.asked ri (.inr (.inr hri))).1
  exact eq_of_key H.keys (H.mem_dispatched he) hD hkey ▸ he

/-- The moves of a handler, with nothing said about what it appends, aborts and reads. -/
theorem any_moves (H : Inv s) {op : LsuOp} {w : LsuWork} {T : InstTable}
    (hen : s.workEnabled op = true) (hcallback : ∀ n, op ≠ .callback n)
    (h : workStep p s.lsu s.table s.sb op = .ok (w, T)) :
    Relation.ReflTransGen
      (LsuMove p s.sb s.queue (fun _ _ => True) (fun _ _ => True) True)
      (s.work, s.table) (w, T) :=
  H.work_moves hen hcallback (fun _ _ _ _ _ _ => trivial)
    (fun _ _ _ _ _ _ _ _ _ _ => trivial) (fun _ => trivial) h

/-- The writeback sets bits. -/
theorem keeps_of_writeback {sb sb' : Scoreboards} {ri : RenamedInst}
    (h : writeback sb ri = .ok sb') (e : RenamedInst) : sb.Keeps sb' e :=
  fun f b _ => View.lsuWriteback_grows h f b

theorem mem_eraseP {q : List RenamedInst} {ri e : RenamedInst} (he : e ∈ q)
    (hkey : e.key ≠ ri.key) : e ∈ q.eraseP fun e => decide (e.key = ri.key) :=
  (List.mem_eraseP_of_neg (by simpa using hkey)).mpr he

theorem key_ne_of_mem_eraseP {q : List RenamedInst} {ri e : RenamedInst}
    (hq : (q.map RenamedInst.key).Nodup)
    (he : e ∈ q.eraseP fun e => decide (e.key = ri.key)) : e.key ≠ ri.key := by
  induction q with
  | nil => cases he
  | cons a q ih =>
    rw [List.map_cons] at hq
    obtain ⟨hnot, hq⟩ := List.nodup_cons.mp hq
    by_cases ha : a.key = ri.key
    · rw [List.eraseP_cons_of_pos (by simpa using ha)] at he
      intro hkey
      exact hnot (List.mem_map.mpr ⟨e, he, hkey.trans ha.symm⟩)
    · rw [List.eraseP_cons_of_neg (by simpa using ha)] at he
      rcases List.mem_cons.mp he with rfl | he
      · exact ha
      · exact ih hq he

theorem complete (H : Inv s) {out : CompleteOut} (h : completeInst p s.lsu s.table s.sb = .ok out) :
    Holding s.dispatched out.state.ldstInstQueue out.scoreboards out.state.work out.table ∧
      out.state.ldstInstQueue.Sublist s.queue ∧
      (∀ k, (s.table.status k ≠ .dispatched → out.table.status k ≠ .dispatched) ∧
        (s.table.status k = .retired → out.table.status k = .retired)) := by
  have hsame : ∀ k, (s.table.status k ≠ .dispatched → s.table.status k ≠ .dispatched) ∧
      (s.table.status k = .retired → s.table.status k = .retired) := fun _ => ⟨id, id⟩
  cases completeInst_cases h with
  | idle _ => exact ⟨H.holding, List.Sublist.refl _, hsame⟩
  | wait _ _ hsb _ _ =>
    exact ⟨H.holding.scoreboards fun e _ => keeps_of_writeback hsb e, List.Sublist.refl _, hsame⟩
  | again _ _ hsb _ =>
    rw [dropReplay_ldstInstQueue]
    refine ⟨(H.holding.dropReplay _).scoreboards fun e _ => keeps_of_writeback hsb e,
      List.Sublist.refl _, hsame⟩
  | @load ri sb' hri _ hsb _ hret _ _ =>
    obtain ⟨hmem, hne, -⟩ := H.holding.present ri (.inr (.inr (.inr (.inl ⟨_, hri⟩))))
    have hcb := H.holding.callback_ne H.keys hmem (.inl ⟨_, hri⟩)
    refine ⟨?_, by simpa [LsuSystem.queue] using List.eraseP_sublist, fun k => ?_⟩
    · have Hsb := H.holding.scoreboards fun e _ => keeps_of_writeback hsb e
      refine Holding.dropReplay (s := { s.lsu with ldstInstQueue := _ }) ?_ ri
      rw [dropReplay_ldstInstQueue]
      refine Hsb.setStatus (by simp) hcb (fun e he => List.mem_of_mem_eraseP he)
        (fun e => mem_eraseP) fun e he hkey => ?_
      exact absurd hkey (key_ne_of_mem_eraseP (H.keys.sublist (H.queue.map _)) he)
    · by_cases hk : k = ri.key
      · subst hk
        exact ⟨fun _ => by simp [InstTable.setStatus], fun h => absurd h hret⟩
      · simp [InstTable.setStatus, hk]
  | @store ri sb' hri _ hsb _ hret _ _ =>
    obtain ⟨hmem, hne, -⟩ := H.holding.present ri (.inr (.inr (.inr (.inl ⟨_, hri⟩))))
    have hcb := H.holding.callback_ne H.keys hmem (.inl ⟨_, hri⟩)
    refine ⟨?_, by simpa [LsuSystem.queue] using List.eraseP_sublist, hsame⟩
    have Hsb := H.holding.scoreboards fun e _ => keeps_of_writeback hsb e
    refine Holding.dropReplay (s := { s.lsu with ldstInstQueue := _ }) ?_ ri
    rw [dropReplay_ldstInstQueue]
    exact Hsb.pop hcb (fun e he => List.mem_of_mem_eraseP he) fun e => mem_eraseP

/-- The next instruction has a new key. -/
theorem fresh {ri e : RenamedInst} (hnext : s.isNext ri = true) (he : e ∈ s.dispatched) :
    e.key ≠ ri.key :=
  (of_decide_eq_true (List.all_eq_true.mp hnext e he)).2

theorem keys_append (H : Inv s) {ri : RenamedInst} (hnext : s.isNext ri = true) :
    ((s.dispatched ++ [ri]).map RenamedInst.key).Nodup := by
  rw [List.map_append, List.nodup_append]
  refine ⟨H.keys, List.nodup_singleton _, ?_⟩
  rintro a ha b hb rfl
  obtain ⟨e, he, hkey⟩ := List.mem_map.mp ha
  exact fresh hnext he (hkey.trans (List.mem_singleton.mp hb))

/-- The next instruction has arrived, and waits for its check. -/
theorem arrive (H : Inv s) {ri : RenamedInst} {stale : Bool} (hnext : s.isNext ri = true) :
    Holding (s.dispatched ++ [ri]) (s.queue ++ [ri]) s.sb
      (s.work.modifyInfo ri.key fun _ => { inReadyQueue := stale })
      (s.table.setStatus ri.key .dispatched) :=
  H.holding.arrive (fun _ => H.mem_dispatched) fun _ he => fresh hnext he

theorem check_status_of_arrive (H : Inv s) {ri : RenamedInst} {stale : Bool} {w : LsuWork}
    {T : InstTable} (hnext : s.isNext ri = true)
    (h : OperandCheck p s.sb (s.queue ++ [ri])
      (s.work.modifyInfo ri.key fun _ => { inReadyQueue := stale })
      (s.table.setStatus ri.key .dispatched) ri (w, T)) {e : RenamedInst}
    (he : e ∈ s.dispatched) : T.status e.key = s.table.status e.key := by
  have hq : ∀ e ∈ s.queue ++ [ri], e ∈ s.dispatched ++ [ri] := fun e he =>
    (H.queue.append (List.Sublist.refl _)).subset he
  have hmem : ri ∈ s.queue ++ [ri] := by simp
  rcases (H.arrive hnext).check_status (H.keys_append hnext) hq (hq ri hmem)
    (.inr ⟨hmem, .inl (by simp [InstTable.setStatus])⟩) h e.key with heq | ⟨hkey, -⟩
  · rw [heq]
    simp [InstTable.setStatus, fresh hnext he]
  · exact absurd hkey (fresh hnext he)

/-- What is known of an instruction whose callback fires. -/
theorem callback_status (H : Inv s) {n : ℕ} {cb : LsuCallback}
    (hcb : s.work.callbacks[n]? = some cb) : cb.inst ∈ s.dispatched ∧
      (s.table.status cb.inst.key = .flushed ∨ cb.inst ∈ s.queue ∧
        (s.table.status cb.inst.key = .dispatched ∨ s.table.status cb.inst.key = .scheduled)) := by
  obtain ⟨hknown, -, hwait⟩ := H.holding.waits cb (List.mem_of_getElem? hcb)
  exact ⟨hknown, hwait.imp id fun h => ⟨h.1, h.2.imp id And.left⟩⟩

/-- Before the check of a callback. -/
theorem callback (H : Inv s) (n : ℕ) : Holding s.dispatched s.queue s.sb
    { s.work with callbacks := s.work.callbacks.eraseIdx n } s.table :=
  H.holding.setCallbacks fun _ => List.mem_of_mem_eraseIdx

theorem step (H : Inv s) (h : s.step p op = .ok s') : Inv s' := by
  cases step_stepped h with
  | @dispatch ri stale i w T hphase hnext hcheck _ =>
    have hqueue : (s.queue ++ [ri]).Sublist (s.dispatched ++ [ri]) :=
      H.queue.append (List.Sublist.refl _)
    have hother := fun e he => H.check_status_of_arrive (e := e) hnext hcheck he
    refine ⟨H.keys_append hnext, ?_, hqueue, ?_, fun e he => ?_, fun e he => ?_, fun _ => ?_⟩
    · refine List.pairwise_append.mpr ⟨H.sorted, List.pairwise_singleton _ _, ?_⟩
      intro a ha b hb
      rw [List.mem_singleton.mp hb]
      exact (of_decide_eq_true (List.all_eq_true.mp hnext a ha)).1
    · have hmem : ri ∈ s.queue ++ [ri] := by simp
      exact (H.arrive hnext).check (H.keys_append hnext) (fun e he => hqueue.subset he)
        (hqueue.subset hmem) (.inr ⟨hmem, .inl (by simp [InstTable.setStatus])⟩) hcheck
    · obtain ⟨hD, hne⟩ := H.reloads e he
      exact ⟨List.mem_append_left _ hD, by rw [hother e hD]; exact hne⟩
    · obtain ⟨hD, hret⟩ := H.acks e he
      exact ⟨List.mem_append_left _ hD, by rw [hother e hD]; exact hret⟩
    · have hrest := hcheck.rest
      dsimp only at hrest
      show w.appended = none ∧ w.mmuRequests = [] ∧ s.done = []
      rw [hrest]
      exact H.between hphase
  | @retire n ri hri hphase hstatus =>
    have hmem := List.mem_of_getElem? hri
    have hcb := H.holding.callback_ne H.keys hmem (.inr (.inl hstatus))
    have hkeep : ∀ k, (s.table.status k ≠ .dispatched →
          (s.table.setStatus ri.key .retired).status k ≠ .dispatched) ∧
        (s.table.status k = .retired →
          (s.table.setStatus ri.key .retired).status k = .retired) := by
      intro k
      by_cases hk : k = ri.key
      · subst hk
        simp [InstTable.setStatus]
      · simp [InstTable.setStatus, hk]
    refine ⟨H.keys, H.sorted, H.queue, ?_, fun e he => ?_, fun e he => ?_, H.between⟩
    · refine H.holding.setStatus (by simp) hcb (fun e he => he) (fun e he _ => he)
        fun e he hkey => .inr ⟨?_, .inr rfl⟩
      rcases H.holding.queue e he with hst | hst | ⟨hstore, -⟩
      · rw [hkey, hstatus] at hst
        cases hst
      · rw [hkey, hstatus] at hst
        cases hst
      · exact hstore
    · exact ⟨(H.reloads e he).1, (hkeep _).1 (H.reloads e he).2⟩
    · have hcases : e ∈ s.acks ∨ e = ri := by
        have he : e ∈ if ri.inst.isStore then s.acks ++ [ri] else s.acks := he
        split at he
        · exact (List.mem_append.mp he).imp id List.mem_singleton.mp
        · exact .inl he
      rcases hcases with he | rfl
      · exact ⟨(H.acks e he).1, (hkeep _).2 (H.acks e he).2⟩
      · exact ⟨hmem, by simp [InstTable.setStatus]⟩
  | @robAck ri rest buffer i f hphase hacks hin hf _ =>
    obtain ⟨hmem, hret⟩ := H.acks ri (by rw [hacks]; exact List.mem_cons_self)
    exact ⟨H.keys, H.sorted, H.queue, H.holding.retry hmem hret, H.reloads,
      fun e he => H.acks e (by rw [hacks]; exact List.mem_cons_of_mem _ he), H.between⟩
  | @flush c i j hphase hretired _ _ =>
    refine ⟨H.keys, H.sorted, List.filter_sublist.trans H.queue,
      H.flush (H.between hphase).1, fun e he => ?_, fun e he => ?_, H.between⟩
    · obtain ⟨hD, hne⟩ := H.reloads e he
      refine ⟨hD, ?_⟩
      show InstTable.status (s.table.setStatuses _ _) _ ≠ _
      rw [H.flush_status hD]
      split
      · simp
      · exact hne
    · obtain ⟨hD, hret⟩ := H.acks e he
      refine ⟨hD, ?_⟩
      show InstTable.status (s.table.setStatuses _ _) _ = _
      rw [H.flush_status hD, if_neg fun hinc => hretired e hD hinc hret]
      exact hret
  | @setBits f mask =>
    refine { H with holding := H.holding.scoreboards fun ri _ f' b _ hb => ?_ }
    by_cases hf : f' = f
    · subst hf
      simp [Scoreboard.setReady, hb]
    · simpa [hf] using hb
  | @clearBits f mask hclear =>
    refine { H with holding := H.holding.scoreboards fun ri hri f' b hreads hb => ?_ }
    by_cases hf : f' = f
    · subst hf
      have hnot : b ∉ mask := fun hmask =>
        Finset.disjoint_left.mp (hclear ri hri) hmask (by simpa using hreads)
      simp [Scoreboard.clearBits, hnot, hb]
    · simpa [hf] using hb
  | @lookupInst ri hphase hpending =>
    refine ⟨H.keys, H.sorted, H.queue, H.holding.setPending (by simp), fun e he => ?_, H.acks,
      H.between⟩
    rcases List.mem_append.mp he with he | he
    · exact H.reloads e he
    · rw [List.mem_singleton.mp he]
      exact H.holding.asked ri (.inr (.inl hpending))
  | @mmuReady ri rest w i hphase hreloads hready _ =>
    have hri := H.reloads ri (by rw [hreloads]; exact List.mem_cons_self)
    have Hp : Holding s.dispatched s.queue s.sb { s.work with mmuPending := some ri } s.table :=
      H.holding.setPending fun e he => by
        rw [← Option.some.inj (Option.mem_def.mp he)]
        exact hri
    have hmoves : Relation.ReflTransGen
        (LsuMove p s.sb s.queue (fun _ _ => True) (fun _ _ => True) True)
        ({ s.work with mmuPending := some ri }, s.table) (w, s.table) :=
      H.mmuReady_moves hreloads hready
    have Hm := Hp.moves H.keys (fun e he => H.mem_dispatched he) hmoves
    refine ⟨H.keys, H.sorted, H.queue,
      Hm.setPending fun e he => H.holding.asked e (.inr (.inl he)),
      fun e he => H.reloads e (by rw [hreloads]; exact List.mem_cons_of_mem _ he), H.acks,
      fun _ => ?_⟩
    show w.appended = none ∧ w.mmuRequests = [] ∧ s.done = []
    rw [handleMMUReadyReq_rest hready]
    exact H.between hphase
  | issueInst hcan hnow hissue _ =>
    have hphase := (of_decide_eq_true hcan).1
    exact { H with
      holding := H.holding.issue (issueInst_issued hissue)
      between := fun h => by rw [show s.phase = _ from h] at hphase; cases hphase }
  | addressCalculation hcan _ =>
    have hphase := (of_decide_eq_true hcan).1
    exact { H with
      between := fun h => by rw [show s.phase = _ from h] at hphase; cases hphase }
  | complete hcan hout _ =>
    have hphase := (of_decide_eq_true hcan).1
    obtain ⟨hholding, hsub, hstatus⟩ := H.complete hout
    exact ⟨H.keys, H.sorted, hsub.trans H.queue, hholding,
      fun e he => ⟨(H.reloads e he).1, (hstatus _).1 (H.reloads e he).2⟩,
      fun e he => ⟨(H.acks e he).1, (hstatus _).2 (H.acks e he).2⟩,
      fun h => by rw [show s.phase = _ from h] at hphase; cases hphase⟩
  | @callback n cb w T i hcb hdue hcheck _ =>
    obtain ⟨hknown, hst⟩ := H.callback_status hcb
    have Hcb := H.callback n
    refine H.of_holding
      (Hcb.check H.keys (fun e he => H.mem_dispatched he) hknown hst hcheck) (fun k => ?_)
      fun hphase => ?_
    · rcases Hcb.check_status H.keys (fun e he => H.mem_dispatched he) hknown hst hcheck k with
        heq | ⟨-, -, hk, -⟩
      · rw [heq]
        exact ⟨id, id⟩
      · simp [hk]
    · have hrest := hcheck.rest
      dsimp only at hrest
      rw [hrest]
      exact H.between hphase
  | @work op w T i hen hcallback hwork _ =>
    have hmoves := H.any_moves hen hcallback hwork
    refine H.of_holding (H.holding.moves H.keys (fun e he => H.mem_dispatched he) hmoves)
      (Holding.status_of_moves hmoves) fun hphase => ?_
    -- between the cycles the cache answers, and callbacks fire
    cases op with
    | callback n => exact absurd rfl (hcallback n)
    | cacheReady n =>
      obtain ⟨w₁, hw₁, hwork⟩ := Run.bind_eq_ok.mp hwork
      obtain ⟨rfl, rfl⟩ := Prod.mk.inj (Except.ok.inj hwork)
      rw [handleCacheReadyReq_rest (outstanding_eq_ok.mp hw₁)]
      obtain ⟨happ, hreq, hdone⟩ := H.between hphase
      exact ⟨happ, hreq, by simp [hdone, event]⟩
    | _ => simp [workEnabled, hphase] at hen
  | tick hphase => exact { H with between := fun h => by cases h }
  | nextCycle hover =>
    simp only [cycleOver, Bool.and_eq_true, Bool.not_eq_true', List.isEmpty_iff,
      List.all_eq_true] at hover
    obtain ⟨⟨⟨⟨-, hreq⟩, -⟩, hdue⟩, -⟩ := hover
    exact { H with
      holding := H.holding.advance hdue
      between := fun _ => ⟨rfl, hreq, rfl⟩ }

/-- What a step can do to the status of an instruction. -/
inductive StatusStep : InstStatus → InstStatus → Prop where
  | same (st : InstStatus) : StatusStep st st
  | schedule : StatusStep .dispatched .scheduled
  | complete {st : InstStatus} (h : st = .dispatched ∨ st = .scheduled) : StatusStep st .completed
  | retire : StatusStep .completed .retired
  | flush {st : InstStatus} (h : st ≠ .retired) : StatusStep st .flushed

theorem StatusStep.then_schedule {a b : InstStatus} (h : StatusStep a b) (hb : b = .dispatched) :
    StatusStep a .scheduled := by
  cases h with
  | same => exact hb ▸ .schedule
  | _ => cases hb

theorem StatusStep.then_complete {a b : InstStatus} (h : StatusStep a b) (hb : b = .scheduled) :
    StatusStep a .completed := by
  cases h with
  | same => exact .complete (.inr hb)
  | schedule => exact .complete (.inl rfl)
  | _ => cases hb

theorem statusStep (H : Inv s) (h : s.step p op = .ok s') {e : RenamedInst}
    (he : e ∈ s.dispatched) : StatusStep (s.table.status e.key) (s'.table.status e.key) := by
  cases step_stepped h with
  | dispatch hphase hnext hcheck hi =>
    show StatusStep _ (InstTable.status _ _)
    rw [H.check_status_of_arrive hnext hcheck he]
    exact .same _
  | @retire n ri hri hphase hstatus =>
    show StatusStep _ ((s.table.setStatus ri.key .retired).status e.key)
    rw [InstTable.setStatus_status]
    split
    · rename_i hkey
      rw [hkey, hstatus]
      exact .retire
    · exact .same _
  | @flush c i j hphase hretired hi hj =>
    show StatusStep _ ((s.table.setStatuses _ _).status e.key)
    rw [H.flush_status he]
    split
    · rename_i hinc
      exact .flush (hretired e he hinc)
    · exact .same _
  | @complete out i hcan hout hi =>
    cases completeInst_cases hout with
    | @load ri sb' hri _ _ hload hret hcompl hin =>
      show StatusStep _ ((s.table.setStatus ri.key .completed).status e.key)
      rw [InstTable.setStatus_status]
      split
      · rename_i hkey
        obtain ⟨hmem, hne, -⟩ := H.holding.present ri (.inr (.inr (.inr (.inl ⟨_, hri⟩))))
        obtain ⟨r, hr, hkey'⟩ := inQueue_iff.mp hin
        obtain rfl := eq_of_key H.keys (H.mem_dispatched hr) hmem hkey'
        rw [hkey]
        rcases H.holding.queue r hr with hst | hst | ⟨hstore, -⟩
        · exact absurd hst hne
        · exact .complete (.inr hst)
        · rw [hload] at hstore
          cases hstore
      · exact .same _
    | _ => exact .same _
  | @callback n cb w T i hcb hdue hcheck hi =>
    obtain ⟨hknown, hst⟩ := H.callback_status hcb
    rcases (H.callback n).check_status H.keys (fun _ => H.mem_dispatched) hknown hst hcheck e.key
      with heq | ⟨-, -, hdisp, hsched⟩
    · show StatusStep _ (T.status e.key)
      rw [heq]
      exact .same _
    · show StatusStep _ (T.status e.key)
      rw [hdisp, hsched]
      exact .schedule
  | @work op w T i hen hcallback hwork hi =>
    have hmoves := H.any_moves hen hcallback hwork
    refine LsuMove.invariant
      (I := fun x => StatusStep (s.table.status e.key) (x.2.status e.key)) ?_ (.same _) hmoves
    intro x y hx hmove
    rcases hmove.status e.key with heq | ⟨hst, hst', -⟩ | ⟨hst, hst', -⟩
    · rw [heq]
      exact hx
    · rw [hst']
      exact hx.then_schedule hst
    · rw [hst']
      exact hx.then_complete hst
  | _ => exact .same _

theorem reachable (h : Run.Reachable (LsuSystem.step p) {} s) : Inv s :=
  h.invariant init fun _ _ _ H => H.step

end Inv

end LsuSystem

end Olympia
