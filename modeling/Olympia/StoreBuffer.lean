import Olympia.InStepFlow
import Olympia.OperandsReady
import Olympia.Lsu.Uncached

/-!
# The store buffer and the retired stores

The ROB tells the LSU of every store it retires, and the LSU takes it for the oldest entry of its
store buffer.  This is right as long as every store is dispatched to the LSU: then the store
buffer, with the stores on their way to it, is what the ROB still has to retire or has just
retired (`Flow`).  A store leaves `ldst_inst_queue_` only after the cache has been asked about it,
which is not before it has retired, and the message of the ROB arrives before the pipeline moves
(`ClockedCore`).
-/

namespace Olympia

/-! ## The LSU and the other units -/

namespace Units

/-- What a handler of the units does to the LSU. -/
inductive LsuEffect (p : LsuParams) (s : LsuState) (T : InstTable) (sb : Scoreboards) :
    UnitsOp → LsuState → Prop where
  | other {op : UnitsOp} (hlsu : ∀ op', op ≠ .lsu op') : LsuEffect p s T sb op s
  | issue {w : LsuWork} {ri : RenamedInst} (h : Lsu.issueInst p s.work = .ok (w, ri)) :
    LsuEffect p s T sb .issueInst { s with work := w }
  | complete {out : Lsu.CompleteOut} (h : Lsu.completeInst p s T sb = .ok out) :
    LsuEffect p s T sb .completeLsu out.state
  | work {op : LsuOp} {w : LsuWork} {T' : InstTable} (h : Lsu.workStep p s T sb op = .ok (w, T')) :
    LsuEffect p s T sb (.lsu op) { s with work := w }

theorem lsuEffect {p : UnitsParams} {u : Units} {T : InstTable} {sb : Scoreboards} {op : UnitsOp}
    {out : UnitsOut} (h : u.step p T sb op = .ok out) :
    LsuEffect p.lsu u.lsu T sb op out.units.lsu := by
  cases step_stepped h with
  | issueInst hissue => exact .issue hissue
  | completeLsu hcomp => exact .complete hcomp
  | lsu hwork => exact .work hwork
  | _ => exact .other (by simp)

theorem LsuEffect.storeBuffer {p : LsuParams} {s s' : LsuState} {T : InstTable}
    {sb : Scoreboards} {op : UnitsOp} (E : LsuEffect p s T sb op s') :
    s'.storeBuffer = s.storeBuffer := by
  cases E with
  | complete h => exact (Lsu.completeInst_queue h).1
  | _ => rfl

/-- Handlers other than the move of the pipeline only empty stages. -/
theorem LsuEffect.stages {p : LsuParams} {s s' : LsuState} {T : InstTable} {sb : Scoreboards}
    {op : UnitsOp} (E : LsuEffect p s T sb op s') (hadvance : op ≠ .lsu .advance) {n : ℕ}
    {e : RenamedInst} (he : s'.work.stages n = some e) : s.work.stages n = some e := by
  cases E with
  | other _ => exact he
  | issue h => exact (Lsu.issueInst_steady h).stages n e he
  | complete h => exact (Lsu.completeInst_steady h).stages n e he
  | work h => exact Lsu.workStep_stages (fun hop => hadvance (congrArg UnitsOp.lsu hop)) h he

/-- A store that has not retired stays unknown to the cache. -/
theorem LsuEffect.uncached {p : LsuParams} {s s' : LsuState} {T : InstTable} {sb : Scoreboards}
    {op : UnitsOp} {k : InstKey} (E : LsuEffect p s T sb op s') (H : Lsu.Uncached p s.work k)
    (hadvance : op ≠ .lsu .advance)
    (hstore : ∀ e, s.work.stages p.cacheLookupStage = some e → e.key = k →
      e.inst.isStore = true ∧ T.status k ≠ .retired) : Lsu.Uncached p s'.work k := by
  cases E with
  | other _ => exact H
  | issue h => exact H.steady (Lsu.issueInst_steady h)
  | complete h => exact H.steady (Lsu.completeInst_steady h)
  | work h => exact H.workStep (fun hop => hadvance (congrArg UnitsOp.lsu hop)) hstore h

theorem LsuEffect.cacheRead {p : LsuParams} {s s' : LsuState} {T : InstTable} {sb : Scoreboards}
    {k : InstKey} (E : LsuEffect p s T sb (.lsu .cacheRead) s') (H : Lsu.Uncached p s.work k) :
    Lsu.Before s'.work p.cacheReadStage k := by
  cases E with
  | other h => exact absurd rfl (h _)
  | work h => exact H.cacheRead h

end Units

/-! ## The flow of stores -/

/-- The stores among messages to the units that are for the LSU. -/
def storesToLsu (msgs : List (UnitId × RenamedInst)) : List RenamedInst :=
  (msgs.filter fun m => decide (m.1 = .lsu) && m.2.inst.isStore).map Prod.snd

theorem mem_storesToLsu {msgs : List (UnitId × RenamedInst)} {ri : RenamedInst} :
    ri ∈ storesToLsu msgs ↔ (.lsu, ri) ∈ msgs ∧ ri.inst.isStore = true := by
  simp only [storesToLsu, List.mem_map, List.mem_filter, Bool.and_eq_true, decide_eq_true_eq]
  constructor
  · rintro ⟨⟨d, r⟩, ⟨hm, rfl, hst⟩, rfl⟩
    exact ⟨hm, hst⟩
  · rintro ⟨hm, hst⟩
    exact ⟨_, ⟨hm, rfl, hst⟩, rfl⟩

theorem storesToLsu_append (l l' : List (UnitId × RenamedInst)) :
    storesToLsu (l ++ l') = storesToLsu l ++ storesToLsu l' := by
  simp [storesToLsu]

theorem storesToLsu_of_forall {msgs : List (UnitId × RenamedInst)}
    (h : ∀ m ∈ msgs, m.2.inst.isStore = true → m.1 = .lsu) :
    storesToLsu msgs = (msgs.map Prod.snd).filter fun ri => ri.inst.isStore := by
  unfold storesToLsu
  rw [List.filter_map]
  congr 1
  apply List.filter_congr
  intro m hm
  cases hst : m.2.inst.isStore with
  | true => simp [h m hm hst, hst]
  | false => simp [hst]

/-- To erase what a filter drops makes no difference to it. -/
theorem filter_eraseP_of_not {f g : RenamedInst → Bool} {l : List RenamedInst}
    (h : ∀ e ∈ l, g e = true → ¬f e = true) : (l.eraseP g).filter f = l.filter f := by
  induction l with
  | nil => rfl
  | cons e l ih =>
    cases hg : g e with
    | true => rw [List.eraseP_cons_of_pos hg, List.filter_cons_of_neg (h e List.mem_cons_self hg)]
    | false =>
      rw [List.eraseP_cons_of_neg (by simp [hg]), List.filter_cons, List.filter_cons,
        ih fun e' he' => h e' (List.mem_cons_of_mem _ he')]

/-- A store is dispatched to the LSU only. -/
def StoresToLsu (pd : DispatchParams) (i : Inst) : Prop :=
  i.isStore = true → ∀ d ∈ pd.dispatchers i.pipe, d = .lsu

namespace Core

/-- The stores in the store buffer, and those on their way to it, are the ones that the ROB has
just retired or still has to retire.  `acked` are the stores that the ROB has told the LSU of. -/
structure Flow (acked : List RenamedInst) (c : Core) : Prop where
  stores : c.units.lsu.storeBuffer ++ storesToLsu c.toUnit =
    c.storeAcks ++ c.front.inRob.filter fun ri => ri.inst.isStore
  entries : c.units.lsu.storeBuffer = c.units.lsu.ldstInstQueue.filter fun e =>
    e.inst.isStore && decide (e.key ∉ acked.map RenamedInst.key)
  acksOrder : c.storeAcks.Pairwise fun a b => a.inst.before b.inst = true
  older : c.front.RetiredBefore (acked ++ c.storeAcks)
  pending : ∀ ri ∈ c.front.unretired, c.front.table.status ri.key ≠ .retired

namespace Flow

variable {p : RenameParams} {x0 : ℕ} {pd : DispatchParams} {pr : RobParams} {pu : UnitsParams}
variable {C : Inst → Prop} {hist : List Move} {c c' : Core} {acked : List RenamedInst}
variable {ri : RenamedInst}

theorem init (p : RenameParams) (x0 : ℕ) : Flow [] (init p x0) where
  stores := rfl
  entries := rfl
  acksOrder := .nil
  older := InStep.retiredBefore_nil _
  pending := by simp [Core.init, InStep.init, InStep.unretired]

theorem mem_unretired_of_inRob {s : InStep} (h : ri ∈ s.inRob) : ri ∈ s.unretired := by
  simp only [InStep.inRob, InStep.unretired, List.mem_append] at h ⊢
  tauto

/-- A store whose retirement the LSU knows or will soon know is older than what the ROB has. -/
theorem before_of_unretired (H : Inv p x0 pd C hist c) (F : Flow acked c) {ra : RenamedInst}
    (ha : ra ∈ acked ++ c.storeAcks) (hri : ri ∈ c.front.unretired) :
    ra.inst.before ri.inst = true := by
  rcases F.older.queue ra ha with hack | hall
  · exact H.ordered.before_of_acked hack (List.mem_append_left _ (List.mem_map_of_mem hri))
  · apply hall
    apply InStep.Ordered.mem_insts_of_queue
    rw [H.ordered.queue]
    exact List.mem_append_right _ hri

theorem pairwise (H : Inv p x0 pd C hist c) (F : Flow acked c) :
    (c.units.lsu.storeBuffer ++ storesToLsu c.toUnit).Pairwise
      fun a b => a.inst.before b.inst = true := by
  rw [F.stores, List.pairwise_append]
  refine ⟨F.acksOrder, ?_, fun a ha b hb => ?_⟩
  · have horder := H.ordered.order
    unfold InStep.insts at horder
    rw [H.ordered.queue, List.map_append, List.pairwise_append, List.pairwise_append,
      List.pairwise_map, List.pairwise_map] at horder
    refine List.Pairwise.sublist ?_ horder.1.2.1
    refine List.filter_sublist.trans ?_
    simp only [InStep.unretired, InStep.inRob, List.append_assoc]
    exact List.Sublist.append_left (List.sublist_append_left _ _) _
  · exact F.before_of_unretired H (List.mem_append_right _ ha)
      (mem_unretired_of_inRob (List.mem_of_mem_filter hb))

/-- A store in the store buffer, or on its way to it, is one. -/
theorem isStore_of_mem (F : Flow acked c)
    (h : ri ∈ c.units.lsu.storeBuffer ++ storesToLsu c.toUnit) : ri.inst.isStore = true := by
  rcases List.mem_append.mp h with h | h
  · rw [F.entries] at h
    have hcond := (List.mem_filter.mp h).2
    simp only [Bool.and_eq_true] at hcond
    exact hcond.1
  · exact (mem_storesToLsu.mp h).2

theorem mem_queue (F : Flow acked c) (h : ri ∈ c.units.lsu.storeBuffer) :
    ri ∈ c.units.lsu.ldstInstQueue := by
  rw [F.entries] at h
  exact List.mem_of_mem_filter h

/-- A store whose retirement has not been sent to the LSU is in the ROB. -/
theorem inRob_of_mem (F : Flow acked c) (h : ri ∈ c.units.lsu.storeBuffer)
    (hack : ri ∉ c.storeAcks) : ri ∈ c.front.inRob := by
  have hmem : ri ∈ c.units.lsu.storeBuffer ++ storesToLsu c.toUnit := List.mem_append_left _ h
  rw [F.stores] at hmem
  rcases List.mem_append.mp hmem with hmem | hmem
  · exact absurd hmem hack
  · exact List.mem_of_mem_filter hmem

/-- The oldest message of the ROB is about the oldest entry of the store buffer. -/
theorem head (H : Inv p x0 pd C hist c) (F : Flow acked c) {rest : List RenamedInst}
    (hacks : c.storeAcks = ri :: rest) :
    ∃ tail, c.units.lsu.storeBuffer = ri :: tail ∧ tail ++ storesToLsu c.toUnit =
      rest ++ c.front.inRob.filter fun ri => ri.inst.isStore := by
  have hstores := F.stores
  rw [hacks] at hstores
  cases hbuf : c.units.lsu.storeBuffer with
  | nil =>
    -- a store on its way to the LSU has not been completed
    rw [hbuf] at hstores
    have hsent : ri ∈ storesToLsu c.toUnit := by
      rw [List.nil_append] at hstores
      rw [hstores]
      simp
    obtain ⟨-, -, hlive⟩ := H.toUnit _ (mem_storesToLsu.mp hsent).1
    have hbefore : ri.inst.before ri.inst = true :=
      F.before_of_unretired H (by simp [hacks]) (mem_unretired_of_inRob hlive.1)
    exact absurd rfl (Inst.key_ne_of_before hbefore)
  | cons st tail =>
    rw [hbuf] at hstores
    obtain ⟨rfl, htail⟩ := List.cons.inj hstores
    exact ⟨tail, rfl, htail⟩

/-! ### Steps of the front end -/

theorem front {op : InStepOp} (H : Inv p x0 pd C hist c) (hC : ∀ i, C i → StoresToLsu pd i)
    (F : Flow acked c) (hstep : c.step p pd pr pu (.front op) = .ok c') : Flow acked c' := by
  have hretired := retiredBefore_step H F.older hstep
  cases step_stepped hstep with
  | @front _ s' hop hs' =>
    have S := H.ordered.frontSpec hop hs'
    have L := H.ordered.flowSpec hop hs'
    obtain ⟨rest, hfront⟩ := L.retires_front S
    have hsends : storesToLsu (c.front.sends pd op) =
        ((c.front.sends pd op).map Prod.snd).filter fun ri => ri.inst.isStore := by
      apply storesToLsu_of_forall
      intro m hm hst
      obtain ⟨hmem, -, hserves⟩ := S.sent m hm
      have hren := H.queue m.2 (H.ordered.mem_of_undispatched hmem)
      exact hC _ (H.renamed m.2 hren).2 hst m.1 hserves
    refine ⟨?_, F.entries, ?_, ?_, H.ordered.pending_front S L F.pending⟩
    · show c.units.lsu.storeBuffer ++ storesToLsu (c.toUnit ++ c.front.sends pd op) =
        (c.storeAcks ++ c.front.stores pr op) ++ s'.inRob.filter fun ri => ri.inst.isStore
      calc c.units.lsu.storeBuffer ++ storesToLsu (c.toUnit ++ c.front.sends pd op)
          = (c.units.lsu.storeBuffer ++ storesToLsu c.toUnit) ++
              ((c.front.sends pd op).map Prod.snd).filter fun ri => ri.inst.isStore := by
            rw [storesToLsu_append, hsends, List.append_assoc]
        _ = c.storeAcks ++ (c.front.inRob ++ (c.front.sends pd op).map Prod.snd).filter
              fun ri => ri.inst.isStore := by
            rw [F.stores, List.filter_append, List.append_assoc]
        _ = (c.storeAcks ++ c.front.stores pr op) ++ s'.inRob.filter fun ri => ri.inst.isStore := by
            rw [L.inRob, List.filter_append, ← L.stores, List.append_assoc]
    · show (c.storeAcks ++ c.front.stores pr op).Pairwise _
      rw [L.stores, List.pairwise_append]
      refine ⟨F.acksOrder, ?_, fun a ha b hb => ?_⟩
      · have horder := H.ordered.order
        unfold InStep.insts at horder
        rw [H.ordered.queue, List.map_append, List.pairwise_append, List.pairwise_append,
          List.pairwise_map, List.pairwise_map, hfront, List.pairwise_append] at horder
        exact horder.1.2.1.1.sublist List.filter_sublist
      · apply F.before_of_unretired H (List.mem_append_right _ ha)
        rw [hfront]
        exact List.mem_append_left _ (List.mem_of_mem_filter hb)
    · refine hretired.1.mono fun ri hri => ?_
      show ri ∈ acked ++ c.storeAcks ++ c.front.retires pr op
      have hri : ri ∈ acked ++ (c.storeAcks ++ c.front.stores pr op) := hri
      rw [L.stores, ← List.append_assoc] at hri
      rcases List.mem_append.mp hri with hri | hri
      · exact List.mem_append_left _ hri
      · exact List.mem_append_right _ (List.mem_of_mem_filter hri)

/-- A flush empties the store buffer, or changes nothing. -/
theorem flush (H : Inv p x0 pd C hist c) (F : Flow acked c)
    (hstep : c.step p pd pr pu .flush = .ok c') :
    Flow acked c' ∧ (c.storeAcks = [] ∧ c'.storeAcks = []) ∧
      (c'.units.lsu = c.units.lsu ∨ c'.units.lsu.storeBuffer = []) := by
  have hretired := retiredBefore_step H F.older hstep
  cases step_stepped hstep with
  | @flush s' htoUnit hacks hs' =>
    have holder : s'.RetiredBefore (acked ++ c.storeAcks) := by simpa [retires] using hretired.1
    obtain ⟨-, hcase⟩ := H.ordered.flush_unretired hs'
    have hstores := F.stores
    rw [htoUnit, hacks] at hstores
    rcases hforward : FlushManager.forwardUpper c.front.pendingFlush with _ | criteria
    · simp only [hforward] at hcase
      obtain ⟨hrob, hun, htable⟩ := hcase
      refine ⟨⟨?_, F.entries, F.acksOrder, holder, ?_⟩, ⟨hacks, hacks⟩, .inl rfl⟩
      · show c.units.lsu.storeBuffer ++ storesToLsu c.toUnit = c.storeAcks ++ s'.inRob.filter _
        rw [hrob]
        exact F.stores
      · show ∀ ri ∈ s'.unretired, s'.table.status ri.key ≠ .retired
        rw [hun, htable]
        exact F.pending
    · simp only [hforward] at hcase
      obtain ⟨hun, hcov⟩ := hcase
      have hrob : s'.inRob = [] := by
        apply List.eq_nil_iff_forall_not_mem.mpr
        intro ri hri
        have hmem := mem_unretired_of_inRob hri
        rw [hun] at hmem
        cases hmem
      have hbuffer : (Lsu.handleFlush c.units.lsu criteria).1.storeBuffer = [] := by
        apply List.filter_eq_nil_iff.mpr
        intro ri hri
        have hmem : ri ∈ c.front.inRob :=
          F.inRob_of_mem hri (by rw [hacks]; exact List.not_mem_nil)
        simp [hcov ri (mem_unretired_of_inRob hmem)]
      refine ⟨⟨?_, ?_, F.acksOrder, holder, ?_⟩, ⟨hacks, hacks⟩, .inr hbuffer⟩
      · show (Lsu.handleFlush c.units.lsu criteria).1.storeBuffer ++ storesToLsu c.toUnit =
          c.storeAcks ++ s'.inRob.filter _
        rw [hbuffer, hrob, htoUnit, hacks]
        rfl
      · show (Lsu.handleFlush c.units.lsu criteria).1.storeBuffer =
          (Lsu.handleFlush c.units.lsu criteria).1.ldstInstQueue.filter _
        show c.units.lsu.storeBuffer.filter _ = (c.units.lsu.ldstInstQueue.filter _).filter _
        rw [F.entries, List.filter_filter, List.filter_filter]
        exact List.filter_congr fun _ _ => Bool.and_comm _ _
      · show ∀ ri ∈ s'.unretired, s'.table.status ri.key ≠ .retired
        rw [hun]
        simp

/-! ### Deliveries -/

/-- The state of the front end changes in the statuses only. -/
theorem pending_of_progress {T : InstTable} {P : RenamedInst → Prop} (F : Flow acked c)
    (hT : c.front.table.Progress P T) : ∀ ri ∈ c.front.unretired, T.status ri.key ≠ .retired := by
  intro ri hri hst
  rcases hT.status ri.key with h | h | ⟨h, -⟩
  · exact F.pending ri hri (h ▸ hst)
  · rw [h] at hst
    cases hst
  · rw [h] at hst
    cases hst

theorem deliverUnit {i : ℕ} (H : Inv p x0 pd C hist c) (F : Flow acked c)
    (hfirst : ∀ m, c.toUnit[i]? = some m → ∀ m' ∈ c.toUnit.take i, m'.1 ≠ m.1)
    (hstep : c.step p pd pr pu (.deliverUnit i) = .ok c') : Flow acked c' := by
  have hretired := retiredBefore_step H F.older hstep
  cases step_stepped hstep with
  | @deliverUnit _ d ri units T _ hi hrec =>
    have holder : InStep.RetiredBefore (acked ++ c.storeAcks) { c.front with table := T } := by
      simpa [retires] using hretired.1
    have hpending := F.pending_of_progress (H.progress_of_receive hi hrec)
    -- the message is the first one for its unit
    obtain ⟨hlt, hget⟩ := List.getElem?_eq_some_iff.mp hi
    have hsplit : c.toUnit = c.toUnit.take i ++ (d, ri) :: c.toUnit.drop (i + 1) := by
      rw [← hget, List.getElem_cons_drop, List.take_append_drop]
    have herase : c.toUnit.eraseIdx i = c.toUnit.take i ++ c.toUnit.drop (i + 1) :=
      List.eraseIdx_eq_take_drop_succ _ _
    have hstores := F.stores
    rw [hsplit, storesToLsu_append] at hstores
    cases Units.receive_received hrec with
    | iq =>
      refine ⟨?_, F.entries, F.acksOrder, holder, hpending⟩
      show c.units.lsu.storeBuffer ++ storesToLsu (c.toUnit.eraseIdx i) = _
      rw [herase, storesToLsu_append]
      exact hstores
    | @lsu lsu _ hlsu =>
      obtain ⟨hqueue, hbuffer, -⟩ := Lsu.getInstsFromDispatch_spec hlsu
      have hnone : storesToLsu (c.toUnit.take i) = [] := by
        apply List.eq_nil_iff_forall_not_mem.mpr
        intro e he
        exact hfirst _ hi _ (mem_storesToLsu.mp he).1 rfl
      rw [hnone, List.nil_append] at hstores
      -- what arrives has not retired
      obtain ⟨-, -, hlive⟩ := H.toUnit _ (List.mem_of_getElem? hi)
      have hfresh : ri.key ∉ acked.map RenamedInst.key := by
        intro hmem
        obtain ⟨ra, hra, hkey⟩ := List.mem_map.mp hmem
        exact Inst.key_ne_of_before (F.before_of_unretired H (List.mem_append_left _ hra)
          (mem_unretired_of_inRob hlive.1)) hkey
      refine ⟨?_, ?_, F.acksOrder, holder, hpending⟩
      · show lsu.storeBuffer ++ storesToLsu (c.toUnit.eraseIdx i) =
          c.storeAcks ++ c.front.inRob.filter fun ri => ri.inst.isStore
        rw [herase, storesToLsu_append, hnone, hbuffer, List.nil_append]
        cases hst : ri.inst.isStore with
        | true => simpa [storesToLsu, hst] using hstores
        | false => simpa [storesToLsu, hst] using hstores
      · show lsu.storeBuffer = lsu.ldstInstQueue.filter _
        rw [hqueue, hbuffer, List.filter_append, ← F.entries, List.filter_cons, List.filter_nil,
          decide_eq_true hfresh, Bool.and_true]
        cases hst : ri.inst.isStore with
        | true => rfl
        | false => exact (List.append_nil _).symm

theorem deliverStoreAck (H : Inv p x0 pd C hist c) (F : Flow acked c)
    (hstep : c.step p pd pr pu .deliverStoreAck = .ok c') :
    Flow (acked ++ c.storeAcks.head?.toList) c' := by
  have hretired := retiredBefore_step H F.older hstep
  cases step_stepped hstep with
  | @deliverStoreAck ri rest lsu _ hacks hlsu =>
    rw [hacks]
    obtain ⟨tail, hbuf, htail⟩ := F.head H hacks
    obtain ⟨hqueue, hbuffer⟩ := Lsu.getAckFromROB_spec hlsu
    have hst : ri.inst.isStore = true := F.isStore_of_mem (by simp [hbuf])
    rw [if_pos hst, hbuf, List.tail_cons] at hbuffer
    have hpair := F.pairwise H
    rw [hbuf] at hpair
    have hne : ∀ e ∈ tail, e.key ≠ ri.key := fun e he =>
      (Inst.key_ne_of_before
        ((List.pairwise_cons.mp hpair).1 e (List.mem_append_left _ he))).symm
    have holder : c.front.RetiredBefore (acked ++ c.storeAcks) := by
      simpa [retires] using hretired.1
    refine ⟨?_, ?_, ?_, ?_, F.pending⟩
    · show lsu.storeBuffer ++ storesToLsu c.toUnit = _
      rw [hbuffer]
      exact htail
    · show lsu.storeBuffer = lsu.ldstInstQueue.filter _
      have hentries : ri :: tail = _ := hbuf ▸ F.entries
      have hfilter : lsu.ldstInstQueue.filter (fun e => e.inst.isStore &&
          decide (e.key ∉ (acked ++ [ri]).map RenamedInst.key)) =
          (ri :: tail).filter fun e => decide (e.key ≠ ri.key) := by
        rw [hqueue, hentries, List.filter_filter]
        apply List.filter_congr
        intro e _
        simp only [List.map_append, List.map_cons, List.map_nil, List.mem_append,
          List.mem_singleton, not_or, Bool.decide_and]
        rw [← Bool.and_assoc, Bool.and_comm]
      rw [hbuffer]
      symm
      calc lsu.ldstInstQueue.filter _ = (ri :: tail).filter fun e => decide (e.key ≠ ri.key) := by
            simpa using hfilter
        _ = tail := by
            rw [List.filter_cons_of_neg (by simp), List.filter_eq_self]
            exact fun e he => by simpa using hne e he
    · exact (List.pairwise_cons.mp (hacks ▸ F.acksOrder)).2
    · simpa [hacks] using holder

/-! ### Handlers of the units -/

/-- What leaves the queue at the end of the pipeline is not in the store buffer, if the pipeline
keeps what is there out of its last stages. -/
theorem entries_of_complete {out : Lsu.CompleteOut} (F : Flow acked c)
    (hread : ∀ ri ∈ c.units.lsu.storeBuffer,
      Lsu.Before c.units.lsu.work (pu.lsu.cacheReadStage + 1) ri.key)
    (hpos : 0 < pu.lsu.cacheReadStageLength)
    (hout : Lsu.completeInst pu.lsu c.units.lsu c.front.table c.scoreboards = .ok out) :
    out.state.storeBuffer = out.state.ldstInstQueue.filter fun e =>
      e.inst.isStore && decide (e.key ∉ acked.map RenamedInst.key) := by
  obtain ⟨hbuffer, hqueue | ⟨ri, hri, hqueue⟩⟩ := Lsu.completeInst_queue hout
  · rw [hbuffer, hqueue]
    exact F.entries
  · rw [hbuffer, hqueue, F.entries]
    have hlast : pu.lsu.cacheReadStage + 1 ≤ pu.lsu.completeStage := by
      unfold LsuParams.completeStage
      omega
    have hnot : ∀ e ∈ c.units.lsu.ldstInstQueue, e.key = ri.key →
        ¬(e.inst.isStore && decide (e.key ∉ acked.map RenamedInst.key)) = true := by
      intro e he hkey hcond
      have hmem : e ∈ c.units.lsu.storeBuffer := by
        rw [F.entries]
        exact List.mem_filter.mpr ⟨he, hcond⟩
      exact hread e hmem _ hlast ri hri hkey.symm
    exact (filter_eraseP_of_not fun e he hkey => hnot e he (of_decide_eq_true hkey)).symm

theorem units {op : UnitsOp} (H : Inv p x0 pd C hist c) (F : Flow acked c)
    (hread : op = .completeLsu → ∀ ri ∈ c.units.lsu.storeBuffer,
      Lsu.Before c.units.lsu.work (pu.lsu.cacheReadStage + 1) ri.key)
    (hpos : 0 < pu.lsu.cacheReadStageLength)
    (hstep : c.step p pd pr pu (.units op) = .ok c') : Flow acked c' := by
  have hretired := retiredBefore_step H F.older hstep
  cases step_stepped hstep with
  | @units _ out hout =>
    have D := H.units.step H.view_unique hout
    have E := Units.lsuEffect hout
    refine ⟨?_, ?_, F.acksOrder, by simpa [retires] using hretired.1, F.pending_of_progress D.table⟩
    · show out.units.lsu.storeBuffer ++ storesToLsu c.toUnit =
        c.storeAcks ++ c.front.inRob.filter fun ri => ri.inst.isStore
      rw [E.storeBuffer]
      exact F.stores
    · show out.units.lsu.storeBuffer = out.units.lsu.ldstInstQueue.filter _
      generalize out.units.lsu = lsu at E
      cases E with
      | complete h => exact F.entries_of_complete (hread rfl) hpos h
      | _ => exact F.entries

end Flow

end Core

/-! ## Before the cache -/

namespace Core

/-- The cache has not been asked about the stores that the ROB has not retired, and no store of
the store buffer is beyond `cache_read_stage_` before the LSU knows that it has retired. -/
structure Waits (p : LsuParams) (done : List LsuEvent) (c : Core) : Prop where
  uncached : ∀ ri ∈ c.units.lsu.storeBuffer, ri ∉ c.storeAcks →
    Lsu.Uncached p c.units.lsu.work ri.key
  read : .cacheRead ∈ done → ∀ ri ∈ c.units.lsu.storeBuffer, ri ∉ c.storeAcks →
    Lsu.Before c.units.lsu.work p.cacheReadStage ri.key
  before : c.front.phase = .tick → ∀ ri ∈ c.units.lsu.storeBuffer,
    Lsu.Before c.units.lsu.work (p.cacheReadStage + 1) ri.key

namespace Waits

variable {p : RenameParams} {x0 : ℕ} {pd : DispatchParams} {pr : RobParams} {pu : UnitsParams}
variable {C : Inst → Prop} {hist : List Move} {c c' : Core} {acked : List RenamedInst}
variable {done : List LsuEvent}

/-- A step that changes neither the store buffer nor the pipeline, and forgets no retired store. -/
theorem of_same (W : Waits pu.lsu done c) (hlsu : c'.units.lsu = c.units.lsu)
    (hacks : ∀ ri ∈ c.storeAcks, ri ∈ c'.storeAcks)
    (hphase : c'.front.phase = .tick → c.front.phase = .tick) : Waits pu.lsu done c' := by
  constructor
  · rw [hlsu]
    exact fun ri hri hnot => W.uncached ri hri fun h => hnot (hacks ri h)
  · rw [hlsu]
    exact fun hread ri hri hnot => W.read hread ri hri fun h => hnot (hacks ri h)
  · rw [hlsu]
    exact fun htick => W.before (hphase htick)

theorem front {op : InStepOp} (H : Inv p x0 pd C hist c) (W : Waits pu.lsu done c)
    (hnext : op ≠ .nextCycle) (hstep : c.step p pd pr pu (.front op) = .ok c') :
    Waits pu.lsu done c' := by
  cases step_stepped hstep with
  | @front _ s' hop hs' =>
    have L := H.ordered.flowSpec hop hs'
    refine W.of_same (show c.units.lsu = c.units.lsu from rfl) ?_ ?_
    · exact fun ri hri => List.mem_append_left _ hri
    · intro htick
      rw [← L.phase hnext]
      exact htick

/-- The end of a cycle: the pipeline moves, and no store has passed `cache_read_stage_`
unnoticed. -/
theorem nextCycle {c₁ : Core} (W : Waits pu.lsu done c)
    (hread : .cacheRead ∈ done ∨ c.units.lsu.work.stages pu.lsu.cacheReadStage = none)
    (hmove : c.step p pd pr pu (.units (.lsu .advance)) = .ok c₁)
    (hstep : c₁.step p pd pr pu (.front .nextCycle) = .ok c') : Waits pu.lsu [] c' := by
  cases step_stepped hmove with
  | @units _ out hout =>
    cases Units.step_stepped hout with
    | @lsu _ w T hwork =>
      obtain ⟨rfl, rfl⟩ := Prod.mk.inj (Except.ok.inj hwork)
      cases step_stepped hstep with
      | @front _ s' _ hs' =>
        cases InStep.step_stepped hs'
        refine ⟨fun ri hri hnot => ?_, fun h => (by cases h), fun h => (by cases h)⟩
        have hnot : ri ∉ c.storeAcks := fun h => hnot (List.mem_append_left _ h)
        have huncached := W.uncached ri hri hnot
        refine huncached.advance fun m hm e he => ?_
        rcases hm.eq_or_lt with rfl | hm
        · rcases hread with hread | hnone
          · exact W.read hread ri hri hnot _ le_rfl e he
          · rw [hnone] at he
            cases he
        · exact huncached.before m hm e he

theorem flush (H : Inv p x0 pd C hist c) (F : Flow acked c) (W : Waits pu.lsu done c)
    (hstep : c.step p pd pr pu .flush = .ok c') : Waits pu.lsu done c' := by
  obtain ⟨-, hacks, hlsu | hbuffer⟩ := F.flush H hstep
  · constructor
    · rw [hlsu, hacks.2]
      intro ri hri _
      exact W.uncached ri hri (by rw [hacks.1]; exact List.not_mem_nil)
    · rw [hlsu, hacks.2]
      intro hread ri hri _
      exact W.read hread ri hri (by rw [hacks.1]; exact List.not_mem_nil)
    · rw [hlsu]
      intro _ ri hri
      exact (W.uncached ri hri (by rw [hacks.1]; exact List.not_mem_nil)).before
  · constructor
    · simp [hbuffer]
    · simp [hbuffer]
    · simp [hbuffer]

/-- Nothing in the pipeline or at the cache is on its way to the LSU. -/
theorem key_ne_of_sent {i : ℕ} {ri e : RenamedInst} (H : Inv p x0 pd C hist c)
    (hi : c.toUnit[i]? = some (.lsu, ri)) (he : (c.view pd hist).lsuIssued e) : e.key ≠ ri.key := by
  intro heq
  obtain ⟨-, hsent, -⟩ := H.toUnit _ (List.mem_of_getElem? hi)
  have hplace : placeAfter hist e.key = some .lsuIssued := he.2
  rw [heq, hsent] at hplace
  cases hplace

theorem deliverUnit {i : ℕ} (H : Inv p x0 pd C hist c) (W : Waits pu.lsu done c)
    (hstep : c.step p pd pr pu (.deliverUnit i) = .ok c') : Waits pu.lsu done c' := by
  cases step_stepped hstep with
  | @deliverUnit _ d ri units T hphase hi hrec =>
    cases Units.receive_received hrec with
    | iq => exact W.of_same rfl (fun _ h => h) fun h => h
    | @lsu lsu _ hlsu =>
      obtain ⟨-, hbuffer, hsteady⟩ := Lsu.getInstsFromDispatch_spec hlsu
      have hreset : ∀ n k, Lsu.Before c.units.lsu.work n k → Lsu.Before lsu.work n k :=
        fun n k hbefore => Lsu.Before.mono hbefore hsteady.stages
      have hold : ∀ rj ∈ lsu.storeBuffer, rj = ri ∨ rj ∈ c.units.lsu.storeBuffer := by
        intro rj hrj
        rw [hbuffer] at hrj
        split at hrj
        · simpa [or_comm] using hrj
        · exact .inr hrj
      -- the new instruction is nowhere in the pipeline
      have hnowhere : ∀ n, Lsu.Before c.units.lsu.work n ri.key := fun _ m _ e he =>
        key_ne_of_sent H hi (H.units.lsu.work.stages m e he)
      have hrequests : ∀ e ∈ c.units.lsu.work.cacheRequests, e.key ≠ ri.key := fun e he =>
        key_ne_of_sent H hi (H.units.lsu.work.cacheRequests e he)
      refine ⟨fun rj hrj hnot => ?_, fun hread rj hrj hnot => ?_, fun htick => ?_⟩
      · rcases hold rj hrj with rfl | hrj
        · exact (Lsu.Uncached.of_new hrequests (hnowhere _)).steady hsteady
        · exact ((W.uncached rj hrj hnot).reset ri.key).steady hsteady
      · rcases hold rj hrj with rfl | hrj
        · exact hreset _ _ (hnowhere _)
        · exact hreset _ _ (W.read hread rj hrj hnot)
      · have htick : c.front.phase = .tick := htick
        rw [hphase] at htick
        cases htick

theorem deliverStoreAck (H : Inv p x0 pd C hist c) (F : Flow acked c) (W : Waits pu.lsu done c)
    (hstep : c.step p pd pr pu .deliverStoreAck = .ok c') : Waits pu.lsu done c' := by
  cases step_stepped hstep with
  | @deliverStoreAck ri rest lsu hphase hacks hlsu =>
    obtain ⟨tail, hbuf, -⟩ := F.head H hacks
    obtain ⟨-, hbuffer⟩ := Lsu.getAckFromROB_spec hlsu
    have hst : ri.inst.isStore = true := F.isStore_of_mem (by simp [hbuf])
    rw [if_pos hst, hbuf, List.tail_cons] at hbuffer
    have hsteady := Lsu.getAckFromROB_steady hlsu
    have hpair := F.pairwise H
    rw [hbuf] at hpair
    -- the other stores are younger than the one that has retired
    have hold : ∀ rj ∈ lsu.storeBuffer, rj ∉ rest →
        rj ∈ c.units.lsu.storeBuffer ∧ rj ∉ c.storeAcks := by
      intro rj hrj hnot
      rw [hbuffer] at hrj
      refine ⟨by simp [hbuf, hrj], ?_⟩
      rw [hacks, List.mem_cons, not_or]
      refine ⟨?_, hnot⟩
      rintro rfl
      exact Inst.key_ne_of_before
        ((List.pairwise_cons.mp hpair).1 _ (List.mem_append_left _ hrj)) rfl
    refine ⟨fun rj hrj hnot => ?_, fun hread rj hrj hnot => ?_, fun htick => ?_⟩
    · obtain ⟨hrj, hnot⟩ := hold rj hrj hnot
      exact (W.uncached rj hrj hnot).steady hsteady
    · obtain ⟨hrj, hnot⟩ := hold rj hrj hnot
      exact (W.read hread rj hrj hnot).mono hsteady.stages
    · have htick : c.front.phase = .tick := htick
      rw [hphase] at htick
      cases htick

/-- A handler of the units, in a cycle in which `done` have run. -/
theorem units {op : UnitsOp} (H : Inv p x0 pd C hist c) (F : Flow acked c)
    (W : Waits pu.lsu done c) (hadvance : op ≠ .lsu .advance)
    (hstep : c.step p pd pr pu (.units op) = .ok c') {done' : List LsuEvent}
    (hdone : .cacheRead ∈ done' → .cacheRead ∈ done ∨ op = .lsu .cacheRead) :
    Waits pu.lsu done' c' := by
  cases step_stepped hstep with
  | @units _ out hout =>
    have E := Units.lsuEffect hout
    have hbuffer := E.storeBuffer
    have hstages : ∀ n e, out.units.lsu.work.stages n = some e →
        c.units.lsu.work.stages n = some e := fun _ _ he => E.stages hadvance he
    have hold : ∀ ri ∈ out.units.lsu.storeBuffer, ri ∈ c.units.lsu.storeBuffer := by
      intro ri hri
      rwa [hbuffer] at hri
    refine ⟨fun ri hri hnot => ?_, fun hread ri hri hnot => ?_, fun htick ri hri => ?_⟩
    · have hri := hold ri hri
      have huncached := W.uncached ri hri hnot
      have hrob := F.inRob_of_mem hri hnot
      -- an instruction of the pipeline with its identity is the store itself
      have hstore : ∀ e, c.units.lsu.work.stages pu.lsu.cacheLookupStage = some e →
          e.key = ri.key → e.inst.isStore = true ∧ c.front.table.status ri.key ≠ .retired := by
        intro e he hkey
        have hknown : (c.view pd hist).known .lsu ri := by
          rcases H.units.lsu.queue ri (F.mem_queue hri) with h | h
          · exact h.1
          · exact h.1
        have heq := H.view_unique _ _ e ri (H.units.lsu.work.stages _ e he).1 hknown hkey
        rw [heq]
        exact ⟨F.isStore_of_mem (List.mem_append_left _ hri),
          F.pending ri (Flow.mem_unretired_of_inRob hrob)⟩
      exact E.uncached huncached hadvance hstore
    · have hri := hold ri hri
      rcases hdone hread with hread | rfl
      · exact (W.read hread ri hri hnot).mono hstages
      · exact E.cacheRead (W.uncached ri hri hnot)
    · exact (W.before htick ri (hold ri hri)).mono hstages

end Waits

end Core

/-! ## The core cycle by cycle -/

/-- The core with the pipeline of the LSU tied to the cycle, and with the stores whose retirement
the LSU has been told of. -/
structure ClockedCore where
  core : Core
  /-- the events of the LSU that have run in this cycle -/
  done : List LsuEvent := []
  acked : List RenamedInst := []

namespace ClockedCore

def init (p : RenameParams) (x0 : ℕ) : ClockedCore := { core := .init p x0 }

def storeBuffer (s : ClockedCore) : List RenamedInst := s.core.units.lsu.storeBuffer

def queue (s : ClockedCore) : List RenamedInst := s.core.units.lsu.ldstInstQueue

def work (s : ClockedCore) : LsuWork := s.core.units.lsu.work

/-- The event of a handler that runs once in a cycle. -/
def event : UnitsOp → Option LsuEvent
  | .issueInst => some .issueInst
  | .completeLsu => some .complete
  | .lsu op => LsuSystem.event op
  | _ => none

/-- The events a step runs. -/
def runs : CoreOp → List LsuEvent
  | .units op => (event op).toList
  | _ => []

/-- The stores of which a step tells the LSU. -/
def tells (c : Core) : CoreOp → List RenamedInst
  | .deliverStoreAck => c.storeAcks.head?.toList
  | _ => []

/-- A port delivers in the order of the messages, the handlers of the stages run once in a cycle,
and the pipeline moves at its end. -/
def allows (p : LsuParams) (s : ClockedCore) : CoreOp → Bool
  | .deliverUnit i => (s.core.toUnit[i]?).all fun m =>
    (s.core.toUnit.take i).all fun m' => decide (m'.1 ≠ m.1)
  | .units op => (event op).all (fun e => decide (s.core.front.phase = .tick ∧ e ∉ s.done)) &&
    match op with
    | .lsu .advance => false
    | _ => true
  | .front .nextCycle =>
    decide (.cacheRead ∈ s.done) || (s.work.stages p.cacheReadStage).isNone
  | _ => true

/-- `nextCycle` moves the pipeline. -/
def movePipeline (p : RenameParams) (pd : DispatchParams) (pr : RobParams) (pu : UnitsParams)
    (c : Core) : CoreOp → Except Stop Core
  | .front .nextCycle => c.step p pd pr pu (.units (.lsu .advance))
  | _ => .ok c

def step (p : RenameParams) (pd : DispatchParams) (pr : RobParams) (pu : UnitsParams)
    (s : ClockedCore) (op : CoreOp) : Except Stop ClockedCore := do
  enabled (s.allows pu.lsu op)
  let core ← movePipeline p pd pr pu s.core op
  let core ← core.step p pd pr pu op
  return {
    core := core
    done := match op with
      | .front .nextCycle => []
      | op => s.done ++ runs op
    acked := s.acked ++ tells s.core op }

/-- The store buffer holds the stores of `ldst_inst_queue_` whose retirement the LSU has not been
told of, in program order, and the next message of the ROB is about the oldest of them. -/
structure Mirrors (s : ClockedCore) : Prop where
  entries : s.storeBuffer = s.queue.filter fun e =>
    e.inst.isStore && decide (e.key ∉ s.acked.map RenamedInst.key)
  order : s.storeBuffer.Pairwise fun a b => a.inst.before b.inst = true
  oldest : ∀ ri ∈ s.core.storeAcks.head?, s.storeBuffer.head? = some ri

structure Inv (p : RenameParams) (x0 : ℕ) (pd : DispatchParams) (pu : UnitsParams)
    (C : Inst → Prop) (hist : List Move) (s : ClockedCore) : Prop where
  core : Core.Inv p x0 pd C hist s.core
  flow : Core.Flow s.acked s.core
  waits : Core.Waits pu.lsu s.done s.core

variable {p : RenameParams} {x0 : ℕ} {pd : DispatchParams} {pr : RobParams} {pu : UnitsParams}
variable {C : Inst → Prop} {hist : List Move} {s s' : ClockedCore} {c : Core} {op : CoreOp}

theorem Inv.mirrors (H : Inv p x0 pd pu C hist s) : Mirrors s := by
  refine ⟨H.flow.entries, (List.pairwise_append.mp (H.flow.pairwise H.core)).1, fun ri hri => ?_⟩
  cases hacks : s.core.storeAcks with
  | nil => simp [hacks] at hri
  | cons st rest =>
    obtain ⟨tail, hbuf, -⟩ := H.flow.head H.core hacks
    rw [hacks] at hri
    obtain rfl := Option.some.inj hri
    exact congrArg List.head? hbuf

theorem inv_init (p : RenameParams) (x0 : ℕ) (pd : DispatchParams) (pu : UnitsParams)
    (C : Inst → Prop) : Inv p x0 pd pu C [] (init p x0) where
  core := Core.inv_init p x0 pd C
  flow := .init p x0
  waits := by
    constructor
    · intro ri hri
      cases hri
    · intro _ ri hri
      cases hri
    · intro _ ri hri
      cases hri

/-- A step in the middle of a cycle. -/
theorem core_of_step (hnext : op ≠ .front .nextCycle) (h : s.step p pd pr pu op = .ok s') :
    s.allows pu.lsu op = true ∧ ∃ c, s.core.step p pd pr pu op = .ok c ∧
      s' = { core := c, done := s.done ++ runs op, acked := s.acked ++ tells s.core op } := by
  obtain ⟨u, hen, h⟩ := Run.bind_eq_ok.mp h
  obtain ⟨c₁, hmove, h⟩ := Run.bind_eq_ok.mp h
  obtain ⟨c, hc, hs'⟩ := Run.bind_eq_ok.mp h
  have hsame : c₁ = s.core := by
    unfold movePipeline at hmove
    split at hmove
    · exact absurd rfl hnext
    · exact (Except.ok.inj hmove).symm
  subst hsame
  refine ⟨enabled_eq_ok.mp hen, c, hc, ?_⟩
  obtain rfl := Except.ok.inj hs'
  congr 1
  split
  · exact absurd rfl hnext
  · rfl

namespace Inv

theorem front {op : InStepOp} (H : Inv p x0 pd pu C hist s) (hC : ∀ i, C i → StoresToLsu pd i)
    (hdec : ∀ insts, op = .decoded insts → ∀ i ∈ insts, C i) (hnext : op ≠ .nextCycle)
    (hstep : s.core.step p pd pr pu (.front op) = .ok c) :
    Inv p x0 pd pu C (hist ++ s.core.moves p pd pu (.front op)) ⟨c, s.done, s.acked⟩ where
  core := H.core.front hdec hstep
  flow := H.flow.front H.core hC hstep
  waits := H.waits.front H.core hnext hstep

/-- The pipeline moves, and the next cycle begins. -/
theorem nextCycle (H : Inv p x0 pd pu C hist s) (hC : ∀ i, C i → StoresToLsu pd i)
    (hpos : 0 < pu.lsu.cacheReadStageLength)
    (hstep : s.step p pd pr pu (.front .nextCycle) = .ok s') :
    ∃ hist', Inv p x0 pd pu C hist' s' := by
  obtain ⟨u, hen, hstep⟩ := Run.bind_eq_ok.mp hstep
  obtain ⟨c₁, hmove, hstep⟩ := Run.bind_eq_ok.mp hstep
  obtain ⟨c₂, hc₂, hstep⟩ := Run.bind_eq_ok.mp hstep
  obtain rfl := Except.ok.inj hstep
  have hread : .cacheRead ∈ s.done ∨ s.work.stages pu.lsu.cacheReadStage = none := by
    have hen := enabled_eq_ok.mp hen
    simpa [allows] using hen
  have hmove : s.core.step p pd pr pu (.units (.lsu .advance)) = .ok c₁ := hmove
  have F₁ := H.flow.units H.core (by simp) hpos hmove
  have H₁ := H.core.unitsStep hmove
  refine ⟨_, H₁.front (by simp) hc₂, ?_, H.waits.nextCycle hread hmove hc₂⟩
  have htells : s.acked ++ tells s.core (.front .nextCycle) = s.acked := List.append_nil _
  rw [htells]
  exact F₁.front H₁ hC hc₂

theorem units {op : UnitsOp} (H : Inv p x0 pd pu C hist s)
    (hpos : 0 < pu.lsu.cacheReadStageLength) (hallows : s.allows pu.lsu (.units op) = true)
    (hstep : s.core.step p pd pr pu (.units op) = .ok c) :
    Inv p x0 pd pu C (hist ++ s.core.moves p pd pu (.units op))
      ⟨c, s.done ++ (event op).toList, s.acked⟩ := by
  have hallows : ((event op).all fun e => decide (s.core.front.phase = .tick ∧ e ∉ s.done)) = true ∧
      op ≠ .lsu .advance := by
    obtain ⟨hphase, hadvance⟩ := Bool.and_eq_true_iff.mp hallows
    refine ⟨hphase, ?_⟩
    rintro rfl
    cases hadvance
  refine ⟨H.core.unitsStep hstep, H.flow.units H.core ?_ hpos hstep,
    H.waits.units H.core H.flow hallows.2 hstep ?_⟩
  · rintro rfl
    have htick : s.core.front.phase = .tick := by
      have hphase := hallows.1
      simp only [event, Option.all_some, decide_eq_true_eq] at hphase
      exact hphase.1
    exact H.waits.before htick
  · intro hmem
    rcases List.mem_append.mp hmem with hmem | hmem
    · exact .inl hmem
    · right
      have hev : event op = some .cacheRead := by simpa using hmem
      cases op with
      | lsu op =>
        cases op with
        | cacheRead => rfl
        | _ => cases hev
      | _ => cases hev

/-- Every step keeps the invariant, if what is decoded satisfies `C`. -/
theorem step (H : Inv p x0 pd pu C hist s) (hC : ∀ i, C i → StoresToLsu pd i)
    (hpos : 0 < pu.lsu.cacheReadStageLength)
    (hdec : ∀ insts, op = .front (.decoded insts) → ∀ i ∈ insts, C i)
    (hstep : s.step p pd pr pu op = .ok s') : ∃ hist', Inv p x0 pd pu C hist' s' := by
  by_cases hnext : op = .front .nextCycle
  · subst hnext
    exact H.nextCycle hC hpos hstep
  · obtain ⟨hallows, c, hc, rfl⟩ := core_of_step hnext hstep
    cases op with
    | front op =>
      have H' := H.front hC (fun insts hop => hdec insts (by rw [hop]))
        (fun hop => hnext (congrArg CoreOp.front hop)) hc
      exact ⟨_, by simpa [runs, tells] using H'⟩
    | flush =>
      obtain ⟨hflow, -, -⟩ := H.flow.flush H.core hc
      have H' : Inv p x0 pd pu C hist ⟨c, s.done, s.acked⟩ :=
        ⟨H.core.flush hc, hflow, H.waits.flush H.core H.flow hc⟩
      exact ⟨_, by simpa [runs, tells] using H'⟩
    | deliverUnit i =>
      have hfirst : ∀ m, s.core.toUnit[i]? = some m → ∀ m' ∈ s.core.toUnit.take i, m'.1 ≠ m.1 := by
        intro m hm m' hm'
        have hall : (s.core.toUnit[i]?.all fun m =>
          (s.core.toUnit.take i).all fun m' => decide (m'.1 ≠ m.1)) = true := hallows
        rw [hm] at hall
        exact of_decide_eq_true (List.all_eq_true.mp hall m' hm')
      have H' : Inv p x0 pd pu C (hist ++ s.core.moves p pd pu (.deliverUnit i))
          ⟨c, s.done, s.acked⟩ :=
        ⟨H.core.deliverUnit hc, H.flow.deliverUnit H.core hfirst hc, H.waits.deliverUnit H.core hc⟩
      exact ⟨_, by simpa [runs, tells] using H'⟩
    | deliverStoreAck =>
      have H' : Inv p x0 pd pu C hist ⟨c, s.done, s.acked ++ s.core.storeAcks.head?.toList⟩ :=
        ⟨H.core.deliverStoreAck hc, H.flow.deliverStoreAck H.core hc,
          H.waits.deliverStoreAck H.core H.flow hc⟩
      exact ⟨_, by simpa [runs, tells] using H'⟩
    | units op =>
      have H' := H.units hpos hallows hc
      exact ⟨_, by simpa [runs, tells] using H'⟩

end Inv

/-- Every run of the clocked core keeps the invariant. -/
theorem run_invariant {ops : List CoreOp} (hC : ∀ i ∈ Core.decoded ops, StoresToLsu pd i)
    (hpos : 0 < pu.lsu.cacheReadStageLength)
    (hrun : ops.foldlM (step p pd pr pu) (init p x0) = .ok s) :
    ∃ hist, Inv p x0 pd pu (StoresToLsu pd) hist s := by
  refine (Run.foldlM_ok_induct (f := step p pd pr pu) (I := fun l s =>
    (∀ i ∈ Core.decoded l, StoresToLsu pd i) ∧ ∃ hist, Inv p x0 pd pu (StoresToLsu pd) hist s)
    ?_ ⟨hC, [], inv_init p x0 pd pu _⟩ hrun).2
  rintro op l s₁ s₂ ⟨hl, hist, H⟩ hone
  refine ⟨fun i hi => hl i ?_, H.step (fun _ h => h) hpos (fun insts hop i hi => hl i ?_) hone⟩
  · unfold Core.decoded at hi ⊢
    rw [List.flatMap_cons]
    exact List.mem_append_right _ hi
  · simp [Core.decoded, hop, hi]

/-! ## The messages of the ROB -/

/-- A message of the ROB is about the oldest entry of the store buffer, so the LSU has nothing
against it but that the store may not have retired. -/
theorem Inv.failsIn (H : Inv p x0 pd pu C hist s) :
    Run.FailsIn (Stop.In fun a => a = .storeNotRetired)
      (s.step p pd pr pu .deliverStoreAck) := by
  apply (enabled_failsIn _).bind
  intro _
  refine Run.FailsIn.bind_of_ok (.ok _) fun c hc => ?_
  obtain rfl := Except.ok.inj hc
  refine Run.FailsIn.bind ((enabled_failsIn _).bind fun _ => ?_) fun c => .ok _
  cases hacks : s.core.storeAcks with
  | nil => exact .error trivial
  | cons ri rest =>
    obtain ⟨tail, hbuf, -⟩ := H.flow.head H.core hacks
    have hmem : ri ∈ s.core.units.lsu.storeBuffer := by simp [hbuf]
    have hqueue : Lsu.inQueue s.core.units.lsu.ldstInstQueue ri = true :=
      List.any_eq_true.mpr ⟨ri, H.flow.mem_queue hmem, by simp⟩
    refine Run.FailsIn.bind (checked_failsIn ?_) fun lsu => .ok _
    have hretired : ∀ b, Run.FailsIn (fun a => a = .storeNotRetired)
        (spartaAssert b .storeNotRetired) := fun _ => spartaAssert_failsIn rfl
    refine (hretired _).bind fun _ => ?_
    refine Run.FailsIn.bind (.of_eq_ok (a := ()) ?_) fun _ => ?_
    · rw [spartaAssert_eq_ok, hbuf]
      simp
    · exact Run.FailsIn.bind (.of_eq_ok (a := ()) (spartaAssert_eq_ok.mpr hqueue)) fun _ => .ok _

/-- If every store is dispatched to the LSU, the store buffer mirrors the stores whose retirement
the LSU has not been told of, and the next message of the ROB is about the oldest of them. -/
theorem store_buffer_mirrors (p : RenameParams) (x0 : ℕ) (pd : DispatchParams) (pr : RobParams)
    (pu : UnitsParams) (hpos : 0 < pu.lsu.cacheReadStageLength) {ops : List CoreOp}
    {s : ClockedCore} (hC : ∀ i ∈ Core.decoded ops, StoresToLsu pd i)
    (hrun : ops.foldlM (step p pd pr pu) (init p x0) = .ok s) :
    s.Mirrors ∧ s.step p pd pr pu .deliverStoreAck ≠ .error (.assertion .storeOutOfOrder) ∧
      s.step p pd pr pu .deliverStoreAck ≠ .error (.assertion .priorityNotInQueue) := by
  obtain ⟨hist, H⟩ := run_invariant hC hpos hrun
  refine ⟨H.mirrors, H.failsIn.ne ?_, H.failsIn.ne ?_⟩
  · simp [Stop.In]
  · simp [Stop.In]

/-- `sw x5, (x1)`. -/
def firstStore : Inst :=
  { uniqueId := 1, programId := 1, pipe := .lsu, isStore := true
    srcs := [⟨1, .rs1, .integer⟩, ⟨5, .rs2, .integer⟩]
    srcs_lt := storeSrcs_lt }

/-- `sc.w x10, x5, (x1)`, which goes to an integer pipe. -/
def storeConditional : Inst :=
  { uniqueId := 1, programId := 1, pipe := .int, isStore := true
    srcs := [⟨1, .rs1, .integer⟩, ⟨5, .rs2, .integer⟩], dests := [⟨10, .rd, .integer⟩]
    srcs_lt := storeSrcs_lt }

/-- An instruction is decoded, renamed and dispatched, and arrives at its unit. -/
def oneArrives (i : Inst) : List CoreOp :=
  [.front (.dispatchCredits 10), .front (.robCredits 30), .front (.unitCredits (.iq 0) 8),
   .front (.unitCredits .lsu 8), .front .nextCycle, .front (.decoded [i]), .flush,
   .front .rename, .front .nextCycle, .front .deliverRenamed, .flush, .front .dispatch,
   .front .nextCycle, .front .deliverDispatched, .deliverUnit 0, .flush]

/-- The store is translated and retires. -/
def firstStoreOps : List CoreOp :=
  oneArrives firstStore ++
  [.units .issueInst, .front .nextCycle, .flush, .front .nextCycle, .flush,
   .units (.lsu .mmuLookup), .units (.lsu (.mmuAck 0 true)), .front .nextCycle, .flush,
   .units (.lsu .cacheLookup), .front .retire, .front .nextCycle]

/-- The integer pipe executes the store, and it retires. -/
def storeConditionalOps : List CoreOp :=
  oneArrives storeConditional ++
  [.units (.sendReadyInsts 0), .units (.executeInst 0 0 false), .units (.completePipe 0 0),
   .front .retire, .front .nextCycle]

theorem store_buffer_mirrors_sample :
    ∃ s, firstStoreOps.foldlM (step {} smallDispatch {} smallUnits) (init {} 0) = .ok s ∧
      s.core.storeAcks.length = 1 ∧ s.Mirrors ∧
      s.step {} smallDispatch {} smallUnits .deliverStoreAck ≠
        .error (.assertion .storeOutOfOrder) := by
  have heval : (firstStoreOps.foldlM (step {} smallDispatch {} smallUnits)
      (init {} 0)).toOption.map (fun s => s.core.storeAcks.length) = some 1 := by
    decide +kernel
  obtain ⟨s, hrun, hacks⟩ := Run.ok_of_eval heval
  have hC : ∀ i ∈ Core.decoded firstStoreOps, StoresToLsu smallDispatch i := by
    intro i hi
    obtain rfl : i = firstStore := by simpa [Core.decoded, firstStoreOps, oneArrives] using hi
    simp [StoresToLsu, firstStore, smallDispatch]
  obtain ⟨hmirrors, hstep, -⟩ :=
    store_buffer_mirrors {} 0 smallDispatch {} smallUnits (by decide) hC hrun
  exact ⟨s, hrun, hacks, hmirrors, hstep⟩

/-- The ROB tells the LSU of a store that has never been there. -/
theorem store_conditional_out_of_order :
    ∃ s, storeConditionalOps.foldlM (step {} smallDispatch {} smallUnits) (init {} 0) = .ok s ∧
      ¬s.Mirrors ∧ s.step {} smallDispatch {} smallUnits .deliverStoreAck =
        .error (.assertion .storeOutOfOrder) := by
  have heval : (storeConditionalOps.foldlM (step {} smallDispatch {} smallUnits)
      (init {} 0)).toOption.map (fun s =>
        (s.core.storeAcks.length, s.storeBuffer.length,
          match s.step {} smallDispatch {} smallUnits .deliverStoreAck with
          | .ok _ => none
          | .error e => some e)) = some (1, 0, some (.assertion .storeOutOfOrder)) := by
    decide +kernel
  obtain ⟨s, hrun, hval⟩ := Run.ok_of_eval heval
  obtain ⟨hacks, hval⟩ := Prod.mk.inj hval
  obtain ⟨hbuffer, hstep⟩ := Prod.mk.inj hval
  refine ⟨s, hrun, fun M => ?_, ?_⟩
  · obtain ⟨ri, hri⟩ := List.length_eq_one_iff.mp hacks
    have hhead := M.oldest ri (by simp [hri])
    rw [List.length_eq_zero_iff.mp hbuffer] at hhead
    cases hhead
  · split at hstep
    · cases hstep
    · rename_i e he
      rw [he, Option.some.inj hstep]

end ClockedCore

end Olympia
