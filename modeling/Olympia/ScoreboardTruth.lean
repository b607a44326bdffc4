import Olympia.OperandsReady

/-!
# The scoreboards tell the truth

A bit is cleared when its register is taken from a free list and set when the instruction that
took it has executed.  Between the two the register may be shared by eliminated moves, and after
a flush or a retirement it may be taken again, by another instruction.  For programs whose
register writers all execute in execution pipes, `Core.Truth` says what every bit is: that of the
constructed unit if the register has never been taken, and otherwise whether the last instruction
that took it has executed its final pass.  An instruction in flight is the last one that took each
of its registers, so executing it sets only bits that are its own.
-/

namespace Olympia

/-- The move is the renaming of an instruction that takes the register from the free list. -/
def Move.took (f : RegFile) (q : ℕ) (m : Move) : Bool :=
  decide (m.place = .renamed) && decide (q ∈ m.inst.destMask f)

theorem Move.took_iff {f : RegFile} {q : ℕ} {m : Move} :
    m.took f q = true ↔ m.place = .renamed ∧ q ∈ m.inst.destMask f := by
  simp [Move.took]

/-- The renaming that last took the register from the free list. -/
def lastTaker (hist : List Move) (f : RegFile) (q : ℕ) : Option Move :=
  Log.latest (Move.took f q) hist

/-- The bit of a register that has never been taken is that of the constructed unit. -/
def initialBit (f : RegFile) (q : ℕ) : Bool := decide (firstReg f ≤ q ∧ q < numRiscvRegs)

/-- Moves other than renamings that take the register do not change who took it. -/
theorem lastTaker_append {hist moves : List Move} {f : RegFile} {q : ℕ}
    (h : ∀ m ∈ moves, m.place = .renamed → q ∉ m.inst.destMask f) :
    lastTaker (hist ++ moves) f q = lastTaker hist f q := by
  refine Log.latest_append_of_forall fun m hm => ?_
  by_contra htook
  obtain ⟨hren, hq⟩ := Move.took_iff.mp (by simpa using htook)
  exact h m hm hren hq

/-- The writers of registers execute in execution pipes: no instruction the LSU may get has a
destination. -/
def Inst.writesInPipes (pd : DispatchParams) (i : Inst) : Prop :=
  .lsu ∈ pd.dispatchers i.pipe → ∀ o ∈ i.dests, o.isX0 = true

namespace Core

/-- What the bits are, and why. -/
structure Truth (hist : List Move) (c : Core) : Prop where
  bits : ∀ f q, c.scoreboards f q =
    match lastTaker hist f q with
    | none => initialBit f q
    | some m => decide (placeAfter hist m.key = some .executed)
  owner : ∀ ri ∈ c.front.rename.instQueue, ∀ f, ∀ q ∈ ri.destMask f,
    lastTaker hist f q = some ⟨ri, .renamed⟩
  taken : ∀ f, ∀ q ∈ refs c.front.rename.mapTable (inFlight c.front.rename.instQueue) f,
    q < numRiscvRegs ∨ lastTaker hist f q ≠ none
  executed : ∀ ri, ⟨ri, .executed⟩ ∈ hist → placeAfter hist ri.key = some .executed

namespace Truth

variable {p : RenameParams} {x0 : ℕ} {pd : DispatchParams} {pr : RobParams} {pu : UnitsParams}
variable {C : Inst → Prop} {hist moves : List Move} {c c' : Core}

theorem init (p : RenameParams) (x0 : ℕ) : Truth [] (Core.init p x0) where
  bits f q := rfl
  owner := by simp [Core.init, InStep.init, RenameState.init]
  taken f q hq := by
    have hrange := (balanced_init p x0 f).refs_mem q hq
    rcases mem_refs_iff.mp hq with ⟨a, ha, hval⟩ | ⟨d, hd, -⟩
    · refine .inl ?_
      obtain ⟨hlt, hne⟩ := mem_archRegs.mp ha
      have hmap : setupMap x0 (f, a) = a := by
        cases f with
        | integer => cases a with
          | zero => exact absurd ⟨rfl, rfl⟩ hne
          | succ a => rfl
        | float => rfl
        | vector => rfl
      have hval' : setupMap x0 (f, a) = q := hval
      rw [← hval', hmap]
      exact hlt
    · simp [Core.init, InStep.init, RenameState.init, inFlight] at hd
  executed := by simp

/-- Moves that take nothing and neither start nor end at the end of an execution. -/
theorem of_moves (H : Truth hist c) (hmoved : Moved moves (placeAfter hist)
      (placeAfter (hist ++ moves)))
    (hfrom : ∀ m ∈ moves, placeAfter hist m.key ≠ some .executed ∧ m.place ≠ .renamed ∧
      m.place ≠ .executed)
    (hsb : c'.scoreboards = c.scoreboards)
    (hqueue : ∀ ri ∈ c'.front.rename.instQueue, ri ∈ c.front.rename.instQueue)
    (hrefs : ∀ f, ∀ q ∈ refs c'.front.rename.mapTable (inFlight c'.front.rename.instQueue) f,
      q ∈ refs c.front.rename.mapTable (inFlight c.front.rename.instQueue) f) :
    Truth (hist ++ moves) c' := by
  have hlast : ∀ f q, lastTaker (hist ++ moves) f q = lastTaker hist f q := fun f q =>
    lastTaker_append fun m hm hren => absurd hren (hfrom m hm).2.1
  have hplace : ∀ k, placeAfter (hist ++ moves) k = some .executed ↔
      placeAfter hist k = some .executed := by
    intro k
    by_cases hmove : ∃ m ∈ moves, m.key = k
    · obtain ⟨m, hm, rfl⟩ := hmove
      rw [hmoved.moved m hm]
      exact ⟨fun h => absurd (Option.some.inj h) (hfrom m hm).2.2,
        fun h => absurd h (hfrom m hm).1⟩
    · rw [hmoved.stays k fun m hm heq => hmove ⟨m, hm, heq⟩]
  refine ⟨fun f q => ?_, fun ri hri f q hq => ?_, fun f q hq => ?_, fun ri hri => ?_⟩
  · rw [hsb, H.bits, hlast]
    rcases lastTaker hist f q with _ | m
    · rfl
    · exact decide_eq_decide.mpr (hplace m.key).symm
  · rw [hlast]
    exact H.owner ri (hqueue ri hri) f q hq
  · rw [hlast]
    exact H.taken f q (hrefs f q hq)
  · rw [hplace]
    rcases List.mem_append.mp hri with hri | hri
    · exact H.executed ri hri
    · exact absurd rfl (hfrom _ hri).2.2

theorem still (H : Truth hist c) (hsb : c'.scoreboards = c.scoreboards)
    (hqueue : ∀ ri ∈ c'.front.rename.instQueue, ri ∈ c.front.rename.instQueue)
    (hrefs : ∀ f, ∀ q ∈ refs c'.front.rename.mapTable (inFlight c'.front.rename.instQueue) f,
      q ∈ refs c.front.rename.mapTable (inFlight c.front.rename.instQueue) f) :
    Truth hist c' := by
  have hmoved : Moved [] (placeAfter hist) (placeAfter (hist ++ [])) := by
    rw [List.append_nil]
    exact .nil _
  have h := H.of_moves hmoved (by simp) hsb hqueue hrefs
  rwa [List.append_nil] at h

/-! ## Renaming -/

/-- No two instructions renamed together take the same register. -/
theorem eq_of_taken {l : List RenamedInst} (hl : l.Pairwise InStep.Apart) {ri rj : RenamedInst}
    (hri : ri ∈ l) (hrj : rj ∈ l) {f : RegFile} {q : ℕ} (hq : q ∈ ri.destMask f)
    (hq' : q ∈ rj.destMask f) : ri = rj := by
  have hdisjoint : l.Pairwise fun i j => ∀ f q, q ∈ i.destMask f → q ∉ j.destMask f :=
    hl.imp fun h f q hi hj => (h f q hj).2.2 hi
  have : Std.Symm fun i j : RenamedInst => ∀ f q, q ∈ i.destMask f → q ∉ j.destMask f :=
    ⟨fun i j h f q hj hi => h f q hi hj⟩
  by_contra hne
  exact hdisjoint.forall hri hrj hne f q hq hq'

theorem front {op : InStepOp} (I : Inv p x0 pd C hist c) (H : Truth hist c)
    (hstep : c.step p pd pr pu (.front op) = .ok c') :
    Truth (hist ++ c.moves p pd pu (.front op)) c' := by
  cases step_stepped hstep with
  | @front _ s' hop hs' =>
    have F := I.ordered.frontSpec hop hs'
    obtain ⟨hnodup, hfrom⟩ := I.front_moves pu F
    have hmoved := moved_placeAfter hist hnodup
    have hmem : ∀ m ∈ c.moves p pd pu (.front op), m.place = .renamed →
        m.inst ∈ c.front.renames p op := by
      intro m hm hren
      rcases List.mem_append.mp hm with hm | hm
      · obtain ⟨ri, hri, rfl⟩ := List.mem_map.mp hm
        exact hri
      · obtain ⟨x, -, rfl⟩ := List.mem_map.mp hm
        cases hren
    have htaken : ∀ rj ∈ c.front.renames p op, ∀ f, ∀ q ∈ rj.destMask f,
        lastTaker (hist ++ c.moves p pd pu (.front op)) f q = some ⟨rj, .renamed⟩ := by
      intro rj hrj f q hq
      refine Log.latest_append_of_unique (by simp [moves, hrj]) (Move.took_iff.mpr ⟨rfl, hq⟩) ?_
      intro m hm htook
      obtain ⟨hren, hq'⟩ := Move.took_iff.mp htook
      have heq := eq_of_taken F.pairwise (hmem m hm hren) hrj hq' hq
      rw [← heq, ← hren]
    have hsame : ∀ f q, (∀ rj ∈ c.front.renames p op, q ∉ rj.destMask f) →
        lastTaker (hist ++ c.moves p pd pu (.front op)) f q = lastTaker hist f q := by
      intro f q hq
      exact lastTaker_append fun m hm hren => hq m.inst (hmem m hm hren)
    have hplace : ∀ k, placeAfter (hist ++ c.moves p pd pu (.front op)) k = some .executed ↔
        placeAfter hist k = some .executed := by
      intro k
      by_cases hmove : ∃ m ∈ c.moves p pd pu (.front op), m.key = k
      · obtain ⟨m, hm, rfl⟩ := hmove
        rw [hmoved.moved m hm]
        constructor
        · intro h
          have hexe : m.place = .executed := Option.some.inj h
          rcases List.mem_append.mp hm with hm | hm
          · obtain ⟨ri, -, rfl⟩ := List.mem_map.mp hm
            cases hexe
          · obtain ⟨x, -, rfl⟩ := List.mem_map.mp hm
            cases hexe
        · intro h
          rcases hfrom m hm with hnone | hren
          · cases hnone.symm.trans h
          · cases hren.symm.trans h
      · rw [hmoved.stays k fun m hm heq => hmove ⟨m, hm, heq⟩]
    have hbits := F.tables.scoreboards
    refine ⟨fun f q => ?_, fun ri hri f q hq => ?_, fun f q hq => ?_, fun ri hri => ?_⟩
    · show s'.rename.toRenameTables.scoreboards f q = _
      rw [hbits]
      by_cases htook : ∃ rj ∈ c.front.renames p op, q ∈ rj.destMask f
      · obtain ⟨rj, hrj, hq⟩ := htook
        rw [if_pos ⟨rj, hrj, hq⟩, htaken rj hrj f q hq]
        have hthere := hmoved.moved ⟨rj, .renamed⟩ (by simp [moves, hrj])
        simp only [hthere]
        rfl
      · rw [if_neg htook, hsame f q fun rj hrj hq => htook ⟨rj, hrj, hq⟩]
        have hold : c.front.rename.toRenameTables.scoreboards f q = _ := H.bits f q
        rw [hold]
        rcases lastTaker hist f q with _ | m
        · rfl
        · exact decide_eq_decide.mpr (hplace m.key).symm
    · rcases F.queue ri hri with hri | hri
      · rw [hsame f q fun rj hrj hq' => (F.apart ri hri rj hrj f q hq').2.2 hq]
        exact H.owner ri hri f q hq
      · exact htaken ri hri f q hq
    · by_cases htook : ∃ rj ∈ c.front.renames p op, q ∈ rj.destMask f
      · obtain ⟨rj, hrj, hq⟩ := htook
        rw [htaken rj hrj f q hq]
        exact .inr (by simp)
      · rw [hsame f q fun rj hrj hq => htook ⟨rj, hrj, hq⟩]
        rcases F.tables.refs f q hq with hq | hq
        · exact H.taken f q hq
        · exact absurd hq htook
    · rw [hplace]
      rcases List.mem_append.mp hri with hri | hri
      · exact H.executed ri hri
      · simp [moves] at hri

/-! ## Execution -/

/-- The writeback of the LSU changes nothing for an instruction without destinations. -/
theorem lsuWriteback_eq {sb sb' : Scoreboards} {ri : RenamedInst} {m : ArchReg → ℕ}
    (hwell : ri.WellRenamed p m) (hnone : ∀ o ∈ ri.inst.dests, o.isX0 = true)
    (h : Lsu.writeback sb ri = .ok sb') : sb' = sb := by
  have hmask : ∀ f, ri.destMask f = ∅ := by
    intro f
    refine Finset.eq_empty_of_forall_notMem fun q hq => ?_
    obtain ⟨d, hd, -, -⟩ := hwell.mask_dest f q hq
    have hx0 := hwell.isX0_eq_false hd
    have hmem : d.opInfo ∈ ri.inst.dests.filter fun o => !o.isX0 := by
      rw [← hwell.dests_eq]
      exact List.mem_map_of_mem hd
    rw [hnone _ (List.mem_of_mem_filter hmem)] at hx0
    cases hx0
  unfold Lsu.writeback at h
  split at h
  · exact (Except.ok.inj h).symm
  · rename_i d _
    obtain rfl := Except.ok.inj h
    rw [hmask]
    have hset : (sb d.regFile).setReady ∅ = sb d.regFile := by
      funext q
      simp [Scoreboard.setReady]
    rw [hset, Function.update_eq_self]
  · cases h

theorem unitsStep {op : UnitsOp} (I : Inv p x0 pd (Inst.writesInPipes pd) hist c)
    (H : Truth hist c) (hstep : c.step p pd pr pu (.units op) = .ok c') :
    Truth (hist ++ c.moves p pd pu (.units op)) c' := by
  cases step_stepped hstep with
  | @units _ out hout =>
    have D := I.units.step I.view_unique hout
    have hmoves : c.moves p pd pu (.units op) = out.moves := by simp only [moves, hout]
    rw [hmoves]
    have hmoved := moved_placeAfter hist D.nodup
    rcases D.scoreboards with ⟨hnone, hsb⟩ | ⟨ri, -, hmove, ⟨n, hknown⟩, hlive, hsb⟩
    · have hsame : out.scoreboards = c.scoreboards := by
        rcases hsb with hsb | ⟨ri, ⟨hren, hserves⟩, hwb⟩
        · exact hsb
        · obtain ⟨⟨m, hwell⟩, hcond⟩ := I.renamed ri hren
          exact lsuWriteback_eq hwell (hcond hserves) hwb
      refine H.of_moves hmoved (fun m hm => ⟨D.unexecuted m hm, fun hren => ?_, fun hexe => ?_⟩)
        hsame (fun ri hri => hri) (fun f q hq => hq)
      · have harr := (D.moves m hm).1
        rw [hren] at harr
        cases harr
      · obtain ⟨ri, pl⟩ := m
        obtain rfl : pl = .executed := hexe
        simp [UnitsOut.moves, hnone] at hm
    · -- an execution ends: the registers of the instruction are its own
      rw [hmove] at hmoved ⊢
      have hthere : placeAfter (hist ++ [⟨ri, .executed⟩]) ri.key = some .executed :=
        hmoved.moved ⟨ri, .executed⟩ List.mem_cons_self
      have hstay : ∀ k, k ≠ ri.key →
          placeAfter (hist ++ [⟨ri, .executed⟩]) k = placeAfter hist k := by
        intro k hk
        refine hmoved.stays k fun m hm heq => hk ?_
        obtain rfl := List.mem_singleton.mp hm
        exact heq.symm
      have hlast : ∀ f q, lastTaker (hist ++ [⟨ri, .executed⟩]) f q = lastTaker hist f q := by
        intro f q
        refine lastTaker_append fun m hm hren => ?_
        obtain rfl := List.mem_singleton.mp hm
        cases hren
      have hqueue : ri ∈ c.front.rename.instQueue := I.ordered.mem_of_live hlive
      refine ⟨fun f q => ?_, fun rj hrj f q hq => ?_, fun f q hq => ?_, fun rj hrj => ?_⟩
      · show out.scoreboards f q = _
        rw [hsb, hlast]
        by_cases hq : q ∈ ri.destMask f
        · rw [H.owner ri hqueue f q hq]
          have hkey : (⟨ri, .renamed⟩ : Move).key = ri.key := rfl
          simp [ExecutePipe.writeback, Scoreboard.setReady, hq, hkey, hthere]
        · have hbit : ExecutePipe.writeback c.scoreboards ri f q = c.scoreboards f q := by
            simp [ExecutePipe.writeback, Scoreboard.setReady, hq]
          have hbits := H.bits f q
          refine hbit.trans (hbits.trans ?_)
          rcases htaker : lastTaker hist f q with _ | m
          · rfl
          · obtain ⟨hren, hmask⟩ := Move.took_iff.mp (Log.of_latest htaker)
            have hne : m.key ≠ ri.key := by
              intro heq
              have hmren := I.moved m (Log.mem_of_latest htaker)
              have hinst := I.unique m.inst ri hmren (I.queue ri hqueue) heq
              rw [hinst] at hmask
              exact hq hmask
            dsimp only
            rw [hstay m.key hne]
      · rw [hlast]
        exact H.owner rj hrj f q hq
      · rw [hlast]
        exact H.taken f q hq
      · by_cases hkey : rj.key = ri.key
        · rw [hkey]
          exact hthere
        · rw [hstay _ hkey]
          rcases List.mem_append.mp hrj with hrj | hrj
          · exact H.executed rj hrj
          · obtain ⟨rfl, -⟩ := Move.mk.inj (List.mem_singleton.mp hrj)
            exact absurd rfl hkey

/-! ## Runs -/

theorem step {op : CoreOp} (I : Inv p x0 pd (Inst.writesInPipes pd) hist c) (H : Truth hist c)
    (hstep : c.step p pd pr pu op = .ok c') : Truth (hist ++ c.moves p pd pu op) c' := by
  cases step_stepped hstep with
  | front => exact H.front I hstep
  | units => exact H.unitsStep I hstep
  | @flush s' _ _ hs' =>
    obtain ⟨-, htables, hcase⟩ := I.ordered.flush_spec hs'
    simp only [moves, List.append_nil]
    refine H.still ?_ (fun ri hri => ?_) (fun f q hq => ?_)
    · funext f q
      show s'.rename.toRenameTables.scoreboards f q = _
      simpa [scoreboards] using htables.scoreboards f q
    · have hri : ri ∈ s'.rename.instQueue := hri
      rcases hforward : FlushManager.forwardUpper c.front.pendingFlush with _ | criteria
      · simp only [hforward] at hcase
        rw [hcase.1] at hri
        exact hri
      · simp only [hforward] at hcase
        rw [hcase.1] at hri
        cases hri
    · rcases htables.refs f q hq with hq | ⟨rj, hrj, -⟩
      · exact hq
      · cases hrj
  | @deliverUnit i d ri _ _ _ hi _ =>
    have hmoves : c.moves p pd pu (.deliverUnit i) = [⟨ri, .waiting d⟩] := by simp [moves, hi]
    rw [hmoves]
    refine H.of_moves (moved_placeAfter _ (by simp)) (fun m hm => ?_) rfl (fun ri hri => hri)
      (fun f q hq => hq)
    obtain rfl := List.mem_singleton.mp hm
    refine ⟨fun hexe => ?_, by simp, by simp⟩
    have hsent := (I.toUnit (d, ri) (List.mem_of_getElem? hi)).2.1
    cases hsent.symm.trans hexe
  | deliverStoreAck =>
    simp only [moves, List.append_nil]
    exact H.still rfl (fun ri hri => hri) (fun f q hq => hq)

end Truth

/-- The physical register is in `map_table_`, or an instruction in `inst_queue_` has it as a
source, as its data register, as a destination or as a `prev_dest`. -/
def Recorded (c : Core) (f : RegFile) (q : ℕ) : Prop :=
  (∃ a ∈ archRegs f, c.front.rename.mapTable (f, a) = q) ∨
    ∃ ri ∈ c.front.rename.instQueue,
      (∃ r ∈ ri.src, r.opInfo.regFile = f ∧ r.physReg = q) ∨
      (∃ r, ri.dataReg = some r ∧ r.opInfo.isX0 = false ∧ r.opInfo.regFile = f ∧
        r.physReg = q) ∨
      ∃ d ∈ ri.dest, d.opInfo.regFile = f ∧ (d.physReg = q ∨ d.prevDest = q)

/-- What is recorded is referenced. -/
theorem Recorded.mem_refs {p : RenameParams} {x0 : ℕ} {c : Core} {f : RegFile} {q : ℕ}
    {h : List RenamedInst} (H : TablesInv p x0 h c.front.rename.toRenameTables)
    (hq : c.Recorded f q) :
    q ∈ refs c.front.rename.mapTable (inFlight c.front.rename.instQueue) f := by
  rcases hq with ⟨a, ha, rfl⟩ | ⟨ri, hri, hop⟩
  · exact mem_refs_of_map ha
  · obtain ⟨m, hwell⟩ := H.exists_wellRenamed hri
    rcases hop with ⟨r, hr, rfl, rfl⟩ | ⟨r, hr, hx0, rfl, rfl⟩ | ⟨d, hd, rfl, rfl | rfl⟩
    · exact H.mem_refs_of_source hri (.inl (hwell.sources.src_mem_srcMask hr))
    · exact H.mem_refs_of_source hri (.inr (hwell.sources.dataReg_mem_dataMask hr hx0))
    · exact H.mem_refs_of_dest hri hd
    · exact mem_refs_of_prevDest (List.mem_flatMap.mpr ⟨ri, hri, hd⟩)

end Core

/-- In every state of a run whose register writers all execute in execution pipes, the bit of a
recorded physical register is set exactly if the register was never taken from the free list, or
the instruction that took it last has executed its final pass. -/
theorem scoreboards_tell_the_truth (p : RenameParams) (x0 : ℕ) (pd : DispatchParams)
    (pr : RobParams) (pu : UnitsParams) {ops : List CoreOp} {hist : List Move} {c : Core}
    (hpipes : ∀ i ∈ Core.decoded ops, i.writesInPipes pd)
    (hrun : ops.foldlM (Core.run p pd pr pu) ([], Core.init p x0) = .ok (hist, c))
    {f : RegFile} {q : ℕ} (hq : c.Recorded f q) :
    c.scoreboards f q = true ↔
      lastTaker hist f q = none ∨
        ∃ ri, lastTaker hist f q = some ⟨ri, .renamed⟩ ∧ ⟨ri, .executed⟩ ∈ hist := by
  obtain ⟨I, H⟩ := Core.run_invariant (I := Core.Truth) hpipes hrun (.init p x0)
    fun _ _ _ _ I H _ hstep => H.step I hstep
  obtain ⟨h, Ht⟩ := I.ordered.tables
  have hrefs := hq.mem_refs Ht
  rw [H.bits]
  rcases htaker : lastTaker hist f q with _ | m
  · -- never taken: one of the registers the unit was constructed with
    have hfirst := ((Ht.balanced f).refs_mem q hrefs).1
    have hlt : q < numRiscvRegs := by
      rcases H.taken f q hrefs with hlt | htaken
      · exact hlt
      · exact absurd htaker htaken
    simp [initialBit, hfirst, hlt]
  · obtain ⟨ri, pl⟩ := m
    obtain ⟨hren, -⟩ := Move.took_iff.mp (Log.of_latest htaker)
    obtain rfl : pl = .renamed := hren
    have hmem := Log.mem_of_latest htaker
    simp only [decide_eq_true_eq, reduceCtorEq, false_or]
    constructor
    · intro hplace
      obtain ⟨rj, hrj, hkey⟩ := mem_of_placeAfter hplace
      rw [I.unique rj ri (I.moved _ hrj) hmem hkey] at hrj
      exact ⟨ri, rfl, hrj⟩
    · rintro ⟨rj, hrj, hexe⟩
      obtain ⟨rfl, -⟩ := Move.mk.inj (Option.some.inj hrj)
      exact H.executed ri hexe

/-- The register of a producer that has been dispatched, but has not executed, is recorded and not
ready. -/
theorem scoreboards_tell_the_truth_sample :
    ∃ hist c, (arrivalOps storeWord).foldlM (Core.run {} smallDispatch {} smallUnits)
        ([], Core.init {} 0) = .ok (hist, c) ∧
      c.Recorded .integer (c.front.rename.mapTable (.integer, 5)) ∧
      c.scoreboards .integer (c.front.rename.mapTable (.integer, 5)) = false ∧
      ¬(lastTaker hist .integer (c.front.rename.mapTable (.integer, 5)) = none ∨
        ∃ ri, lastTaker hist .integer (c.front.rename.mapTable (.integer, 5)) =
          some ⟨ri, .renamed⟩ ∧ ⟨ri, .executed⟩ ∈ hist) := by
  have heval : ((arrivalOps storeWord).foldlM (Core.run {} smallDispatch {} smallUnits)
      ([], Core.init {} 0)).toOption.map (fun hc =>
        hc.2.scoreboards .integer (hc.2.front.rename.mapTable (.integer, 5))) = some false := by
    decide +kernel
  obtain ⟨⟨hist, c⟩, hrun, hbit⟩ := Run.ok_of_eval heval
  have hpipes : ∀ i ∈ Core.decoded (arrivalOps storeWord), i.writesInPipes smallDispatch := by
    unfold Inst.writesInPipes
    decide
  have hq : c.Recorded .integer (c.front.rename.mapTable (.integer, 5)) :=
    .inl ⟨5, by decide, rfl⟩
  refine ⟨hist, c, hrun, hq, hbit, ?_⟩
  rw [← scoreboards_tell_the_truth {} 0 smallDispatch {} smallUnits hpipes hrun hq]
  simp only [hbit, Bool.false_eq_true, not_false_iff]

end Olympia
