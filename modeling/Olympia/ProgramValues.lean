import Olympia.RetiredInsts
import Olympia.ScoreboardTruth
import Olympia.Unexecuted
import Olympia.Rename.Values

/-!
# Out-of-order execution computes what the program says

Instructions are issued out of order, from issue queues that look at scoreboards only, and they
read physical registers that are renamed, shared by eliminated moves, freed by retirements and by
flushes, and taken again.  `valuesOf` puts values into these registers: an instruction reads its
operands when it is passed to an execution pipe, and writes its results when its final pass is
done.

`Core.Tracks` says that the values are those of the program, that is of the instructions that have
retired followed by those that are in flight, executed one after the other.  It rests on the
renaming (`TablesInv`), the scoreboards (`Core.Truth`) and the places of instructions
(`Core.Inv`); what happens to the values is said in `Dataflow`.
-/

namespace Olympia

open Dataflow (Values)

/-! ## Values in the physical registers -/

section Values

variable {p : RenameParams} {V : Type}

/-- What a move of an instruction does to the values. -/
def moveValues (sem : RegisterSemantics p V) (x0 : ℕ) (v : Values (RegFile × ℕ) InstKey V)
    (m : Move) : Values (RegFile × ℕ) InstKey V :=
  match m.place with
  | .working _ => v.read (registerRenaming x0) m.inst
  | .executed => v.write sem.toSemantics (registerRenaming x0) m.inst
  | _ => v

/-- The values after a history, if the physical registers held `regs` in the beginning. -/
def valuesOf (sem : RegisterSemantics p V) (x0 : ℕ) (regs : RegFile × ℕ → V) (hist : List Move) :
    Values (RegFile × ℕ) InstKey V :=
  hist.foldl (moveValues sem x0) ⟨regs, fun _ => []⟩

/-- The values of the architectural registers in the beginning. -/
def initialRegs (x0 : ℕ) (regs : RegFile × ℕ → V) (r : ArchReg) : V := regs (r.1, setupMap x0 r)

end Values

/-- The instruction that has last taken the register from the free list. -/
def takerOf (hist : List Move) (t : RegFile × ℕ) : Option RenamedInst :=
  (lastTaker hist t.1 t.2).map Move.inst

/-- The instruction has been passed to an execution pipe. -/
def HasRead (hist : List Move) (ri : RenamedInst) : Prop := ∃ e, ⟨ri, .working e⟩ ∈ hist

/-- The final pass of the instruction is done. -/
def HasWritten (hist : List Move) (ri : RenamedInst) : Prop := ⟨ri, .executed⟩ ∈ hist

/-- The values are those of the program `retired ++ live`. -/
def ValuesFlow {p : RenameParams} {V : Type} (sem : RegisterSemantics p V) (x0 : ℕ)
    (regs : RegFile × ℕ → V) (retired live : List RenamedInst) (hist : List Move) : Prop :=
  Dataflow.Computes sem.toSemantics (registerRenaming x0) isArchReg (initialRegs x0 regs) regs
    retired live (takerOf hist) (HasRead hist) (HasWritten hist) (valuesOf sem x0 regs hist)

/-! ## What moves do to the values -/

namespace ValuesFlow

variable {p : RenameParams} {V : Type} {sem : RegisterSemantics p V} {x0 : ℕ}
variable {regs : RegFile × ℕ → V} {h live : List RenamedInst} {hist moves : List Move}
variable {ri : RenamedInst}

theorem init : ValuesFlow sem x0 regs [] [] [] :=
  Dataflow.Computes.init (fun _ => rfl) (fun _ _ => rfl) rfl

/-- Moves that neither take, nor read, nor write. -/
theorem silent (H : ValuesFlow sem x0 regs h live hist) (hmoves : ∀ m ∈ moves, m.place ≠ .renamed ∧
      m.place ≠ .executed ∧ ∀ e, m.place ≠ .working e) :
    ValuesFlow sem x0 regs h live (hist ++ moves) := by
  refine H.congr ?_ (fun r hr => ?_) (fun r hr => ?_) ?_
  · funext t
    unfold takerOf
    rw [lastTaker_append fun m hm hren => absurd hren (hmoves m hm).1]
  · obtain ⟨e, he⟩ := hr
    refine ⟨e, (List.mem_append.mp he).resolve_right fun hm => ?_⟩
    exact (hmoves _ hm).2.2 e rfl
  · exact (List.mem_append.mp hr).resolve_right fun hm => (hmoves _ hm).2.1 rfl
  · unfold valuesOf
    rw [List.foldl_append]
    generalize hist.foldl (moveValues sem x0) _ = v
    induction moves generalizing v with
    | nil => rfl
    | cons m moves ih =>
      rw [List.foldl_cons]
      have hm := hmoves m List.mem_cons_self
      have hsame : moveValues sem x0 v m = v := by
        unfold moveValues
        split
        · rename_i e he
          exact absurd he (hm.2.2 e)
        · rename_i he
          exact absurd he hm.2.1
        · rfl
      rw [hsame]
      exact ih (fun m' hm' => hmoves m' (List.mem_cons_of_mem _ hm')) v

/-- The last taker of a register after a renaming. -/
theorem takerOf_renamed {m : ArchReg → ℕ} (hwell : ri.WellRenamed p m) :
    takerOf (hist ++ [⟨ri, .renamed⟩]) = (registerRenaming x0).take (takerOf hist) ri := by
  funext ⟨f, q⟩
  unfold takerOf Dataflow.Renaming.take
  have hdest : ((registerRenaming x0).dest ri (f, q)).isSome = true ↔ q ∈ ri.destMask f :=
    RenamedInst.destOf_isSome_iff hwell
  by_cases hq : q ∈ ri.destMask f
  · rw [if_pos (hdest.mpr hq)]
    have hlast : lastTaker (hist ++ [⟨ri, .renamed⟩]) f q = some ⟨ri, .renamed⟩ := by
      refine Log.latest_append_of_unique List.mem_cons_self (Move.took_iff.mpr ⟨rfl, hq⟩) ?_
      exact fun m hm _ => List.mem_singleton.mp hm
    rw [hlast]
    rfl
  · rw [if_neg fun h => hq (hdest.mp h), lastTaker_append]
    rintro m hm - hmask
    rw [List.mem_singleton.mp hm] at hmask
    exact hq hmask

/-- An instruction that has moved is not new. -/
theorem not_mem_of_place {k : InstKey} {pl : Place} (hnone : placeAfter hist k = none)
    (hkey : ri.key = k) : ⟨ri, pl⟩ ∉ hist :=
  fun hmem => placeAfter_eq_none.mp hnone _ hmem hkey

/-- An instruction is renamed. -/
theorem renameInst {t t' : RenameTables} {i : Inst} (Ht : TablesInv p x0 h t)
    (H : ValuesFlow sem x0 regs h t.instQueue hist) (hren : renameInst p t i = .ok (t', ri))
    (hknown : ∀ rj ∈ h ++ t.instQueue, ⟨rj, .renamed⟩ ∈ hist)
    (hnew : placeAfter hist i.key = none) :
    ValuesFlow sem x0 regs h t'.instQueue (hist ++ [⟨ri, .renamed⟩]) := by
  obtain ⟨Ht', hqueue, hinst, hfree, -⟩ := Ht.renameInst_spec hren
  have hkey : ri.key = i.key := by rw [RenamedInst.key, hinst]
  have hwell : ri.WellRenamed p (tableAfter x0 (h ++ t.instQueue)) :=
    Ht'.wellRenamed (h ++ t.instQueue) ri [] (by rw [hqueue, List.append_assoc])
  have hR := Dataflow.Computes.rename H (hwell.renames sem (Ht.takesOnce hren)) ?_ ?_
    (fun ⟨_, he⟩ => not_mem_of_place hnew hkey he) (not_mem_of_place hnew hkey)
  · rw [hqueue]
    refine hR.congr (takerOf_renamed hwell) (fun r ⟨e, he⟩ => ⟨e, ?_⟩) (fun r hr => ?_) ?_
    · simpa using he
    · simpa [HasWritten] using hr
    · simp [valuesOf, moveValues]
  · intro hmem
    obtain ⟨rj, hrj, heq⟩ := List.mem_map.mp hmem
    exact not_mem_of_place hnew (heq.trans hkey) (hknown rj hrj)
  · -- what comes from the free list is not in the map table, now or before
    intro older younger hsplit r hr
    by_contra hne
    obtain ⟨r', hr'⟩ := Option.ne_none_iff_exists'.mp hne
    have hmask := (RenamedInst.mem_destMask_of_destOf hr').1
    exact (Ht.balanced r.1).not_mem_refs (hfree _ _ hmask) (Ht.mem_refs_of_past hsplit hr)

/-- Instructions are renamed one after the other. -/
theorem renames (sem : RegisterSemantics p V) (regs : RegFile × ℕ → V) :
    ∀ (l : List Inst) {t t' : RenameTables}, TablesInv p x0 h t →
    (l.map TableOp.rename).foldlM (RenameTables.step p) t = .ok t' →
    ∃ new, t'.instQueue = t.instQueue ++ new ∧ ∀ hist, ValuesFlow sem x0 regs h t.instQueue hist →
      (∀ rj ∈ h ++ t.instQueue, ⟨rj, .renamed⟩ ∈ hist) →
      (∀ rj ∈ new, placeAfter hist rj.key = none) → (new.map RenamedInst.key).Nodup →
      ValuesFlow sem x0 regs h t'.instQueue (hist ++ new.map fun rj => ⟨rj, .renamed⟩)
  | [], t, t', _, hrun => by
    obtain rfl : t = t' := Except.ok.inj hrun
    exact ⟨[], (List.append_nil _).symm, fun hist H _ _ _ => by simpa using H⟩
  | i :: l, t, t', Ht, hrun => by
    rw [List.map_cons, List.foldlM_cons] at hrun
    obtain ⟨t₁, hstep, hrest⟩ := Run.bind_eq_ok.mp hrun
    obtain ⟨⟨t₂, ri⟩, hren, hret⟩ := Run.bind_eq_ok.mp hstep
    obtain rfl : t₂ = t₁ := Except.ok.inj hret
    obtain ⟨Ht₂, hqueue, hinst, -, -⟩ := Ht.renameInst_spec hren
    obtain ⟨new, hnew, hall⟩ := renames sem regs l Ht₂ hrest
    refine ⟨ri :: new, by rw [hnew, hqueue, List.append_assoc]; rfl, ?_⟩
    intro hist H hknown hplace hnodup
    obtain ⟨hfirst, hplaces⟩ := List.forall_mem_cons.mp hplace
    obtain ⟨hnot, hnodup⟩ := List.nodup_cons.mp hnodup
    have hkey : ri.key = i.key := by rw [RenamedInst.key, hinst]
    have H₂ := H.renameInst Ht hren hknown (hkey ▸ hfirst)
    have hrec := hall _ H₂ (fun rj hrj => ?_) (fun rj hrj => ?_) hnodup
    · simpa using hrec
    · rw [hqueue, ← List.append_assoc] at hrj
      rcases List.mem_append.mp hrj with hrj | hrj
      · exact List.mem_append_left _ (hknown rj hrj)
      · rw [List.mem_singleton.mp hrj]
        simp
    · refine placeAfter_eq_none.mpr fun m hm heq => ?_
      rcases List.mem_append.mp hm with hm | hm
      · exact placeAfter_eq_none.mp (hplaces rj hrj) m hm heq
      · rw [List.mem_singleton.mp hm] at heq
        exact hnot (List.mem_map.mpr ⟨rj, hrj, heq.symm⟩)

/-- An instruction that is passed to a pipe reads its operands, all of which are ready. -/
theorem issue {e : PipeId} {older younger : List RenamedInst}
    (H : ValuesFlow sem x0 regs h live hist) (hlive : live = older ++ ri :: younger)
    (hwell : ri.WellRenamed p (tableAfter x0 (h ++ older)))
    (hnone : (ri.inst.srcs.all fun o => o.isX0 || !ri.inst.isDataOperand o) = true)
    (hready : ∀ r ∈ ri.src, ∀ w, takerOf hist (r.opInfo.regFile, r.physReg) = some w →
      HasWritten hist w) :
    ValuesFlow sem x0 regs h live (hist ++ [⟨ri, .working e⟩]) := by
  have hmem : ri ∈ live := by
    rw [hlive]
    simp
  have hread := Dataflow.Computes.read H hmem (fun r hr => Inst.isArchReg_of_reads hr) ?_ ?_
  · refine hread.congr ?_ (fun r ⟨e', he⟩ => ?_) (fun r hr => ?_) ?_
    · funext t
      unfold takerOf
      rw [lastTaker_append]
      intro m hm hren
      rw [List.mem_singleton.mp hm] at hren
      cases hren
    · rcases List.mem_append.mp he with he | he
      · exact .inr ⟨e', he⟩
      · exact .inl (Move.mk.inj (List.mem_singleton.mp he)).1
    · simpa [HasWritten] using hr
    · simp [valuesOf, moveValues]
  · intro before after hsplit
    obtain rfl : before = h ++ older := Dataflow.split_unique H.nodup hsplit
      (by rw [hlive, List.append_assoc])
    exact hwell.sources_eq hnone
  · intro t ht
    obtain ⟨r, hr, rfl⟩ := List.mem_map.mp ht
    exact hready r hr

/-- An instruction whose final pass is done writes its results. -/
theorem execute (H : ValuesFlow sem x0 regs h live hist) (hread : HasRead hist ri)
    (howner : ∀ f, ∀ q ∈ ri.destMask f, lastTaker hist f q = some ⟨ri, .renamed⟩) :
    ValuesFlow sem x0 regs h live (hist ++ [⟨ri, .executed⟩]) := by
  have hwrite := Dataflow.Computes.write H hread ?_
  · refine hwrite.congr ?_ (fun r ⟨e, he⟩ => ⟨e, ?_⟩) (fun r hr => ?_) ?_
    · funext t
      unfold takerOf
      rw [lastTaker_append]
      intro m hm hren
      rw [List.mem_singleton.mp hm] at hren
      cases hren
    · simpa using he
    · rcases List.mem_append.mp hr with hr | hr
      · exact .inr hr
      · exact .inl (Move.mk.inj (List.mem_singleton.mp hr)).1
    · simp [valuesOf, moveValues]
  · rintro ⟨f, q⟩ r hdest
    unfold takerOf
    rw [howner f q (RenamedInst.mem_destMask_of_destOf hdest).1]
    rfl

end ValuesFlow

/-! ## The core -/

/-- The instruction has its operands tested by the issue queues that may get it, and writes no
register if the LSU may get it. -/
def Inst.runsInPipes (pd : DispatchParams) (i : Inst) : Prop :=
  i.writesInPipes pd ∧ ∀ n, .iq n ∈ pd.dispatchers i.pipe → i.checkedBy (.iq n) = true

namespace Core

/-- The core with the history of its moves, and with the instructions that have retired. -/
def retiring (p : RenameParams) (pd : DispatchParams) (pr : RobParams) (pu : UnitsParams) :
    List RenamedInst × List Move × Core → CoreOp →
      Except Stop (List RenamedInst × List Move × Core) :=
  Run.traced (run p pd pr pu) fun hc => hc.2.retires pr

/-- The values in the core are those of the program.  `h` are the instructions of whose retirement
Rename has been told. -/
structure Tracks {p : RenameParams} {V : Type} (sem : RegisterSemantics p V) (x0 : ℕ)
    (regs : RegFile × ℕ → V) (h retired : List RenamedInst) (hist : List Move) (c : Core) :
    Prop where
  retired : retired = h ++ c.front.retireAck
  tables : TablesInv p x0 h c.front.rename.toRenameTables
  known : ∀ ri ∈ h, ⟨ri, .renamed⟩ ∈ hist
  flows : ValuesFlow sem x0 regs h c.front.rename.instQueue hist

namespace Tracks

variable {p : RenameParams} {x0 : ℕ} {pd : DispatchParams} {pr : RobParams} {pu : UnitsParams}
variable {C : Inst → Prop} {V : Type} {sem : RegisterSemantics p V} {regs : RegFile × ℕ → V}
variable {h retired retired' : List RenamedInst} {hist moves : List Move} {c c' : Core}

theorem init (p : RenameParams) (x0 : ℕ) (sem : RegisterSemantics p V)
    (regs : RegFile × ℕ → V) : Tracks sem x0 regs [] [] [] (Core.init p x0) :=
  ⟨rfl, tablesInv_init p x0, by simp, .init⟩

/-- A step that neither renames, nor executes in the pipes, nor takes back. -/
theorem silent (H : Tracks sem x0 regs h retired hist c)
    (hmoves : ∀ m ∈ moves, m.place ≠ .renamed ∧ m.place ≠ .executed ∧ ∀ e, m.place ≠ .working e)
    (htables : TablesInv p x0 h c'.front.rename.toRenameTables)
    (hqueue : c'.front.rename.instQueue = c.front.rename.instQueue)
    (hretired : retired' = h ++ c'.front.retireAck) :
    Tracks sem x0 regs h retired' (hist ++ moves) c' where
  retired := hretired
  tables := htables
  known ri hri := List.mem_append_left _ (H.known ri hri)
  flows := by
    rw [hqueue]
    exact H.flows.silent hmoves

/-! ### Steps of the front end -/

/-- The moves of a step of the front end that renames nothing. -/
theorem silent_of_renames (pd : DispatchParams) (pu : UnitsParams) {op : InStepOp}
    (hrenames : c.front.renames p op = []) :
    ∀ m ∈ c.moves p pd pu (.front op), m.place ≠ .renamed ∧ m.place ≠ .executed ∧
      ∀ e, m.place ≠ .working e := by
  intro m hm
  rw [moves, hrenames] at hm
  obtain ⟨x, -, rfl⟩ := List.mem_map.mp hm
  exact ⟨by simp, by simp, by simp⟩

/-- Rename renames a group. -/
theorem rename (pu : UnitsParams) {s' : InStep} (I : Inv p x0 pd C hist c)
    (H : Tracks sem x0 regs h retired hist c)
    (hs' : c.front.step p pd pr .rename = .ok s') :
    s'.retireAck = c.front.retireAck ∧ TablesInv p x0 h s'.rename.toRenameTables ∧
      ValuesFlow sem x0 regs h s'.rename.instQueue (hist ++ c.moves p pd pu (.front .rename)) := by
  have F := I.ordered.frontSpec rfl hs'
  have hnodup := I.nodup_undispatched F
  cases InStep.step_stepped hs' with
  | noRename _ hsched =>
    have hrenames : c.front.renames p .rename = [] := by simp [InStep.renames, hsched]
    exact ⟨rfl, H.tables, H.flows.silent (silent_of_renames pd pu hrenames)⟩
  | @rename stall r out _ hsched hren =>
    have hrenames : c.front.renames p .rename = out.dispatchGroup := by
      simp only [InStep.renames, hsched, if_true, hren]
    obtain ⟨l, hl⟩ := renameInstructions_tables hren
    obtain ⟨Ht', hqueue, -⟩ := renameInstructions_spec
      (s := { c.front.rename with currentStall := stall }) H.tables hren
    have hqueue : r.instQueue = c.front.rename.instQueue ++ out.dispatchGroup := hqueue
    obtain ⟨new, hnew, hflows⟩ := ValuesFlow.renames sem regs l H.tables hl
    obtain rfl : new = out.dispatchGroup := List.append_cancel_left (hnew.symm.trans hqueue)
    rw [List.map_append, List.nodup_append, hrenames] at hnodup
    have hmoves : c.moves p pd pu (.front .rename) =
        out.dispatchGroup.map fun ri => ⟨ri, .renamed⟩ := by
      simp [moves, hrenames, InStep.sends]
    rw [hmoves]
    refine ⟨rfl, Ht', hflows hist H.flows (fun rj hrj => ?_) (fun rj hrj => ?_) hnodup.2.1⟩
    · rcases List.mem_append.mp hrj with hrj | hrj
      · exact H.known rj hrj
      · exact I.queue rj hrj
    · exact I.place_of_renames F (by rw [hrenames]; exact hrj)

theorem front {op : InStepOp} (I : Inv p x0 pd C hist c)
    (H : Tracks sem x0 regs h retired hist c) (hstep : c.step p pd pr pu (.front op) = .ok c') :
    ∃ h', Tracks sem x0 regs h' (retired ++ c.retires pr (.front op))
      (hist ++ c.moves p pd pu (.front op)) c' := by
  have hstill : c.retires pr (.front op) = [] →
      retired ++ c.retires pr (.front op) = h ++ c.front.retireAck := by
    intro hnone
    rw [hnone, List.append_nil, H.retired]
  cases step_stepped hstep with
  | @front _ s' hop hs' =>
    have hs'' := hs'
    cases InStep.step_stepped hs' with
    | rename =>
      obtain ⟨hack, Ht', hflows⟩ := H.rename pu I hs''
      exact ⟨h, (hstill rfl).trans (congrArg (h ++ ·) hack.symm), Ht',
        fun ri hri => List.mem_append_left _ (H.known ri hri), hflows⟩
    | noRename =>
      obtain ⟨hack, Ht', hflows⟩ := H.rename pu I hs''
      exact ⟨h, (hstill rfl).trans (congrArg (h ++ ·) hack.symm), Ht',
        fun ri hri => List.mem_append_left _ (H.known ri hri), hflows⟩
    | @deliverAck t _ hack =>
      -- the instructions on the port become part of what has retired
      obtain ⟨t', ht', Ht', hqueue, -⟩ := TablesInv.retireMany_spec
        (fun ri => c.front.table.status ri.key) c.front.retireAck H.tables I.ordered.queue
        (retireMany_status hack)
      obtain rfl : t = t' := Except.ok.inj (hack.symm.trans ht')
      have hflows := H.flows.silent
        (silent_of_renames pd pu (show c.front.renames p .deliverAck = [] from rfl))
      rw [I.ordered.queue, ← hqueue] at hflows
      refine ⟨h ++ c.front.retireAck, ?_, Ht', fun ri hri => ?_, hflows.retire⟩
      · exact (hstill rfl).trans (List.append_nil _).symm
      · refine List.mem_append_left _ ?_
        rcases List.mem_append.mp hri with hri | hri
        · exact H.known ri hri
        · refine I.queue ri ?_
          rw [I.ordered.queue]
          exact List.mem_append_left _ hri
    | @retire rob T out _ hret =>
      have hretires : c.retires pr (.front .retire) = out.retired := by
        simp only [retires, InStep.retires, hret]
      refine ⟨h, H.silent (silent_of_renames pd pu rfl) H.tables rfl ?_⟩
      rw [hretires, H.retired, List.append_assoc]
    | flush | noFlush | complete => cases hop
    | _ => exact ⟨h, H.silent (silent_of_renames pd pu rfl) H.tables rfl (hstill rfl)⟩

/-! ### Flushes -/

theorem flush (H : Tracks sem x0 regs h retired hist c)
    (hstep : c.step p pd pr pu .flush = .ok c') : Tracks sem x0 regs h retired hist c' := by
  cases step_stepped hstep with
  | flush _ _ hs' =>
    cases InStep.step_stepped hs' with
    | noFlush => exact ⟨H.retired, H.tables, H.known, H.flows⟩
    | @flush criteria t rob T credits _ _ _ htables _ =>
      obtain ⟨t', ht', Ht', hqueue, -⟩ := H.tables.flushTables_spec criteria
      obtain rfl : t = t' := Except.ok.inj (htables.symm.trans ht')
      obtain ⟨rest, hrest⟩ := List.rdropWhile_prefix
        (fun ri : RenamedInst => criteria.includedInFlush ri.inst) (l := c.front.rename.instQueue)
      have hflows := H.flows
      rw [← hrest, ← hqueue] at hflows
      exact ⟨H.retired, Ht', H.known, hflows.drop⟩

/-! ### Steps of the units -/

/-- What has been executed is the last taker of its registers, so the bits that are set are those
of what has been written. -/
theorem hasWritten_of_bit (I : Inv p x0 pd C hist c) (T : Truth hist c) {f : RegFile} {q : ℕ}
    (hbit : c.scoreboards f q = true) : ∀ w, takerOf hist (f, q) = some w → HasWritten hist w := by
  intro w hw
  obtain ⟨m, hm, rfl⟩ := Option.map_eq_some_iff.mp hw
  have hm : lastTaker hist f q = some m := hm
  have hplace := T.bits f q
  rw [hbit, hm] at hplace
  obtain ⟨rj, hrj, hkey⟩ := mem_of_placeAfter (of_decide_eq_true hplace.symm)
  have hmem := Log.mem_of_latest hm
  rwa [HasWritten, ← I.unique rj m.inst (I.moved _ hrj) (I.moved _ hmem) hkey]

/-- What an issue queue passes to the pipes is in flight. -/
theorem mem_queue_of_issued {op : UnitsOp} {out : UnitsOut} (I : Inv p x0 pd C hist c)
    (hout : c.units.step pu c.front.table c.scoreboards op = .ok out) :
    ∀ x ∈ out.issued, x.2 ∈ c.front.rename.instQueue := by
  intro x hx
  cases Units.step_stepped hout with
  | @sendReadyInsts n iq st hsend =>
    obtain ⟨D, -⟩ := IssueQueue.sendReadyInsts_spec (fun e => (I.units.pipes e).single)
      (fun ri hri e he => I.view_unique _ _ _ _ ((I.units.iqs n).queue e he).1
        ((I.units.iqs n).ready ri hri).1) hsend
    have hmem := D.queue.mem_iff.mp (List.mem_append_left _ (List.mem_map_of_mem hx))
    exact I.ordered.mem_of_live ((I.units.iqs n).queue x.2 hmem).2.2
  | _ => cases hx

/-- A group of instructions is passed to the pipes. -/
theorem issues (I : Inv p x0 pd (Inst.runsInPipes pd) hist c) (T : Truth hist c)
    (H : Tracks sem x0 regs h retired hist c) :
    ∀ (l : List (PipeId × RenamedInst)) (moves : List Move),
      (∀ x ∈ l, x.2 ∈ c.front.rename.instQueue ∧ (∃ n, (c.view pd hist).known (.iq n) x.2) ∧
        IssueQueue.filesNotReady c.scoreboards x.2 = []) →
      (∀ t, takerOf (hist ++ moves) t = takerOf hist t) →
      ValuesFlow sem x0 regs h c.front.rename.instQueue (hist ++ moves) →
      ValuesFlow sem x0 regs h c.front.rename.instQueue
        (hist ++ moves ++ l.map fun x => ⟨x.2, .working x.1⟩)
  | [], moves, _, _, hflows => by simpa using hflows
  | x :: l, moves, hl, htaker, hflows => by
    obtain ⟨⟨hqueue, ⟨n, hren, hserves⟩, hready⟩, hl⟩ := List.forall_mem_cons.mp hl
    obtain ⟨older, younger, hsplit⟩ := List.append_of_mem hqueue
    have hwell := H.tables.wellRenamed (h ++ older) x.2 younger
      (by rw [hsplit, List.append_assoc])
    have hchecked := (I.renamed x.2 hren).2.2 n hserves
    have hoperands := hwell.ready_of_iq hchecked hready
    have hone := hflows.issue (e := x.1) hsplit hwell hchecked fun r hr w hw => ?_
    · have hrec := issues I T H l (moves ++ [⟨x.2, .working x.1⟩]) hl (fun t => ?_) ?_
      · simpa using hrec
      · rw [← htaker, ← List.append_assoc]
        unfold takerOf
        rw [lastTaker_append]
        intro m hm hren
        rw [List.mem_singleton.mp hm] at hren
        cases hren
      · rwa [← List.append_assoc]
    · rw [htaker] at hw
      exact List.mem_append_left _ (hasWritten_of_bit I T (hoperands.sources r hr) w hw)

theorem unitsStep {op : UnitsOp} (I : Inv p x0 pd (Inst.runsInPipes pd) hist c) (T : Truth hist c)
    (H : Tracks sem x0 regs h retired hist c) (hstep : c.step p pd pr pu (.units op) = .ok c') :
    Tracks sem x0 regs h retired (hist ++ c.moves p pd pu (.units op)) c' := by
  cases step_stepped hstep with
  | @units _ out hout =>
    have D := I.units.step I.view_unique hout
    have hmoves : c.moves p pd pu (.units op) = out.moves := by simp only [moves, hout]
    rw [hmoves]
    refine ⟨H.retired, H.tables.setScoreboards _,
      fun ri hri => List.mem_append_left _ (H.known ri hri), ?_⟩
    show ValuesFlow sem x0 regs h c.front.rename.instQueue _
    rcases D.scoreboards with ⟨hnone, -⟩ | ⟨ri, hex, hone, -, hlive, -⟩
    · -- instructions are passed to the pipes, or one to the LSU
      have hissue := H.issues I T out.issued []
        (fun x hx => ⟨mem_queue_of_issued I hout x hx, ?_⟩) (fun t => by rw [List.append_nil])
        (by simpa using H.flows)
      · have hsilent : ∀ m ∈ out.lsuIssued.toList.map fun ri => (⟨ri, .lsuIssued⟩ : Move),
            m.place ≠ .renamed ∧ m.place ≠ .executed ∧ ∀ e, m.place ≠ .working e := by
          intro m hm
          obtain ⟨ri, -, rfl⟩ := List.mem_map.mp hm
          exact ⟨by simp, by simp, by simp⟩
        simpa [UnitsOut.moves, hnone] using hissue.silent hsilent
      · obtain ⟨n, hknown, hready⟩ := D.issued x hx
        exact ⟨⟨n, hknown⟩, hready⟩
    · rw [hone]
      obtain ⟨e, he⟩ := working_of_executed (fun e => (I.units.pipes e).single) hout hex
      have hqueue := I.ordered.mem_of_live hlive
      obtain ⟨rj, hrj, hkey⟩ := mem_of_placeAfter ((I.units.pipes e).working ri he).2.1
      have heq := I.unique rj ri (I.moved _ hrj) (I.queue ri hqueue) hkey
      exact H.flows.execute ⟨e, heq ▸ hrj⟩ (T.owner ri hqueue)

/-! ### Runs -/

theorem step {op : CoreOp} (I : Inv p x0 pd (Inst.runsInPipes pd) hist c) (T : Truth hist c)
    (H : Tracks sem x0 regs h retired hist c) (hstep : c.step p pd pr pu op = .ok c') :
    ∃ h', Tracks sem x0 regs h' (retired ++ c.retires pr op) (hist ++ c.moves p pd pu op) c' := by
  cases op with
  | front op => exact H.front I hstep
  | flush => exact ⟨h, by simpa [retires, moves] using H.flush hstep⟩
  | units op => exact ⟨h, by simpa [retires] using H.unitsStep I T hstep⟩
  | deliverUnit i =>
    cases step_stepped hstep
    refine ⟨h, H.silent (fun m hm => ?_) H.tables rfl ?_⟩
    · obtain ⟨x, -, rfl⟩ := List.mem_map.mp hm
      exact ⟨by simp, by simp, by simp⟩
    · simpa [retires] using H.retired
  | deliverStoreAck =>
    cases step_stepped hstep
    refine ⟨h, H.silent (by simp [moves]) H.tables rfl ?_⟩
    simpa [retires] using H.retired

end Tracks

/-- The values in the core are those of the program. -/
structure ComputesProgram {p : RenameParams} {V : Type} (sem : RegisterSemantics p V) (x0 : ℕ)
    (regs : RegFile × ℕ → V) (retired : List RenamedInst) (hist : List Move) (c : Core) :
    Prop where
  /-- the operands an instruction has read are those it has when the instructions before it are
  executed one after the other -/
  operands : ∀ older ri younger, retired ++ c.front.unretired = older ++ ri :: younger →
    HasRead hist ri → (valuesOf sem x0 regs hist).operands ri.key =
      ri.inst.reads.map (sem.execute (initialRegs x0 regs) (older.map RenamedInst.inst))
  /-- and so is what a register holds whose bit is set -/
  registers : ∀ r, isArchReg r → c.scoreboards r.1 (c.front.rename.mapTable r) = true →
    (valuesOf sem x0 regs hist).store (r.1, c.front.rename.mapTable r) =
      sem.execute (initialRegs x0 regs)
        ((retired ++ c.front.unretired).map RenamedInst.inst) r

section Runs

variable {p : RenameParams} {x0 : ℕ} {pd : DispatchParams} {pr : RobParams} {pu : UnitsParams}
variable {V : Type} {sem : RegisterSemantics p V} {regs : RegFile × ℕ → V}
variable {C C' : Inst → Prop} {h retired : List RenamedInst} {hist : List Move} {c : Core}

theorem Inv.mono (H : Inv p x0 pd C hist c) (hC : ∀ i, C i → C' i) : Inv p x0 pd C' hist c :=
  { H with
    renamed := fun ri hri => ⟨(H.renamed ri hri).1, hC _ (H.renamed ri hri).2⟩
    uops := fun i hi => ⟨hC i (H.uops i hi).1, (H.uops i hi).2⟩ }

/-- Every run keeps the values of the program. -/
theorem run_tracks (sem : RegisterSemantics p V) (regs : RegFile × ℕ → V) {ops : List CoreOp}
    (hC : ∀ i ∈ decoded ops, i.runsInPipes pd)
    (hrun : ops.foldlM (retiring p pd pr pu) ([], [], Core.init p x0) = .ok (retired, hist, c)) :
    Inv p x0 pd (Inst.runsInPipes pd) hist c ∧ Truth hist c ∧
      ∃ h, Tracks sem x0 regs h retired hist c := by
  refine (Run.foldlM_ok_induct (f := retiring p pd pr pu)
    (I := fun l s => (∀ i ∈ decoded l, i.runsInPipes pd) ∧
      Inv p x0 pd (Inst.runsInPipes pd) s.2.1 s.2.2 ∧ Truth s.2.1 s.2.2 ∧
        ∃ h, Tracks sem x0 regs h s.1 s.2.1 s.2.2) ?_
    ⟨hC, inv_init p x0 pd _, .init p x0, [], .init p x0 sem regs⟩ hrun).2
  rintro op l ⟨rs, h₁, c₁⟩ ⟨rs', h₂, c₂⟩ ⟨hl, I, T, h, H⟩ hone
  obtain ⟨hone, hretired⟩ := Run.traced_eq_ok.mp hone
  obtain ⟨hstep, hhist⟩ := Run.traced_eq_ok.mp hone
  dsimp only at hstep hhist hretired I T H
  subst hhist hretired
  refine ⟨fun i hi => hl i ?_, I.step (fun insts hop i hi => hl i ?_) hstep,
    T.step (I.mono fun _ hi => hi.1) hstep, H.step I T hstep⟩
  · unfold decoded at hi ⊢
    rw [List.flatMap_cons]
    exact List.mem_append_right _ hi
  · simp [decoded, hop, hi]

theorem Tracks.computesProgram (I : Inv p x0 pd C hist c) (T : Truth hist c)
    (H : Tracks sem x0 regs h retired hist c) : ComputesProgram sem x0 regs retired hist c := by
  have hlog : h ++ c.front.rename.instQueue = retired ++ c.front.unretired := by
    rw [I.ordered.queue, H.retired, List.append_assoc]
  constructor
  · intro older ri younger hsplit hread
    exact Dataflow.Computes.operands H.flows older ri younger (hlog.trans hsplit) hread
  · intro r hr hbit
    have htable : (registerRenaming x0).table (h ++ c.front.rename.instQueue) r =
        (r.1, c.front.rename.mapTable r) := by
      rw [H.tables.mapTable_eq]
      rfl
    have hvalue := Dataflow.Computes.value H.flows hr ?_
    · rw [htable, hlog] at hvalue
      exact hvalue
    · rw [htable]
      exact Tracks.hasWritten_of_bit I T hbit

end Runs

end Core

/-- In every run of programs whose register writers all execute in the pipes and have their
operands tested there, out-of-order issue, renaming, move elimination, retirement and flushes
cannot be seen in the values: whatever the instructions compute, each of them reads what it would
read if the surviving program was executed one instruction after the other, and so does whoever
reads a register that is ready. -/
theorem out_of_order_computes_program {V : Type} (p : RenameParams) (x0 : ℕ) (pd : DispatchParams)
    (pr : RobParams) (pu : UnitsParams) (sem : RegisterSemantics p V) (regs : RegFile × ℕ → V)
    {ops : List CoreOp} {retired : List RenamedInst} {hist : List Move} {c : Core}
    (hpipes : ∀ i ∈ Core.decoded ops, i.runsInPipes pd)
    (hrun : ops.foldlM (Core.retiring p pd pr pu) ([], [], Core.init p x0) =
      .ok (retired, hist, c)) :
    c.ComputesProgram sem x0 regs retired hist := by
  obtain ⟨I, T, h, H⟩ := Core.run_tracks sem regs hpipes hrun
  exact H.computesProgram I T

/-! ## A run -/

theorem consumerSrcs_lt : ∀ o ∈ [(⟨5, .rs1, .integer⟩ : OpInfo)], o.fieldValue < 32 := by decide

/-- An integer instruction that reads what `producer` computes. -/
def consumer : Inst :=
  { uniqueId := 2, programId := 2, srcs := [⟨5, .rs1, .integer⟩], dests := [⟨3, .rd, .integer⟩]
    srcs_lt := consumerSrcs_lt
    dests_lt := OpInfo.single_lt (nat_lit 3) .rd
    dests_distinct := OpInfo.single_distinct (nat_lit 3) .rd }

/-- The producer executes while the consumer is dispatched, which then executes while the producer
retires. -/
def consumerOps : List CoreOp :=
  [.front (.dispatchCredits 10), .front (.robCredits 30), .front (.unitCredits (.iq 0) 8),
   .front .nextCycle, .front (.decoded [producer, consumer]), .flush, .front .rename,
   .front .nextCycle, .front .deliverRenamed, .flush, .front .dispatch,
   .front .nextCycle, .front .deliverDispatched, .deliverUnit 0, .flush, .front .dispatch,
   .units (.sendReadyInsts 0), .units (.executeInst 0 0 false),
   .front .nextCycle, .front .deliverDispatched, .deliverUnit 0, .flush,
   .units (.completePipe 0 0), .units (.sendReadyInsts 0), .front .retire]

theorem consumerOps_runsInPipes :
    ∀ i ∈ Core.decoded consumerOps, i.runsInPipes smallDispatch := by
  unfold Inst.runsInPipes Inst.writesInPipes
  intro i hi
  have hi : i = producer ∨ i = consumer := by simpa [Core.decoded, consumerOps] using hi
  rcases hi with rfl | rfl
  · exact ⟨by decide, fun n hn => rfl⟩
  · exact ⟨by decide, fun n hn => rfl⟩

theorem out_of_order_computes_program_sample :
    ∃ retired hist c, consumerOps.foldlM (Core.retiring {} smallDispatch {} smallUnits)
        ([], [], Core.init {} 0) = .ok (retired, hist, c) ∧
      retired.map RenamedInst.key = [(1, 0)] ∧
      (valuesOf (summing {} rfl) 0 (fun t => 100 * t.2) hist).operands (2, 0) = [101] ∧
      c.ComputesProgram (summing {} rfl) 0 (fun t => 100 * t.2) retired hist := by
  have heval : (consumerOps.foldlM (Core.retiring {} smallDispatch {} smallUnits)
      ([], [], Core.init {} 0)).toOption.map (fun s => (s.1.map RenamedInst.key,
        (valuesOf (summing {} rfl) 0 (fun t => 100 * t.2) s.2.1).operands (2, 0))) =
      some ([(1, 0)], [101]) := by
    decide +kernel
  obtain ⟨⟨retired, hist, c⟩, hrun, hval⟩ := Run.ok_of_eval heval
  obtain ⟨hretired, hoperands⟩ := Prod.mk.inj hval
  exact ⟨retired, hist, c, hrun, hretired, hoperands,
    out_of_order_computes_program {} 0 smallDispatch {} smallUnits (summing {} rfl) _
      consumerOps_runsInPipes hrun⟩

end Olympia
