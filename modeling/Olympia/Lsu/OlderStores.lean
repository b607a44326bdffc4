import Olympia.Lsu.Addresses
import Olympia.Lsu.FlushTrace

/-!
# Loads and older stores

When loads are not speculative, a load waits for the addresses of all older stores.
`handleOperandIssueCheck_` makes sure of it for the load that it checks, and a load that it turns
away has no callback: it waits for `readyDependentLoads_`, which a store calls when it reaches the
MMU.  There the loads are not compared with the store.  A load is made ready while another older
store has no address, or before the store itself has missed in the TLB; and a load whose operands
become ready between the call and the answer of the MMU is never made ready.

`Behind` is what holds of the loads that have been made ready, `Waking` of those that wait.
-/

namespace Olympia

namespace Lsu

variable {p : LsuParams} {sb : Scoreboards} {q : List RenamedInst} {w w' : LsuWork}
variable {T : InstTable} {e st ri : RenamedInst}

/-- An older store without address. -/
def Blocks (w : LsuWork) (e st : RenamedInst) : Prop :=
  st.inst.isStore = true ∧ st.uniqueId < e.uniqueId ∧ (w.info st.key).phyAddrReady = false

theorem Blocks.key_ne (h : Blocks w e st) : st.key ≠ e.key := by
  intro hkey
  have huid : st.uniqueId = e.uniqueId := congrArg Prod.fst hkey
  exact absurd huid (Nat.ne_of_lt h.2.1)

theorem Blocks.congr (h : Blocks w e st)
    (hinfo : (w'.info st.key).phyAddrReady = (w.info st.key).phyAddrReady) : Blocks w' e st :=
  ⟨h.1, h.2.1, hinfo.trans h.2.2⟩

theorem allOlderStoresIssued_iff :
    allOlderStoresIssued q w e = true ↔ ∀ st ∈ q, ¬Blocks w e st := by
  unfold allOlderStoresIssued
  rw [List.all_eq_true]
  refine forall_congr' fun st => forall_congr' fun _ => ?_
  constructor
  · intro hall hblocks
    obtain ⟨hstore, hage, hphy⟩ := hblocks
    simp [hstore, hage, hphy, Blocks.key_ne ⟨hstore, hage, hphy⟩] at hall
  · intro hnot
    rw [Bool.not_eq_true', Bool.eq_false_iff]
    intro hcond
    simp only [Bool.and_eq_true, decide_eq_true_eq, Bool.not_eq_true'] at hcond
    exact hnot ⟨hcond.1.1.1, hcond.1.1.2, hcond.1.2⟩

/-- The check only adds callbacks. -/
theorem mem_callbacks_of_check {y : LsuWork × InstTable} (h : OperandCheck p sb q w T ri y)
    {cb : LsuCallback} (hcb : cb ∈ w.callbacks) : cb ∈ y.1.callbacks := by
  cases h with
  | address _ _ => exact List.mem_append_left _ hcb
  | data _ _ _ => exact List.mem_append_left _ hcb
  | ready _ _ _ _ hen =>
    rw [hen.rest]
    exact hcb
  | _ => exact hcb

/-- A load that passes the check finds the addresses of the older stores. -/
theorem not_blocks_of_check {y : LsuWork × InstTable} (hspec : p.allowSpeculativeLoadExec = false)
    (h : OperandCheck p sb q w T ri y) (hload : ri.inst.isStore = false)
    (hold : ¬Started T ri.key) (hnew : Started y.2 ri.key) : ∀ st ∈ q, ¬Blocks w ri st := by
  cases h with
  | ready _ _ hgo _ _ =>
    rcases hgo with hstore | hspec' | hall
    · rw [hload] at hstore
      cases hstore
    · rw [hspec] at hspec'
      cases hspec'
    · exact allOlderStoresIssued_iff.mp hall
  | _ => exact absurd hnew hold

/-- The check changes the status of no other instruction. -/
theorem status_of_check {y : LsuWork × InstTable} (h : OperandCheck p sb q w T ri y)
    {k : InstKey} (hk : k ≠ ri.key) : y.2.status k = T.status k := by
  cases h with
  | ready _ _ _ _ _ => simp [InstTable.setStatus_status, hk]
  | _ => rfl

/-- What becomes of a load that is checked and still waits. -/
theorem waits_of_check {y : LsuWork × InstTable} (h : OperandCheck p sb q w T ri y)
    (hload : ri.inst.isStore = false) (hst : y.2.status ri.key = .dispatched) :
    .address ri ∈ y.1.callbacks ∨
      instOperandReady sb ri = true ∧ ∃ st ∈ q, Blocks w ri st := by
  cases h with
  | scheduled hsched =>
    rw [hsched] at hst
    cases hst
  | address _ _ => exact .inl (by simp)
  | data _ _ hstore =>
    rw [hload] at hstore
    cases hstore
  | ready _ _ _ _ _ => simp [InstTable.setStatus_status] at hst
  | blocked _ hready _ _ holder =>
    refine .inr ⟨hready, ?_⟩
    by_contra hnone
    refine Bool.eq_false_iff.mp holder (allOlderStoresIssued_iff.mpr fun st hst' hblocks => ?_)
    exact hnone ⟨st, hst', hblocks⟩

end Lsu

open Lsu

namespace LsuSystem

variable {p : LsuParams} {s s' : LsuSystem} {op : LsuSystemOp}

/-! ## The loads that have been made ready -/

/-- A load that has been made ready has older stores without address only while the MMU works on
them, and then it is not in the pipeline. -/
def Behind (s : LsuSystem) : Prop :=
  ∀ e ∈ s.dispatched, e.inst.isStore = false → Started s.table e.key →
    ∀ st ∈ s.queue, Blocks s.work e st →
      st ∈ s.work.mmuRequests ∧ e ∈ s.queue ∧ ∀ n, s.work.stages n ≠ some e

/-- The condition on a step: a load that a store makes ready has no other older store without
address, and a store that has made loads ready does not miss in the TLB. -/
def WakesInOrder (p : LsuParams) (s : LsuSystem) : LsuSystemOp → Prop
  | .work .mmuLookup => ∀ st, s.work.stages p.mmuLookupStage = some st →
    (s.work.info st.key).mmuState ≠ .hit → st.inst.isStore = true →
      ∀ e ∈ s.queue, e.inst.isStore = false → s.table.status e.key = .dispatched →
        instOperandReady s.sb e = true → ∀ st' ∈ s.queue, Blocks s.work e st' → st'.key = st.key
  | .work (.mmuAck n false) => ∀ st, s.work.mmuRequests[n]? = some st → st.inst.isStore = true →
    ∀ e ∈ s.queue, e.inst.isStore = false → st.uniqueId < e.uniqueId →
      s.table.status e.key = .dispatched
  | _ => True

namespace Behind

theorem init : Behind {} := fun e he => by cases he

/-- When the MMU works on nothing, nothing stands before a load that has been made ready. -/
theorem not_blocks (B : Behind s) (hidle : s.work.mmuRequests = []) {e st : RenamedInst}
    (he : e ∈ s.dispatched) (hload : e.inst.isStore = false) (hstart : Started s.table e.key)
    (hst : st ∈ s.queue) : ¬Blocks s.work e st := by
  intro hblocks
  have hmem := (B e he hload hstart st hst hblocks).1
  rw [hidle] at hmem
  cases hmem

theorem of_quiet (B : Behind s) (h : Quiet s s') : Behind s' := by
  intro e he hload hstart st hst hblocks
  rw [h.dispatched] at he
  have hstart : Started s.table e.key := by
    rcases h.status e.key with heq | ⟨hold, -⟩
    · simpa [Started, heq] using hstart
    · exact hold
  obtain ⟨hreq, heq, hstages⟩ := B e he hload hstart st (h.queue.subset hst)
    (hblocks.congr (h.address st.key).1.symm)
  refine ⟨h.requests ▸ hreq, ?_, fun n hn => hstages n (h.stages n e hn)⟩
  rcases h.left e heq with hmem | ⟨⟨n, hn⟩, -⟩
  · exact hmem
  · exact absurd hn (hstages n)

theorem dispatch (hspec : p.allowSpeculativeLoadExec = false) (H : Inv s) (B : Behind s)
    {ri : RenamedInst} {stale : Bool} (h : s.step p (.dispatch ri stale) = .ok s') :
    Behind s' := by
  cases step_stepped h with
  | @dispatch ri stale i w T hphase hnext hcheck hi =>
    have haccess := access_of_check hcheck
    intro e he hload hstart st hst hblocks
    have hold : st ∈ s.queue → st.key ≠ ri.key →
        (w.info st.key).phyAddrReady = (s.work.info st.key).phyAddrReady := by
      intro _ hkey
      rw [show (w.info st.key).phyAddrReady = _ from (address_of_access (haccess st.key)).1]
      simp [LsuWork.modifyInfo, hkey]
    rcases List.mem_append.mp he with he | he
    · -- a load that was there: the new instruction is not older
      have hstart : Started s.table e.key := by
        rw [Started, ← H.check_status_of_arrive hnext hcheck he]
        exact hstart
      rcases List.mem_append.mp hst with hst | hst
      · refine absurd ?_ (B.not_blocks (H.between hphase).2.1 he hload hstart hst)
        exact hblocks.congr (hold hst (Inv.fresh hnext (H.mem_dispatched hst))).symm
      · rw [List.mem_singleton.mp hst] at hblocks
        have hage := (of_decide_eq_true (List.all_eq_true.mp hnext e he)).1
        exact absurd hblocks.2.1 (Nat.not_lt.mpr hage)
    · -- the new load has passed the check
      rw [List.mem_singleton.mp he] at hload hstart hblocks
      refine absurd ?_ (not_blocks_of_check hspec hcheck hload ?_ hstart st hst)
      · exact hblocks.congr (address_of_access (haccess st.key)).1.symm
      · simp [Started, InstTable.setStatus_status]

theorem callback (hspec : p.allowSpeculativeLoadExec = false) (H : Inv s) (B : Behind s) {n : ℕ}
    (h : s.step p (.work (.callback n)) = .ok s') : Behind s' := by
  cases step_stepped h with
  | @callback n cb w T i hcb hdue hcheck hi =>
    have haccess := access_of_check hcheck
    have hrest := hcheck.rest
    dsimp only at haccess hrest
    intro e he hload hstart st hst hblocks
    have hblocks : Blocks s.work e st := hblocks.congr (address_of_access (haccess st.key)).1.symm
    by_cases hstarted : Started s.table e.key
    · obtain ⟨hreq, heq, hstages⟩ := B e he hload hstarted st hst hblocks
      show st ∈ w.mmuRequests ∧ e ∈ s.queue ∧ ∀ n, w.stages n ≠ some e
      rw [hrest]
      exact ⟨hreq, heq, hstages⟩
    · -- the callback has just made the load ready
      have hkey : e.key = cb.inst.key := by
        by_contra hkey
        refine hstarted ?_
        rw [Started, ← status_of_check hcheck hkey]
        exact hstart
      obtain rfl := eq_of_key H.keys he (H.callback_status hcb).1 hkey
      exact absurd hblocks (not_blocks_of_check hspec hcheck hload hstarted hstart st hst)
  | work _ hcallback _ _ => exact absurd rfl (hcallback n)

theorem lookup (hspec : p.allowSpeculativeLoadExec = false) (H : Inv s) (A : Addresses s)
    (B : Behind s) (hcond : WakesInOrder p s (.work .mmuLookup))
    (h : s.step p (.work .mmuLookup) = .ok s') : Behind s' := by
  obtain ⟨hcan, hcases, hqueue, hdisp, -, -⟩ := Addresses.lookup_cases hspec h
  have hidle := A.idle hcan
  intro e he hload hstart st hst hblocks
  rw [hdisp] at he
  rw [hqueue] at hst ⊢
  -- a load that had been made ready before has nothing in front of it
  have hnone : ¬(Started s.table e.key ∧ Blocks s.work e st) := fun ⟨hstarted, hb⟩ =>
    B.not_blocks hidle he hload hstarted hst hb
  generalize hy : (s'.work, s'.table) = y at hcases
  cases hcases with
  | idle _ =>
    obtain ⟨hw, hT⟩ := Prod.mk.inj hy
    rw [hw] at hblocks
    rw [hT] at hstart
    exact absurd ⟨hstart, hblocks⟩ hnone
  | @load ri _ _ _ =>
    obtain ⟨hw, hT⟩ := Prod.mk.inj hy
    rw [hw] at hblocks
    rw [hT] at hstart
    exact absurd ⟨hstart, hblocks⟩ hnone
  | @store st₀ w' T' hst₀ hmiss hstore hwoken =>
    obtain ⟨hw, hT⟩ := Prod.mk.inj hy
    rw [hw] at hblocks
    rw [hT] at hstart
    have hblocks : Blocks s.work e st :=
      hblocks.congr (address_of_access (hwoken.access st.key)).1.symm
    rcases hwoken.status e.key with heq | ⟨hwaits, hsched, r, hr, hkey, hl, hready⟩
    · exact absurd ⟨by simpa [Started, heq] using hstart, hblocks⟩ hnone
    · obtain rfl := eq_of_key H.keys (H.mem_dispatched hr) he hkey
      have hsame := hcond st₀ hst₀ hmiss hstore r hr hl hwaits hready st hst hblocks
      obtain ⟨hD, -⟩ := H.holding.present st₀ (.inr (.inr (.inr (.inl ⟨_, hst₀⟩))))
      obtain rfl := eq_of_key H.keys (H.mem_dispatched hst) hD hsame
      refine ⟨by rw [hw]; simp, hr, fun n hn => ?_⟩
      have hn : s.work.stages n = some r := by
        rw [hw] at hn
        have hn : w'.stages n = some r := hn
        rwa [hwoken.rest] at hn
      exact (H.holding.present r (.inr (.inr (.inr (.inl ⟨n, hn⟩))))).2.1 hwaits

theorem ack (hspec : p.allowSpeculativeLoadExec = false) (H : Inv s) (A : Addresses s)
    (B : Behind s) {n : ℕ} {hit : Bool} (hcond : WakesInOrder p s (.work (.mmuAck n hit)))
    (h : s.step p (.work (.mmuAck n hit)) = .ok s') : Behind s' := by
  obtain ⟨ri, hri, hw, hT, hqueue, hdisp, -⟩ := Addresses.ack_cases hspec h
  obtain ⟨hreq, -, hphy⟩ := A.answered hri
  have hD : ri ∈ s.dispatched := (H.holding.asked ri (.inl (List.mem_of_getElem? hri))).1
  intro e he hload hstart st hst hblocks
  rw [hdisp] at he
  rw [hT] at hstart
  rw [hqueue] at hst
  rw [hw] at hblocks
  by_cases hkey : st.key = ri.key
  · -- the store has missed, so no younger load has been made ready
    obtain rfl := eq_of_key H.keys (H.mem_dispatched hst) hD hkey
    cases hit with
    | true =>
      have hnot := hblocks.2.2
      simp [LsuWork.modifyInfo] at hnot
    | false =>
      have hb : Blocks s.work e st := ⟨hblocks.1, hblocks.2.1, hphy⟩
      have hmem := (B e he hload hstart st hst hb).2.1
      exact absurd (hcond st hri hb.1 e hmem hload hb.2.1) hstart.1
  · have hb : Blocks s.work e st := hblocks.congr (by simp [LsuWork.modifyInfo, hkey])
    have hmem := (B e he hload hstart st hst hb).1
    rw [hreq] at hmem
    exact absurd (congrArg RenamedInst.key (List.mem_singleton.mp hmem)) hkey

theorem step (hspec : p.allowSpeculativeLoadExec = false) (H : Inv s) (A : Addresses s)
    (B : Behind s) (hcond : WakesInOrder p s op) (h : s.step p op = .ok s') : Behind s' := by
  by_cases hquiet : isQuiet op = true
  · exact B.of_quiet (quiet_step H hquiet h)
  · cases op with
    | dispatch ri stale => exact B.dispatch hspec H h
    | flush c =>
      cases step_stepped h with
      | flush hphase _ _ _ =>
        intro e he hload hstart st hst hblocks
        have hstarted : Started s.table e.key := by
          have hst' : InstTable.status (s.table.setStatuses _ _) e.key ≠ .dispatched ∧
            InstTable.status (s.table.setStatuses _ _) e.key ≠ .flushed := hstart
          rw [H.flush_status he] at hst'
          split at hst'
          · exact absurd rfl hst'.2
          · exact hst'
        exact absurd hblocks (B.not_blocks (H.between hphase).2.1 he hload hstarted
          (List.mem_of_mem_filter hst))
    | nextCycle =>
      cases step_stepped h with
      | nextCycle hover =>
        simp only [cycleOver, Bool.and_eq_true, List.isEmpty_iff] at hover
        exact fun e he hload hstart st hst hblocks =>
          absurd hblocks (B.not_blocks hover.1.1.1.2 he hload hstart hst)
    | work op =>
      cases op with
      | callback n => exact B.callback hspec H h
      | mmuLookup => exact B.lookup hspec H A hcond h
      | mmuAck n hit => exact B.ack hspec H A hcond h
      | _ => exact absurd rfl hquiet
    | _ => exact absurd rfl hquiet

end Behind

/-- A load comes to `handleCacheLookupReq_` with its address, or to `completeInst_` with its
data. -/
def Proceeds (p : LsuParams) (s : LsuSystem) : LsuSystemOp → RenamedInst → Prop
  | .work .cacheLookup, ri => s.work.stages p.cacheLookupStage = some ri ∧
    ri.inst.isStore = false ∧ (s.work.info ri.key).phyAddrReady = true
  | .complete, ri => s.work.stages p.completeStage = some ri ∧
    ri.inst.isStore = false ∧ (s.work.info ri.key).dataReady = true
  | _, _ => False

/-- Then it is a load in the pipeline. -/
theorem Proceeds.stage {ri : RenamedInst} (h : Proceeds p s op ri) :
    (∃ n, s.work.stages n = some ri) ∧ ri.inst.isStore = false := by
  unfold Proceeds at h
  split at h
  · exact ⟨⟨_, h.1⟩, h.2.1⟩
  · exact ⟨⟨_, h.1⟩, h.2.1⟩
  · cases h

/-- Loads wait for the addresses of all older stores, in every run in which stores make loads ready
in order. -/
theorem loads_wait (hspec : p.allowSpeculativeLoadExec = false) {l : List LsuSystemOp}
    (hcond : ∀ t op, Run.Takes (step p) {} l t op → WakesInOrder p t op) {ri : RenamedInst}
    (htakes : Run.Takes (step p) {} l s op) (hproceeds : Proceeds p s op ri) :
    ∀ st ∈ s.queue, st.inst.isStore = true → st.uniqueId < ri.uniqueId →
      (s.work.info st.key).phyAddrReady = true := by
  have hinv : Inv s ∧ Addresses s ∧ Behind s := by
    refine htakes.visits.invariant (I := fun s => Inv s ∧ Addresses s ∧ Behind s)
      ⟨.init, .init, .init⟩ ?_
    rintro op s s' ⟨H, A, B⟩ htakes hstep
    exact ⟨H.step hstep, A.step hspec H hstep, B.step hspec H A (hcond s op htakes) hstep⟩
  obtain ⟨H, -, B⟩ := hinv
  intro st hst hstore hage
  obtain ⟨⟨n, hn⟩, hload⟩ := hproceeds.stage
  obtain ⟨hD, hstart⟩ := H.holding.present ri (.inr (.inr (.inr (.inl ⟨n, hn⟩))))
  by_contra hphy
  exact (B ri hD hload hstart st hst ⟨hstore, hage, Bool.eq_false_iff.mpr hphy⟩).2.2 n hn

/-- A store goes to the MMU and wakes the load behind it, which looks into the cache. -/
def wokenLoadRun : List LsuSystemOp :=
  [.dispatch (sampleStore 1 3 64 .integer 4) false, .dispatch (sampleLoad 2 2 96) false, .tick,
    .issueInst, .nextCycle, .tick, .addressCalculation, .nextCycle, .tick, .work .mmuLookup,
    .work (.mmuAck 0 true), .issueInst, .nextCycle, .tick, .addressCalculation,
    .work .cacheLookup, .nextCycle, .tick, .work .mmuLookup, .work (.mmuAck 0 true), .nextCycle,
    .tick]

theorem loads_wait_in_run : ∃ s,
    Run.Takes (step {}) {} (wokenLoadRun ++ [.work .cacheLookup]) s (.work .cacheLookup) ∧
      Proceeds {} s (.work .cacheLookup) (sampleLoad 2 2 96) ∧
      ∀ st ∈ s.queue, st.inst.isStore = true → st.uniqueId < 2 →
        (s.work.info st.key).phyAddrReady = true := by
  obtain ⟨s, hs, heq⟩ := Run.ok_of_eval (x := wokenLoadRun.foldlM (step {}) {})
    (f := fun s => (s.work.stages 2, (s.work.info (2, 0)).phyAddrReady))
    (b := (some (sampleLoad 2 2 96), true)) rfl
  obtain ⟨hstage, hphy⟩ := Prod.mk.inj heq
  have htakes : Run.Takes (step {}) {} (wokenLoadRun ++ [.work .cacheLookup]) s
      (.work .cacheLookup) := ⟨wokenLoadRun, [], rfl, hs⟩
  have hproceeds : Proceeds {} s (.work .cacheLookup) (sampleLoad 2 2 96) := ⟨hstage, rfl, hphy⟩
  refine ⟨s, htakes, hproceeds, loads_wait rfl ?_ htakes hproceeds⟩
  intro t op htakes
  have hall : Run.along (step {}) (fun s op =>
      match op with
      | .work .mmuLookup => (s.work.stages 1).all fun st => s.queue.all fun e =>
        !(s.table.status e.key == .dispatched) || s.queue.all fun st' =>
          decide (st'.key = st.key) || (s.work.info st'.key).phyAddrReady ||
            decide (e.uniqueId ≤ st'.uniqueId)
      | .work (.mmuAck _ hit) => hit
      | _ => true) {} (wokenLoadRun ++ [.work .cacheLookup]) = true := by decide +kernel
  have htest := Run.Takes.of_along hall htakes
  unfold WakesInOrder
  split
  · intro st hst _ _ e he _ hwaits _ st' hst' hblocks
    have hst : t.work.stages 1 = some st := hst
    simp only [hst, Option.all_some, List.all_eq_true] at htest
    have hone := htest e he
    rw [hwaits] at hone
    have hall : ∀ x ∈ t.queue, (x.key = st.key ∨ (t.work.info x.key).phyAddrReady = true) ∨
        e.uniqueId ≤ x.uniqueId := by simpa using hone
    rcases hall st' hst' with (hkey | hphy) | hage
    · exact hkey
    · rw [hblocks.2.2] at hphy
      cases hphy
    · exact absurd hblocks.2.1 (Nat.not_lt.mpr hage)
  · cases htest
  · trivial

/-- A store wakes the load although another store in front of the load waits for its operands. -/
def overtakingRun : List LsuSystemOp :=
  [.clearBits .integer {2}, .dispatch (sampleStore 1 2 64 .integer 4) false,
    .dispatch (sampleStore 2 3 80 .integer 4) false, .dispatch (sampleLoad 3 3 64) false, .tick,
    .issueInst, .nextCycle, .tick, .addressCalculation, .nextCycle, .tick, .work .mmuLookup,
    .work (.mmuAck 0 true), .issueInst, .nextCycle, .tick, .addressCalculation,
    .work .cacheLookup, .nextCycle, .tick, .work .mmuLookup, .work (.mmuAck 0 true), .nextCycle,
    .tick]

/-- The load looks into the cache before the first store has its address. -/
theorem load_overtakes_store : ∃ s ri, Run.Reachable (step {}) {} s ∧
    Proceeds {} s (.work .cacheLookup) ri ∧
    ¬∀ st ∈ s.queue, st.inst.isStore = true → st.uniqueId < ri.uniqueId →
      (s.work.info st.key).phyAddrReady = true := by
  obtain ⟨s, hs, heq⟩ := Run.ok_of_eval (x := overtakingRun.foldlM (step {}) {})
    (f := fun s => (s.work.stages 2, (s.work.info (3, 0)).phyAddrReady, s.queue.head?,
      (s.work.info (1, 0)).phyAddrReady))
    (b := (some (sampleLoad 3 3 64), true, some (sampleStore 1 2 64 .integer 4), false)) rfl
  obtain ⟨hstage, heq⟩ := Prod.mk.inj heq
  obtain ⟨hphy, heq⟩ := Prod.mk.inj heq
  obtain ⟨hhead, hnot⟩ := Prod.mk.inj heq
  refine ⟨s, _, ⟨_, hs⟩, ⟨hstage, rfl, hphy⟩, fun hall => ?_⟩
  have hready := hall _ (List.mem_of_mem_head? hhead) rfl (by decide)
  exact Bool.false_ne_true (hnot.symm.trans hready)

/-! ## The loads that wait -/

/-- A later pass of the store through the MMU stage makes the load ready. -/
def Wakes (p : LsuParams) (s : LsuSystem) (e st : RenamedInst) : Prop :=
  ∀ t u, Run.Reachable (step p) s t → t.work.stages p.mmuLookupStage = some st →
    (t.work.info st.key).phyAddrReady = false → e ∈ t.queue →
      t.step p (.work .mmuLookup) = .ok u → u.table.status e.key ≠ .dispatched

/-- The load has a callback for its address, which is not ready; or there is an older store without
address that will wake it. -/
def Awake (p : LsuParams) (s : LsuSystem) (e : RenamedInst) : Prop :=
  instOperandReady s.sb e = false ∧ .address e ∈ s.work.callbacks ∨
    ∃ st ∈ s.queue, Blocks s.work e st ∧ Wakes p s e st

/-- An older store without address, about which the MMU has not been asked. -/
def Untranslated (s : LsuSystem) (e st : RenamedInst) : Prop :=
  Blocks s.work e st ∧ ∀ r ∈ s.work.mmuRequests, r.key ≠ st.key

/-- The condition on a step: if the callback of a load finds older stores without address, the MMU
has not been asked about one of them. -/
def FindsUntranslated (s : LsuSystem) : LsuSystemOp → Prop
  | .work (.callback n) => ∀ cb, s.work.callbacks[n]? = some cb → cb.inst.inst.isStore = false →
    (∃ st ∈ s.queue, Blocks s.work cb.inst st) → ∃ st ∈ s.queue, Untranslated s cb.inst st
  | _ => True

/-- What holds of a load that waits, also within a cycle. -/
def Waking (s : LsuSystem) : Prop :=
  ∀ e ∈ s.queue, e.inst.isStore = false → s.table.status e.key = .dispatched →
    .address e ∈ s.work.callbacks ∨
      instOperandReady s.sb e = true ∧ ∃ st ∈ s.queue, Untranslated s e st

namespace Waking

theorem init : Waking {} := fun e he => by cases he

theorem of_quiet (A : Addresses s) (W : Waking s) (h : Quiet s s')
    (hstep : s.step p op = .ok s') : Waking s' := by
  intro e he hload hst
  have he := h.queue.subset he
  have hst : s.table.status e.key = .dispatched := by
    rcases h.status e.key with heq | ⟨-, hnew⟩
    · exact heq.symm.trans hst
    · exact absurd hst hnew.1
  rw [h.callbacks]
  refine (W e he hload hst).imp id fun ⟨hready, st, hmem, hblocks, hreq⟩ => ?_
  refine ⟨instOperandReady_step hstep he hready, st, ?_, ?_, ?_⟩
  · rcases h.left st hmem with hmem | ⟨-, hmmu⟩
    · exact hmem
    · have hphy := (A.hit st.key).mpr (hmmu hblocks.1)
      rw [hblocks.2.2] at hphy
      cases hphy
  · exact hblocks.congr (h.address st.key).1
  · rw [h.requests]
    exact hreq

theorem dispatch (H : Inv s) (W : Waking s) {ri : RenamedInst} {stale : Bool}
    (h : s.step p (.dispatch ri stale) = .ok s') : Waking s' := by
  cases step_stepped h with
  | @dispatch ri stale i w T hphase hnext hcheck hi =>
    have haccess := access_of_check hcheck
    have hrest := hcheck.rest
    dsimp only at haccess hrest
    have hreq : w.mmuRequests = [] := by
      rw [hrest]
      exact (H.between hphase).2.1
    intro e he hload hst
    show LsuCallback.address e ∈ w.callbacks ∨
      instOperandReady s.sb e = true ∧ ∃ st ∈ s.queue ++ [ri], Blocks w e st ∧
        ∀ r ∈ w.mmuRequests, r.key ≠ st.key
    rw [hreq]
    rcases List.mem_append.mp he with he | he
    · have hst : s.table.status e.key = .dispatched := by
        rw [← H.check_status_of_arrive hnext hcheck (H.mem_dispatched he)]
        exact hst
      refine (W e he hload hst).imp (fun hcb => mem_callbacks_of_check hcheck hcb) ?_
      rintro ⟨hready, st, hmem, hblocks, -⟩
      refine ⟨hready, st, List.mem_append_left _ hmem, hblocks.congr ?_, by simp⟩
      rw [(address_of_access (haccess st.key)).1]
      simp [LsuWork.modifyInfo, Inv.fresh hnext (H.mem_dispatched hmem)]
    · obtain rfl := List.mem_singleton.mp he
      refine (waits_of_check hcheck hload hst).imp_right ?_
      rintro ⟨hready, st, hmem, hblocks⟩
      exact ⟨hready, st, hmem, hblocks.congr (address_of_access (haccess st.key)).1, by simp⟩

theorem flush (H : Inv s) (W : Waking s) {c : FlushingCriteria}
    (h : s.step p (.flush c) = .ok s') : Waking s' := by
  cases step_stepped h with
  | flush hphase hretired hi hj =>
    intro e he hload hst
    obtain ⟨he, hkept⟩ := List.mem_filter.mp he
    have hkept : c.includedInFlush e.inst = false := by simpa using hkept
    have hst : s.table.status e.key = .dispatched := by
      have hst : InstTable.status (s.table.setStatuses _ _) e.key = .dispatched := hst
      rwa [H.flush_status (H.mem_dispatched he), if_neg (by simp [hkept])] at hst
    -- what is not younger than the load is not flushed either
    have holder : ∀ st : RenamedInst, st.inst.uniqueId ≤ e.inst.uniqueId →
        c.includedInFlush st.inst = false := by
      intro st hage
      by_contra hinc
      rw [FlushingCriteria.includedInFlush_mono hage (by simpa using hinc)] at hkept
      cases hkept
    refine (W e he hload hst).imp (fun hcb => ?_) fun ⟨hready, st, hmem, hblocks, hreq⟩ => ?_
    · refine mem_callbacks_handleFlush.mpr ⟨hcb, .inr fun ri _ hinc huid => ?_⟩
      have hage : ri.inst.uniqueId ≤ e.inst.uniqueId := huid.le
      rw [holder ri hage] at hinc
      cases hinc
    · refine ⟨hready, st, List.mem_filter.mpr ⟨hmem, ?_⟩, hblocks, hreq⟩
      have hage : st.inst.uniqueId ≤ e.inst.uniqueId := hblocks.2.1.le
      simp [holder st hage]

theorem callback (H : Inv s) (W : Waking s) {n : ℕ}
    (hcond : FindsUntranslated s (.work (.callback n)))
    (h : s.step p (.work (.callback n)) = .ok s') : Waking s' := by
  cases step_stepped h with
  | @callback n cb w T i hcb hdue hcheck hi =>
    have haccess := access_of_check hcheck
    have hrest := hcheck.rest
    dsimp only at haccess hrest
    have hsame : ∀ e st, Untranslated s e st →
        Blocks w e st ∧ ∀ r ∈ w.mmuRequests, r.key ≠ st.key := by
      rintro e st ⟨hblocks, hreq⟩
      refine ⟨hblocks.congr (address_of_access (haccess st.key)).1, ?_⟩
      rw [hrest]
      exact hreq
    intro e he hload hst
    show LsuCallback.address e ∈ w.callbacks ∨
      instOperandReady s.sb e = true ∧ ∃ st ∈ s.queue, Blocks w e st ∧
        ∀ r ∈ w.mmuRequests, r.key ≠ st.key
    by_cases hkey : e.key = cb.inst.key
    · obtain rfl := eq_of_key H.keys (H.mem_dispatched he) (H.callback_status hcb).1 hkey
      refine (waits_of_check hcheck hload hst).imp id fun ⟨hready, st, hmem, hblocks⟩ => ?_
      obtain ⟨st, hmem, hun⟩ := hcond cb hcb hload ⟨st, hmem, hblocks⟩
      exact ⟨hready, st, hmem, hsame _ st hun⟩
    · have hst : s.table.status e.key = .dispatched := (status_of_check hcheck hkey).symm.trans hst
      refine (W e he hload hst).imp (fun hmem => ?_) fun ⟨hready, st, hmem, hun⟩ =>
        ⟨hready, st, hmem, hsame _ st hun⟩
      refine mem_callbacks_of_check hcheck ?_
      obtain ⟨m, hm⟩ := List.mem_iff_getElem?.mp hmem
      refine List.mem_eraseIdx_iff_getElem?.mpr ⟨m, ?_, hm⟩
      rintro rfl
      obtain rfl := Option.some.inj (hm.symm.trans hcb)
      exact hkey rfl
  | work _ hcallback _ _ => exact absurd rfl (hcallback n)

theorem lookup (hspec : p.allowSpeculativeLoadExec = false) (H : Inv s) (W : Waking s)
    (h : s.step p (.work .mmuLookup) = .ok s') : Waking s' := by
  obtain ⟨-, hcases, hqueue, -, hsb, -⟩ := Addresses.lookup_cases hspec h
  intro e he hload hst
  rw [hqueue] at he ⊢
  rw [hsb]
  unfold Untranslated
  generalize hy : (s'.work, s'.table) = y at hcases
  cases hcases with
  | idle _ =>
    obtain ⟨hw, hT⟩ := Prod.mk.inj hy
    rw [hT] at hst
    rw [hw]
    exact W e he hload hst
  | @load ri hri _ hloads =>
    obtain ⟨hw, hT⟩ := Prod.mk.inj hy
    rw [hT] at hst
    rw [hw]
    refine (W e he hload hst).imp id fun ⟨hready, st, hmem, hblocks, hreq⟩ => ?_
    refine ⟨hready, st, hmem, hblocks, fun r hr hkey => ?_⟩
    rcases List.mem_append.mp hr with hr | hr
    · exact hreq r hr hkey
    · -- the MMU has been asked about a load
      obtain rfl := List.mem_singleton.mp hr
      obtain ⟨hD, -⟩ := H.holding.present r (.inr (.inr (.inr (.inl ⟨_, hri⟩))))
      obtain rfl := eq_of_key H.keys hD (H.mem_dispatched hmem) hkey
      rw [hblocks.1] at hloads
      cases hloads
  | @store st₀ w' T' hst₀ hmiss hstore hwoken =>
    obtain ⟨hw, hT⟩ := Prod.mk.inj hy
    rw [hT] at hst
    rw [hw]
    have hold : s.table.status e.key = .dispatched := by
      rcases hwoken.status e.key with heq | ⟨hwaits, -⟩
      · exact heq.symm.trans hst
      · exact hwaits
    rcases W e he hload hold with hcb | ⟨hready, -⟩
    · refine .inl ?_
      show LsuCallback.address e ∈ w'.callbacks
      rw [hwoken.rest]
      exact hcb
    · exact absurd hst (hwoken.woken e he hload hready)

theorem ack (hspec : p.allowSpeculativeLoadExec = false) (W : Waking s) {n : ℕ} {hit : Bool}
    (h : s.step p (.work (.mmuAck n hit)) = .ok s') : Waking s' := by
  obtain ⟨ri, hri, hw, hT, hqueue, -, hsb⟩ := Addresses.ack_cases hspec h
  intro e he hload hst
  rw [hqueue] at he ⊢
  rw [hT] at hst
  rw [hsb]
  unfold Untranslated
  rw [hw]
  refine (W e he hload hst).imp id fun ⟨hready, st, hmem, hblocks, hreq⟩ => ?_
  refine ⟨hready, st, hmem, hblocks.congr ?_, fun r hr => hreq r (List.mem_of_mem_eraseIdx hr)⟩
  have hne : st.key ≠ ri.key := (hreq ri (List.mem_of_getElem? hri)).symm
  simp [LsuWork.modifyInfo, hne]

theorem step (hspec : p.allowSpeculativeLoadExec = false) (H : Inv s) (A : Addresses s)
    (W : Waking s) (hcond : FindsUntranslated s op) (h : s.step p op = .ok s') : Waking s' := by
  by_cases hquiet : isQuiet op = true
  · exact W.of_quiet A (quiet_step H hquiet h) h
  · cases op with
    | dispatch ri stale => exact W.dispatch H h
    | flush c => exact W.flush H h
    | nextCycle =>
      cases step_stepped h with
      | nextCycle hover => exact W
    | work op =>
      cases op with
      | callback n => exact W.callback H hcond h
      | mmuLookup => exact W.lookup hspec H h
      | mmuAck n hit => exact W.ack hspec h
      | _ => exact absurd rfl hquiet
    | _ => exact absurd rfl hquiet

end Waking

/-- An instruction of the queue has been in it since it was sent, and its operands stay ready. -/
theorem operands_stay (H : Inv s) {t : LsuSystem} (hreach : Run.Reachable (LsuSystem.step p) s t)
    {e : RenamedInst} (he : e ∈ s.dispatched) (hready : instOperandReady s.sb e = true) :
    Inv t ∧ e ∈ t.dispatched ∧ (e ∈ t.queue → instOperandReady t.sb e = true) := by
  refine hreach.invariant (I := fun t => Inv t ∧ e ∈ t.dispatched ∧
    (e ∈ t.queue → instOperandReady t.sb e = true)) ⟨H, he, fun _ => hready⟩ ?_
  rintro op t t' ⟨H, he, hready⟩ h
  have hqueue : e ∈ t'.queue → e ∈ t.queue := by
    intro hmem
    cases step_stepped h with
    | dispatch hphase hnext hcheck hi =>
      rcases List.mem_append.mp hmem with hmem | hmem
      · exact hmem
      · exact absurd (congrArg RenamedInst.key (List.mem_singleton.mp hmem)) (Inv.fresh hnext he)
    | flush _ _ _ _ => exact List.mem_of_mem_filter hmem
    | complete _ hout _ => exact (H.complete hout).2.1.subset hmem
    | _ => exact hmem
  refine ⟨H.step h, ?_, fun hmem => instOperandReady_step h (hqueue hmem) (hready (hqueue hmem))⟩
  cases step_stepped h with
  | dispatch _ _ _ _ => exact List.mem_append_left _ he
  | _ => exact he

/-- A store without address wakes the loads whose operands are ready. -/
theorem wakes_of_ready (hspec : p.allowSpeculativeLoadExec = false) (H : Inv s)
    {e st : RenamedInst} (he : e ∈ s.dispatched) (hload : e.inst.isStore = false)
    (hready : instOperandReady s.sb e = true) (hstore : st.inst.isStore = true) (A : Addresses s) :
    Wakes p s e st := by
  intro t u hreach hstage hphy hmem h
  obtain ⟨-, -, hready⟩ := operands_stay H hreach he hready
  have At : Addresses t := by
    refine (hreach.invariant (I := fun t => Inv t ∧ Addresses t) ⟨H, A⟩ ?_).2
    rintro op t t' ⟨H, A⟩ h
    exact ⟨H.step h, A.step hspec H h⟩
  have hmiss : (t.work.info st.key).mmuState ≠ .hit := fun hhit => by
    rw [(At.hit st.key).mpr hhit] at hphy
    cases hphy
  obtain ⟨-, hcases, -⟩ := Addresses.lookup_cases hspec h
  generalize hy : (u.work, u.table) = y at hcases
  cases hcases with
  | idle hidle => exact absurd (hidle st hstage) hmiss
  | load hri _ hloads =>
    obtain rfl := Option.some.inj (hstage.symm.trans hri)
    rw [hstore] at hloads
    cases hloads
  | store _ _ _ hwoken =>
    obtain ⟨-, hT⟩ := Prod.mk.inj hy
    rw [hT]
    exact hwoken.woken e hmem hload (hready hmem)

/-- No load is left asleep at the end of a cycle, in every run in which the callback of a load never
finds only stores that the MMU works on. -/
theorem no_load_asleep (hspec : p.allowSpeculativeLoadExec = false) {l : List LsuSystemOp}
    (hcond : ∀ t op, Run.Takes (step p) {} l t op → FindsUntranslated t op)
    (hvisits : Run.Visits (step p) {} l s) (hover : s.cycleOver p = true) :
    ∀ e ∈ s.queue, e.inst.isStore = false → s.table.status e.key = .dispatched → Awake p s e := by
  have hinv : Inv s ∧ Addresses s ∧ Waking s := by
    refine hvisits.invariant (I := fun s => Inv s ∧ Addresses s ∧ Waking s)
      ⟨.init, .init, .init⟩ ?_
    rintro op s s' ⟨H, A, W⟩ htakes hstep
    exact ⟨H.step hstep, A.step hspec H hstep, W.step hspec H A (hcond s op htakes) hstep⟩
  obtain ⟨H, A, W⟩ := hinv
  intro e he hload hst
  refine (W e he hload hst).imp (fun hcb => ⟨?_, hcb⟩) ?_
  · -- at the end of a cycle no callback is due
    simp only [cycleOver, Bool.and_eq_true, List.all_eq_true, Bool.not_eq_true'] at hover
    exact hover.1.2 _ hcb
  · rintro ⟨hready, st, hmem, hblocks, -⟩
    exact ⟨st, hmem, hblocks,
      wakes_of_ready hspec H (H.mem_dispatched he) hload hready hblocks.1 A⟩

theorem no_load_asleep_in_run : ∃ s, Run.Reachable (step {}) {} s ∧
    s.table.status (2, 0) = .dispatched ∧ Awake {} s (sampleLoad 2 2 96) := by
  obtain ⟨s, hs, heq⟩ := Run.ok_of_eval (x := (wokenLoadRun.take 4).foldlM (step {}) {})
    (f := fun s => (s.cycleOver {}, s.queue.getLast?, s.table.status (2, 0)))
    (b := (true, some (sampleLoad 2 2 96), .dispatched)) rfl
  obtain ⟨hover, heq⟩ := Prod.mk.inj heq
  obtain ⟨hlast, hst⟩ := Prod.mk.inj heq
  refine ⟨s, ⟨_, hs⟩, hst, no_load_asleep (l := wokenLoadRun.take 4) rfl ?_ (Run.Visits.last hs)
    hover _ (List.mem_of_getLast? hlast) rfl hst⟩
  intro t op htakes
  have hall : Run.along (step {}) (fun _ op =>
      match op with
      | .work (.callback _) => false
      | _ => true) {} (wokenLoadRun.take 4) = true := by decide +kernel
  have htest := Run.Takes.of_along hall htakes
  unfold FindsUntranslated
  split
  · cases htest
  · trivial

/-- The operand of a load becomes ready between the request of the store in front of it and the
answer of the MMU. -/
def sleepingLoadRun : List LsuSystemOp :=
  [.clearBits .integer {2}, .dispatch (sampleStore 1 3 64 .integer 4) false,
    .dispatch (sampleLoad 2 2 96) false, .tick, .issueInst, .nextCycle, .tick,
    .addressCalculation, .nextCycle, .tick, .work .mmuLookup, .setBits .integer {2},
    .work (.callback 0), .work (.mmuAck 0 true)]

/-- The store has its address, the load has no callback. -/
theorem load_left_asleep : ∃ s, Run.Reachable (step {}) {} s ∧ s.cycleOver {} = true ∧
    ∃ e ∈ s.queue, e.inst.isStore = false ∧ s.table.status e.key = .dispatched ∧
      ¬Awake {} s e := by
  obtain ⟨s, hs, heq⟩ := Run.ok_of_eval (x := sleepingLoadRun.foldlM (step {}) {})
    (f := fun s => (s.cycleOver {}, s.queue,
      s.table.status (2, 0), s.work.callbacks.length, (s.work.info (1, 0)).phyAddrReady))
    (b := (true, [sampleStore 1 3 64 .integer 4, sampleLoad 2 2 96], .dispatched, 0, true)) rfl
  obtain ⟨hover, heq⟩ := Prod.mk.inj heq
  obtain ⟨hqueue, heq⟩ := Prod.mk.inj heq
  obtain ⟨hst, heq⟩ := Prod.mk.inj heq
  obtain ⟨hcallbacks, hphy⟩ := Prod.mk.inj heq
  refine ⟨s, ⟨_, hs⟩, hover, sampleLoad 2 2 96, by rw [hqueue]; simp, rfl, hst, ?_⟩
  rintro (⟨-, hcb⟩ | ⟨st, hmem, ⟨hstore, -, hnot⟩, -⟩)
  · rw [List.length_eq_zero_iff.mp hcallbacks] at hcb
    cases hcb
  · rw [hqueue] at hmem
    rcases List.mem_pair.mp hmem with rfl | rfl
    · exact Bool.false_ne_true (hnot.symm.trans hphy)
    · cases hstore

end LsuSystem

end Olympia
