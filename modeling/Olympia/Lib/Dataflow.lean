import Mathlib.Data.List.Basic
import Mathlib.Data.List.Nodup
import Mathlib.Logic.Function.Basic

/-!
# Out-of-order execution of a renamed program

A program is a list of instructions, each of which computes values of registers from values of
registers; `Semantics.run` is what it means when it is executed in order.

A machine that renames registers keeps the values in tags.  An instruction takes the tags it
writes, reads its operands from tags at one time (`Values.read`) and writes its results at a later
time (`Values.write`), in any order with other instructions.  Instructions may be taken back from
the young end and are retired from the old end, and tags are taken again and again.

`Computes` says that the values in the tags are those of the program.  What it needs of the
renaming is `Renames`: the table that maps registers to tags changes only where the instruction
writes, to a tag that it has taken or, for an instruction that copies a register, to the tag of
that register.  `Computes` is kept by renaming an instruction with tags that nothing refers to
(`Computes.rename`), by reading operands whose tags have been written (`Computes.read`), by writing
the results (`Computes.write`), by taking young instructions back (`Computes.drop`) and by retiring
old ones (`Computes.retire`).
-/

namespace Dataflow

universe u

variable {ι ρ τ η κ ν : Type u}

/-! ## Execution in order -/

/-- What instructions read, write and compute. -/
structure Semantics (ι ρ ν : Type u) where
  reads : ι → List ρ
  writes : ι → ρ → Bool
  /-- the value of a register the instruction writes, from those of the registers it reads -/
  result : ι → List ν → ρ → ν

namespace Semantics

variable (S : Semantics ι ρ ν)

/-- One instruction is executed. -/
def exec (m : ρ → ν) (i : ι) : ρ → ν := fun r =>
  if S.writes i r then S.result i ((S.reads i).map m) r else m r

def run (m : ρ → ν) (program : List ι) : ρ → ν := program.foldl S.exec m

@[simp] theorem run_nil (m : ρ → ν) : S.run m [] = m := rfl

@[simp] theorem run_concat (m : ρ → ν) (l : List ι) (i : ι) :
    S.run m (l ++ [i]) = S.exec (S.run m l) i := by
  simp [run]

theorem exec_of_writes {m : ρ → ν} {i : ι} {r : ρ} (h : S.writes i r = true) :
    S.exec m i r = S.result i ((S.reads i).map m) r := if_pos h

theorem exec_of_not_writes {m : ρ → ν} {i : ι} {r : ρ} (h : S.writes i r = false) :
    S.exec m i r = m r := by
  simp [exec, h]

/-- The instructions are executed at once: all of them read the registers as they are before. -/
def parallel (m : ρ → ν) (program : List ι) : ρ → ν := fun r =>
  match program.find? fun i => S.writes i r with
  | some i => S.result i ((S.reads i).map m) r
  | none => m r

/-- No instruction reads or writes what an earlier one writes. -/
def Independent (program : List ι) : Prop :=
  program.Pairwise fun i j => ∀ r, S.writes i r = true → r ∉ S.reads j ∧ S.writes j r = false

/-- Independent instructions compute the same one after the other as at once. -/
theorem Independent.run_eq {program : List ι} (h : S.Independent program) (m : ρ → ν) :
    S.run m program = S.parallel m program := by
  induction program generalizing m with
  | nil => rfl
  | cons i l ih =>
    obtain ⟨hi, hl⟩ := List.pairwise_cons.mp h
    have hrun : S.run m (i :: l) = S.parallel (S.exec m i) l := ih hl (S.exec m i)
    rw [hrun]
    funext r
    rcases hw : S.writes i r with _ | _
    · -- the others read what `i` leaves alone
      have hexec : ∀ j ∈ l,
          S.result j ((S.reads j).map (S.exec m i)) r = S.result j ((S.reads j).map m) r := by
        intro j hj
        congr 1
        refine List.map_congr_left fun s hs => S.exec_of_not_writes ?_
        by_contra hws
        exact (hi j hj s (by simpa using hws)).1 hs
      unfold parallel
      rw [List.find?_cons_of_neg (p := fun j => S.writes j r) (by simp [hw])]
      split
      · rename_i j hj
        exact hexec j (List.mem_of_find?_eq_some hj)
      · exact S.exec_of_not_writes hw
    · have hnone : l.find? (fun j => S.writes j r) = none :=
        List.find?_eq_none.mpr fun j hj => by simp [(hi j hj r hw).2]
      unfold parallel
      rw [List.find?_cons_of_pos (p := fun j => S.writes j r) hw, hnone]
      exact S.exec_of_writes hw

end Semantics

/-! ## Renaming -/

/-- How instructions are renamed.  `table` is the tag of each register after some instructions,
and `dest` the register whose value an instruction writes to a tag that it has taken. -/
structure Renaming (ι ρ τ η κ : Type u) where
  inst : η → ι
  key : η → κ
  sources : η → List τ
  dest : η → τ → Option ρ
  table : List η → ρ → τ

namespace Renaming

/-- The instruction has been renamed after the instructions `older`. -/
structure Renames (R : Renaming ι ρ τ η κ) (S : Semantics ι ρ ν) (regs : ρ → Prop)
    (older : List η) (n : η) : Prop where
  dest_writes : ∀ t r, R.dest n t = some r → S.writes (R.inst n) r = true
  unwritten : ∀ r, S.writes (R.inst n) r = false → R.table (older ++ [n]) r = R.table older r
  written : ∀ r, S.writes (R.inst n) r = true →
    R.dest n (R.table (older ++ [n]) r) = some r ∨
      ∃ s, regs s ∧ R.table (older ++ [n]) r = R.table older s ∧
        ∀ m : ρ → ν, S.exec m (R.inst n) r = m s

/-- The tags are taken by the instruction. -/
def take (R : Renaming ι ρ τ η κ) (taker : τ → Option η) (n : η) : τ → Option η := fun t =>
  if (R.dest n t).isSome then some n else taker t

end Renaming

/-! ## Values in tags -/

/-- What is in the tags, and the operands that have been read for each instruction. -/
structure Values (τ κ ν : Type u) where
  store : τ → ν
  operands : κ → List ν

namespace Values

variable [DecidableEq κ]

/-- The operands of the instruction are read. -/
def read (R : Renaming ι ρ τ η κ) (v : Values τ κ ν) (n : η) : Values τ κ ν :=
  { v with operands := Function.update v.operands (R.key n) ((R.sources n).map v.store) }

/-- The results of the instruction are written to the tags that it has taken. -/
def write (S : Semantics ι ρ ν) (R : Renaming ι ρ τ η κ) (v : Values τ κ ν) (n : η) :
    Values τ κ ν :=
  { v with store := fun t =>
      match R.dest n t with
      | some r => S.result (R.inst n) (v.operands (R.key n)) r
      | none => v.store t }

end Values

/-! ## The invariant -/

section Invariant

variable (S : Semantics ι ρ ν) (R : Renaming ι ρ τ η κ) (regs : ρ → Prop) (m₀ : ρ → ν) (v₀ : τ → ν)

/-- The values of the registers after some instructions, in order. -/
def valuesAfter (l : List η) : ρ → ν := S.run m₀ (l.map R.inst)

/-- The value of the register comes from the instruction that has taken its tag. -/
def Origin (taker : τ → Option η) (log : List η) (r : ρ) : Prop :=
  match taker (R.table log r) with
  | none => valuesAfter S R m₀ log r = v₀ (R.table log r)
  | some n => ∃ before after r', log = before ++ n :: after ∧
      R.dest n (R.table log r) = some r' ∧
      valuesAfter S R m₀ log r = valuesAfter S R m₀ (before ++ [n]) r'

/-- The values in the tags are those of the program `retired ++ live`: `taker` says who has taken a
tag last, `didRead` and `wrote` which instructions have read their operands and written their
results. -/
structure Computes (retired live : List η) (taker : τ → Option η) (didRead wrote : η → Prop)
    (v : Values τ κ ν) : Prop where
  renamed : ∀ older n younger, retired ++ live = older ++ n :: younger →
    R.Renames S regs older n
  nodup : ((retired ++ live).map R.key).Nodup
  origin : ∀ older younger, live = older ++ younger → ∀ r, regs r →
    Origin S R m₀ v₀ taker (retired ++ older) r
  untaken : ∀ t, taker t = none → v.store t = v₀ t
  stored : ∀ older n younger, retired ++ live = older ++ n :: younger → wrote n →
    ∀ t r, taker t = some n → R.dest n t = some r →
      v.store t = valuesAfter S R m₀ (older ++ [n]) r
  operands : ∀ older n younger, retired ++ live = older ++ n :: younger → didRead n →
    v.operands (R.key n) = (S.reads (R.inst n)).map (valuesAfter S R m₀ older)

/-- The tag has never been taken, or its last taker has written it. -/
def Ready (taker : τ → Option η) (wrote : η → Prop) (t : τ) : Prop :=
  ∀ n, taker t = some n → wrote n

end Invariant

section Rules

variable {S : Semantics ι ρ ν} {R : Renaming ι ρ τ η κ} {regs : ρ → Prop} {m₀ : ρ → ν} {v₀ : τ → ν}
variable {retired live old young : List η} {taker : τ → Option η} {didRead wrote : η → Prop}
variable {v : Values τ κ ν} {n : η} {r : ρ}

@[simp] theorem valuesAfter_concat (l : List η) (n : η) :
    valuesAfter S R m₀ (l ++ [n]) = S.exec (valuesAfter S R m₀ l) (R.inst n) := by
  simp [valuesAfter]

/-- A log without repetitions is split at an instruction in one way. -/
theorem split_unique {log older younger older' younger' : List η} (hnodup : (log.map R.key).Nodup)
    (h : log = older ++ n :: younger) (h' : log = older' ++ n :: younger') : older = older' := by
  rw [h, List.map_append, List.map_cons, List.nodup_append, List.nodup_cons] at hnodup
  have holder : n ∉ older := fun hmem =>
    hnodup.2.2 _ (List.mem_map_of_mem hmem) _ List.mem_cons_self rfl
  have hyounger : n ∉ younger := fun hmem => hnodup.2.1.1 (List.mem_map_of_mem hmem)
  exact ((List.append_cons_inj_of_notMem holder hyounger).mp (h.symm.trans h')).1

namespace Origin

/-- The value of a register that is ready is in its tag. -/
theorem value {log rest : List η} (H : Computes S R regs m₀ v₀ retired live taker didRead wrote v)
    (h : Origin S R m₀ v₀ taker log r) (hlog : retired ++ live = log ++ rest)
    (hready : Ready taker wrote (R.table log r)) :
    v.store (R.table log r) = valuesAfter S R m₀ log r := by
  unfold Origin at h
  cases htaker : taker (R.table log r) with
  | none =>
    rw [htaker] at h
    rw [H.untaken _ htaker, h]
  | some n =>
    rw [htaker] at h
    obtain ⟨before, after, r', hsplit, hdest, hvalue⟩ := h
    rw [hvalue]
    refine H.stored before n (after ++ rest) ?_ (hready n htaker) _ r' htaker hdest
    rw [hlog, hsplit]
    simp

/-- An instruction takes tags that the register does not have. -/
theorem take {log : List η} (h : Origin S R m₀ v₀ taker log r)
    (hfresh : R.dest n (R.table log r) = none) : Origin S R m₀ v₀ (R.take taker n) log r := by
  unfold Origin Renaming.take at *
  simpa [hfresh] using h

/-- One more instruction: a register has its value from a register of before, in the same tag. -/
theorem concat {log : List η} {s : ρ} (h : Origin S R m₀ v₀ taker log s)
    (htable : R.table (log ++ [n]) r = R.table log s)
    (hvalue : valuesAfter S R m₀ (log ++ [n]) r = valuesAfter S R m₀ log s) :
    Origin S R m₀ v₀ taker (log ++ [n]) r := by
  unfold Origin at *
  rw [htable, hvalue]
  cases htaker : taker (R.table log s) with
  | none =>
    rw [htaker] at h
    exact h
  | some w =>
    rw [htaker] at h
    obtain ⟨before, after, r', hsplit, hdest, heq⟩ := h
    exact ⟨before, after ++ [n], r', by rw [hsplit]; simp, hdest, heq⟩

end Origin

namespace Computes

theorem init (htaker : ∀ t, taker t = none) (hinit : ∀ r, regs r → m₀ r = v₀ (R.table [] r))
    (hstore : v.store = v₀) : Computes S R regs m₀ v₀ [] [] taker didRead wrote v where
  renamed older n younger h := by simp at h
  nodup := by simp
  origin older younger h r hr := by
    obtain ⟨rfl, rfl⟩ := List.append_eq_nil_iff.mp h.symm
    unfold Origin
    rw [htaker]
    exact hinit r hr
  untaken t _ := by rw [hstore]
  stored older n younger h := by simp at h
  operands older n younger h := by simp at h

/-- Only what has been read and written, and who has taken the tags, matters of the history. -/
theorem congr {taker' : τ → Option η} {didRead' wrote' : η → Prop} {v' : Values τ κ ν}
    (H : Computes S R regs m₀ v₀ retired live taker didRead wrote v) (htaker : taker' = taker)
    (hread : ∀ n, didRead' n → didRead n) (hwrote : ∀ n, wrote' n → wrote n) (hv : v' = v) :
    Computes S R regs m₀ v₀ retired live taker' didRead' wrote' v' := by
  subst htaker hv
  exact { H with
    stored := fun older n younger h hw => H.stored older n younger h (hwrote n hw)
    operands := fun older n younger h hr => H.operands older n younger h (hread n hr) }

/-- A register that is ready has its value in its tag. -/
theorem value (H : Computes S R regs m₀ v₀ retired live taker didRead wrote v) (hr : regs r)
    (hready : Ready taker wrote (R.table (retired ++ live) r)) :
    v.store (R.table (retired ++ live) r) = valuesAfter S R m₀ (retired ++ live) r :=
  (H.origin live [] (List.append_nil _).symm r hr).value H (List.append_nil _).symm hready

/-- The old instructions retire. -/
theorem retire (H : Computes S R regs m₀ v₀ retired (old ++ live) taker didRead wrote v) :
    Computes S R regs m₀ v₀ (retired ++ old) live taker didRead wrote v := by
  have hassoc : retired ++ old ++ live = retired ++ (old ++ live) := List.append_assoc _ _ _
  refine ⟨?_, ?_, fun older younger h r hr => ?_, H.untaken, ?_, ?_⟩
  · rw [hassoc]
    exact H.renamed
  · rw [hassoc]
    exact H.nodup
  · rw [List.append_assoc]
    exact H.origin (old ++ older) younger (by rw [h, List.append_assoc]) r hr
  · rw [hassoc]
    exact H.stored
  · rw [hassoc]
    exact H.operands

/-- The young instructions are taken back. -/
theorem drop (H : Computes S R regs m₀ v₀ retired (live ++ young) taker didRead wrote v) :
    Computes S R regs m₀ v₀ retired live taker didRead wrote v := by
  have hsplit : ∀ {older n younger}, retired ++ live = older ++ n :: younger →
      retired ++ (live ++ young) = older ++ n :: (younger ++ young) := by
    intro older n younger h
    rw [← List.append_assoc, h]
    simp
  refine ⟨fun older n younger h => H.renamed _ _ _ (hsplit h), ?_, fun older younger h r hr => ?_,
    H.untaken, fun older n younger h => H.stored _ _ _ (hsplit h),
    fun older n younger h => H.operands _ _ _ (hsplit h)⟩
  · have hnodup := H.nodup
    rw [← List.append_assoc, List.map_append] at hnodup
    exact (List.nodup_append.mp hnodup).1
  · exact H.origin older (younger ++ young) (by rw [h, List.append_assoc]) r hr

/-! ### Renaming an instruction -/

/-- The value of a register after one more instruction comes from that instruction, or from a
register of before. -/
theorem origin_rename (hn : R.Renames S regs live n)
    (horigin : ∀ s, regs s → Origin S R m₀ v₀ taker live s)
    (hfresh : ∀ s, regs s → R.dest n (R.table live s) = none) (hr : regs r) :
    Origin S R m₀ v₀ (R.take taker n) (live ++ [n]) r := by
  have hold : ∀ s, regs s → Origin S R m₀ v₀ (R.take taker n) live s := fun s hs =>
    (horigin s hs).take (hfresh s hs)
  cases hwrites : S.writes (R.inst n) r with
  | false =>
    refine (hold r hr).concat (hn.unwritten r hwrites) ?_
    rw [valuesAfter_concat, S.exec_of_not_writes hwrites]
  | true =>
    rcases hn.written r hwrites with hdest | ⟨s, hs, htable, hcopy⟩
    · have htaker : R.take taker n (R.table (live ++ [n]) r) = some n := by
        simp [Renaming.take, hdest]
      unfold Origin
      rw [htaker]
      exact ⟨live, [], r, rfl, hdest, rfl⟩
    · refine (hold s hs).concat htable ?_
      rw [valuesAfter_concat, hcopy]

/-- An instruction is renamed, with tags that no register has or has had since the oldest
instruction that can be taken back. -/
theorem rename (H : Computes S R regs m₀ v₀ retired live taker didRead wrote v)
    (hn : R.Renames S regs (retired ++ live) n) (hkey : R.key n ∉ (retired ++ live).map R.key)
    (hfresh : ∀ older younger, live = older ++ younger → ∀ r, regs r →
      R.dest n (R.table (retired ++ older) r) = none)
    (hread : ¬didRead n) (hwrote : ¬wrote n) :
    Computes S R regs m₀ v₀ retired (live ++ [n]) (R.take taker n) didRead wrote v := by
  -- the last instruction of the log is the new one
  have hlast : ∀ {older w younger}, retired ++ (live ++ [n]) = older ++ w :: younger →
      (older = retired ++ live ∧ w = n) ∨
        ∃ front, retired ++ live = older ++ w :: front := by
    intro older w younger h
    rw [← List.append_assoc] at h
    rcases List.eq_nil_or_concat younger with rfl | ⟨front, last, rfl⟩
    · obtain ⟨hold, hw⟩ := List.append_inj' h rfl
      exact .inl ⟨hold.symm, (List.cons.inj hw).1.symm⟩
    · have h' : retired ++ live ++ [n] = (older ++ w :: front) ++ [last] := by
        rw [h]
        simp
      exact .inr ⟨front, (List.append_inj' h' rfl).1⟩
  have hne : ∀ {older w younger}, retired ++ live = older ++ w :: younger → w ≠ n := by
    rintro older w younger h rfl
    exact hkey (List.mem_map_of_mem (by rw [h]; simp))
  refine ⟨fun older w younger h => ?_, ?_, fun older younger h r hr => ?_, fun t ht => ?_,
    fun older w younger h hw t r ht hdest => ?_, fun older w younger h hw => ?_⟩
  · rcases hlast h with ⟨rfl, rfl⟩ | ⟨front, hfront⟩
    · exact hn
    · exact H.renamed older w front hfront
  · rw [← List.append_assoc, List.map_append, List.nodup_append]
    refine ⟨H.nodup, by simp, ?_⟩
    rintro a ha b hb rfl
    rw [List.mem_singleton.mp hb] at ha
    exact hkey ha
  · rcases List.eq_nil_or_concat younger with rfl | ⟨front, last, rfl⟩
    · obtain rfl : older = live ++ [n] := by rw [h, List.append_nil]
      rw [← List.append_assoc]
      exact origin_rename hn (H.origin live [] (List.append_nil _).symm)
        (hfresh live [] (List.append_nil _).symm) hr
    · have hfront : live = older ++ front := by
        have h' : live ++ [n] = (older ++ front) ++ [last] := by
          rw [h]
          simp
        exact (List.append_inj' h' rfl).1
      exact (H.origin older front hfront r hr).take (hfresh older front hfront r hr)
  · refine H.untaken t ?_
    unfold Renaming.take at ht
    split at ht
    · cases ht
    · exact ht
  · rcases hlast h with ⟨rfl, rfl⟩ | ⟨front, hfront⟩
    · exact absurd hw hwrote
    · refine H.stored older w front hfront hw t r ?_ hdest
      unfold Renaming.take at ht
      split at ht
      · exact absurd (Option.some.inj ht).symm (hne hfront)
      · exact ht
  · rcases hlast h with ⟨rfl, rfl⟩ | ⟨front, hfront⟩
    · exact absurd hw hread
    · exact H.operands older w front hfront hw

/-! ### Executing an instruction -/

/-- An instruction of the log is the one of its key. -/
theorem eq_of_key (H : Computes S R regs m₀ v₀ retired live taker didRead wrote v) {w : η}
    (hn : n ∈ live) (hw : w ∈ retired ++ live) (hkey : R.key w = R.key n) : w = n :=
  List.inj_on_of_nodup_map H.nodup hw (List.mem_append_right _ hn) hkey

/-- An instruction reads its operands when all of them are ready. -/
theorem read [DecidableEq κ] (H : Computes S R regs m₀ v₀ retired live taker didRead wrote v)
    (hn : n ∈ live) (hregs : ∀ r ∈ S.reads (R.inst n), regs r)
    (hsources : ∀ older younger, retired ++ live = older ++ n :: younger →
      R.sources n = (S.reads (R.inst n)).map (R.table older))
    (hready : ∀ t ∈ R.sources n, Ready taker wrote t) :
    Computes S R regs m₀ v₀ retired live taker (fun w => w = n ∨ didRead w) wrote
      (v.read R n) := by
  refine { H with operands := fun older w younger h hw => ?_ }
  by_cases hkey : R.key w = R.key n
  · obtain rfl := H.eq_of_key hn (by rw [h]; simp) hkey
    -- the elders of an instruction that has not retired are the retired ones and some others
    obtain ⟨before, after, hlive⟩ := List.append_of_mem hn
    obtain rfl : older = retired ++ before := split_unique H.nodup h
      (by rw [hlive, List.append_assoc])
    have hops := hsources _ younger h
    show Function.update v.operands (R.key w) _ (R.key w) = _
    rw [Function.update_self, hops, List.map_map]
    refine List.map_congr_left fun r hr => ?_
    refine (H.origin before _ hlive r (hregs r hr)).value H h (hready _ ?_)
    rw [hops]
    exact List.mem_map_of_mem hr
  · have hread : didRead w := by
      rcases hw with rfl | hw
      · exact absurd rfl hkey
      · exact hw
    show Function.update v.operands (R.key n) _ (R.key w) = _
    rw [Function.update_of_ne hkey]
    exact H.operands older w younger h hread

/-- An instruction that has read its operands writes its results, to tags that nobody else has
taken since. -/
theorem write (H : Computes S R regs m₀ v₀ retired live taker didRead wrote v) (hread : didRead n)
    (howner : ∀ t r, R.dest n t = some r → taker t = some n) :
    Computes S R regs m₀ v₀ retired live taker didRead (fun w => w = n ∨ wrote w)
      (v.write S R n) := by
  have hother : ∀ t w, taker t = w → w ≠ some n → (v.write S R n).store t = v.store t := by
    intro t w ht hw
    have hnone : R.dest n t = none := by
      by_contra hsome
      obtain ⟨r, hr⟩ := Option.ne_none_iff_exists'.mp hsome
      exact hw (ht.symm.trans (howner t r hr))
    simp [Values.write, hnone]
  refine { H with
    untaken := fun t ht => (hother t none ht (by simp)).trans (H.untaken t ht)
    stored := fun older w younger h hw t r ht hdest => ?_ }
  by_cases hwn : w = n
  · subst hwn
    have hwrites := (H.renamed older w younger h).dest_writes t r hdest
    calc (v.write S R w).store t
        = S.result (R.inst w) (v.operands (R.key w)) r := by simp [Values.write, hdest]
      _ = S.exec (valuesAfter S R m₀ older) (R.inst w) r := by
          rw [S.exec_of_writes hwrites, H.operands older w younger h hread]
      _ = valuesAfter S R m₀ (older ++ [w]) r := by rw [valuesAfter_concat]
  · rw [hother t (some w) ht (by simpa using hwn)]
    exact H.stored older w younger h (hw.resolve_left hwn) t r ht hdest

end Computes

end Rules

end Dataflow
