import Mathlib.Data.List.Basic
import Mathlib.Data.List.Induction
import Mathlib.Data.Multiset.Basic

/-!
# Runs of a machine that may stop at an assertion

A unit of a simulator is a function `step : σ → α → Except ε σ`: it takes an action in a
state and either returns the next state or stops at an assertion.  A run is the monadic
fold of `step` over a list of actions, so every loop of the modelled code that can fail and
every run of a whole system are the same object, `List.foldlM`, and the rules of this file
serve both.

* `bind_eq_ok` takes a successful sequential composition apart.
* `foldlM_ok_induct` is the rule for loops: an invariant that may mention the elements
  still to come.
* `FailsIn` bounds the assertions a computation can stop at.
* `Reachable` and `Reachable.invariant` are the rule for systems: what the initial state
  satisfies and every successful step keeps holds in every reachable state.
* `Visits` and `Takes` speak about one run: the states it passes through and the actions it
  takes there; `along` tests a condition on them.
* `traced` adds a history to a system: what an observer collects along the run.  Every run
  has its history (`Reachable.exists_traced`), so an invariant may speak about the past of a
  system that does not store it; `mem_traced_iff` says what is in it, and `AtEach` relates each
  entry to what comes before it.
-/

namespace Run

universe u v w

variable {σ β γ : Type u} {α : Type v} {ε : Type w}

/-- A successful composition is a successful first part followed by a successful rest. -/
theorem bind_eq_ok {x : Except ε γ} {f : γ → Except ε β} {b : β} :
    (x >>= f) = .ok b ↔ ∃ a, x = .ok a ∧ f a = .ok b := by
  cases x with
  | error e =>
    constructor
    · intro h
      cases h
    · rintro ⟨a, ha, -⟩
      cases ha
  | ok a =>
    constructor
    · intro h
      exact ⟨a, rfl, h⟩
    · rintro ⟨a', ha, h⟩
      cases ha
      exact h

/-- A failed composition fails in its first part or in the rest. -/
theorem bind_eq_error {x : Except ε γ} {f : γ → Except ε β} {e : ε} :
    (x >>= f) = .error e ↔ x = .error e ∨ ∃ a, x = .ok a ∧ f a = .error e := by
  cases x with
  | error e' =>
    constructor
    · intro h
      exact .inl (by cases h; rfl)
    · rintro (h | ⟨a, ha, -⟩)
      · cases h
        rfl
      · cases ha
  | ok a =>
    constructor
    · intro h
      exact .inr ⟨a, rfl, h⟩
    · rintro (h | ⟨a', ha, h⟩)
      · cases h
      · cases ha
        exact h

/-- The result of a conditional is that of one of its branches. -/
theorem of_ite {c : Prop} [Decidable c] {x y z : γ} (h : (if c then x else y) = z) :
    x = z ∨ y = z := by
  split at h
  · exact .inl h
  · exact .inr h

/-- A run that evaluates to a value has succeeded in a state with that value. -/
theorem ok_of_eval {x : Except ε σ} {f : σ → β} {b : β} (h : x.toOption.map f = some b) :
    ∃ s, x = .ok s ∧ f s = b := by
  rcases x with e | s
  · cases h
  · exact ⟨s, rfl, Option.some.inj h⟩

/-- The rule for a loop over a list: the invariant may depend on what is still to be
processed, and each iteration turns `I (a :: l)` into `I l`. -/
theorem foldlM_ok_induct {f : σ → α → Except ε σ} {I : List α → σ → Prop}
    (hstep : ∀ a l s s', I (a :: l) s → f s a = .ok s' → I l s') :
    ∀ {l : List α} {s s' : σ}, I l s → l.foldlM f s = .ok s' → I [] s'
  | [], s, s', hI, h => by
    cases h
    exact hI
  | a :: l, s, s', hI, h => by
    rw [List.foldlM_cons, bind_eq_ok] at h
    obtain ⟨t, ht, hrest⟩ := h
    exact foldlM_ok_induct hstep (hstep a l s t hI ht) hrest

/-- A loop all of whose iterations succeed under the invariant succeeds. -/
theorem foldlM_ok_exists {f : σ → α → Except ε σ} {I : List α → σ → Prop}
    (hstep : ∀ a l s, I (a :: l) s → ∃ s', f s a = .ok s' ∧ I l s') :
    ∀ {l : List α} {s : σ}, I l s → ∃ s', l.foldlM f s = .ok s' ∧ I [] s'
  | [], s, hI => ⟨s, rfl, hI⟩
  | a :: l, s, hI => by
    obtain ⟨t, ht, hI'⟩ := hstep a l s hI
    obtain ⟨s', hs', hfin⟩ := foldlM_ok_exists hstep hI'
    exact ⟨s', by rw [List.foldlM_cons, bind_eq_ok]; exact ⟨t, ht, hs'⟩, hfin⟩

/-- A property kept by every successful step is kept by a successful run. -/
theorem foldlM_ok_preserves {f : σ → α → Except ε σ} {I : σ → Prop}
    (hstep : ∀ a s s', I s → f s a = .ok s' → I s') {l : List α} {s s' : σ}
    (hI : I s) (h : l.foldlM f s = .ok s') : I s' :=
  foldlM_ok_induct (I := fun _ => I) (fun a _ s s' hs hf => hstep a s s' hs hf) hI h

/-- A loop that maps each element by a function, where it succeeds, maps the list by it. -/
theorem mapM_ok_eq_map {β : Type u} {f : α → Except ε β} {g : α → β}
    (hf : ∀ a b, f a = .ok b → b = g a) :
    ∀ {l : List α} {l' : List β}, l.mapM f = .ok l' → l' = l.map g
  | [], l', h => by
    rw [List.mapM_nil] at h
    exact (Except.ok.inj h).symm
  | a :: l, l', h => by
    rw [List.mapM_cons] at h
    obtain ⟨b, hb, h⟩ := bind_eq_ok.mp h
    obtain ⟨bs, hbs, h⟩ := bind_eq_ok.mp h
    obtain rfl := Except.ok.inj h
    rw [List.map_cons, hf a b hb, mapM_ok_eq_map hf hbs]

/-- A loop that succeeds has succeeded on each element. -/
theorem mapM_ok_mem {β : Type u} {f : α → Except ε β} {a : α} :
    ∀ {l : List α} {l' : List β}, l.mapM f = .ok l' → a ∈ l → ∃ b, f a = .ok b
  | a' :: l, l', h, ha => by
    rw [List.mapM_cons] at h
    obtain ⟨b, hb, h⟩ := bind_eq_ok.mp h
    obtain ⟨bs, hbs, -⟩ := bind_eq_ok.mp h
    rcases List.mem_cons.mp ha with rfl | ha
    · exact ⟨b, hb⟩
    · exact mapM_ok_mem hbs ha

/-! ## The errors of a computation -/

/-- The computation fails, if at all, with an error in `E`. -/
def FailsIn (E : ε → Prop) (x : Except ε γ) : Prop := ∀ e, x = .error e → E e

namespace FailsIn

variable {E : ε → Prop}

theorem ok (a : γ) : FailsIn E (.ok a) := fun _ h => by cases h

theorem error {e : ε} (he : E e) : FailsIn E (.error e : Except ε γ) :=
  fun _ h => by cases h; exact he

theorem bind {x : Except ε γ} {f : γ → Except ε β} (hx : FailsIn E x)
    (hf : ∀ a, FailsIn E (f a)) : FailsIn E (x >>= f) := by
  intro e h
  rcases bind_eq_error.mp h with h | ⟨a, -, h⟩
  · exact hx e h
  · exact hf a e h

/-- The rest of a composition runs on what the first part has returned. -/
theorem bind_of_ok {x : Except ε γ} {f : γ → Except ε β} (hx : FailsIn E x)
    (hf : ∀ a, x = .ok a → FailsIn E (f a)) : FailsIn E (x >>= f) := by
  intro e h
  rcases bind_eq_error.mp h with h | ⟨a, ha, h⟩
  · exact hx e h
  · exact hf a ha e h

/-- A loop fails only in its iterations, each of which runs under the invariant. -/
theorem foldlM_of_invariant {f : σ → α → Except ε σ} {I : List α → σ → Prop}
    (hf : ∀ a l s, I (a :: l) s → FailsIn E (f s a))
    (hstep : ∀ a l s s', I (a :: l) s → f s a = .ok s' → I l s') :
    ∀ {l : List α} {s : σ}, I l s → FailsIn E (l.foldlM f s)
  | [], s, _ => .ok s
  | a :: l, s, hI => by
    rw [List.foldlM_cons]
    exact (hf a l s hI).bind_of_ok fun s' hs' =>
      foldlM_of_invariant hf hstep (hstep a l s s' hI hs')

theorem foldlM {f : σ → α → Except ε σ} (hf : ∀ s a, FailsIn E (f s a)) :
    ∀ (l : List α) (s : σ), FailsIn E (l.foldlM f s)
  | [], s => .ok s
  | a :: l, s => by
    rw [List.foldlM_cons]
    exact (hf s a).bind fun t => foldlM hf l t

theorem ite {c : Prop} [Decidable c] {x y : Except ε γ} (hx : FailsIn E x) (hy : FailsIn E y) :
    FailsIn E (if c then x else y) := by
  split
  · exact hx
  · exact hy

theorem mapM {f : α → Except ε β} (hf : ∀ a, FailsIn E (f a)) :
    ∀ l : List α, FailsIn E (l.mapM f)
  | [] => by
    rw [List.mapM_nil]
    exact .ok _
  | a :: l => by
    rw [List.mapM_cons]
    exact (hf a).bind fun b => (mapM hf l).bind fun bs => .ok _

theorem mono {E' : ε → Prop} {x : Except ε γ} (hx : FailsIn E x) (hE : ∀ e, E e → E' e) :
    FailsIn E' x :=
  fun e h => hE e (hx e h)

theorem of_eq_ok {x : Except ε γ} {a : γ} (hx : x = .ok a) : FailsIn E x :=
  hx ▸ .ok a

theorem ne {x : Except ε γ} {e : ε} (hx : FailsIn E x) (he : ¬E e) : x ≠ .error e :=
  fun h => he (hx e h)

end FailsIn

/-! ## Systems -/

/-- The states a system reaches from `init`. -/
def Reachable (step : σ → α → Except ε σ) (init s : σ) : Prop :=
  ∃ l : List α, l.foldlM step init = .ok s

theorem Reachable.refl (step : σ → α → Except ε σ) (init : σ) : Reachable step init init :=
  ⟨[], rfl⟩

theorem Reachable.step {step : σ → α → Except ε σ} {init s s' : σ} {a : α}
    (h : Reachable step init s) (ha : step s a = .ok s') : Reachable step init s' := by
  obtain ⟨l, hl⟩ := h
  refine ⟨l ++ [a], ?_⟩
  rw [List.foldlM_append, bind_eq_ok]
  exact ⟨s, hl, by rw [List.foldlM_cons, bind_eq_ok]; exact ⟨s', ha, rfl⟩⟩

/-- What holds initially and is kept by every successful step holds in every reachable
state. -/
theorem Reachable.invariant {step : σ → α → Except ε σ} {init s : σ} {I : σ → Prop}
    (h : Reachable step init s) (hinit : I init)
    (hstep : ∀ a s s', I s → step s a = .ok s' → I s') : I s := by
  obtain ⟨l, hl⟩ := h
  exact foldlM_ok_preserves hstep hinit hl

/-! ## Along a run -/

/-- The run over `l` passes through `s`. -/
def Visits (step : σ → α → Except ε σ) (init : σ) (l : List α) (s : σ) : Prop :=
  ∃ l₁ l₂, l = l₁ ++ l₂ ∧ l₁.foldlM step init = .ok s

/-- The run over `l` takes the action `a` in the state `s`. -/
def Takes (step : σ → α → Except ε σ) (init : σ) (l : List α) (s : σ) (a : α) : Prop :=
  ∃ l₁ l₂, l = l₁ ++ a :: l₂ ∧ l₁.foldlM step init = .ok s

section Along

variable {step : σ → α → Except ε σ} {init s t : σ} {l : List α} {a : α}

theorem Visits.reachable (h : Visits step init l s) : Reachable step init s := by
  obtain ⟨l₁, -, -, hl₁⟩ := h
  exact ⟨l₁, hl₁⟩

theorem Takes.visits (h : Takes step init l s a) : Visits step init l s := by
  obtain ⟨l₁, l₂, hl, hl₁⟩ := h
  exact ⟨l₁, a :: l₂, hl, hl₁⟩

/-- A run takes the actions that its rest takes. -/
theorem Takes.append {l₁ : List α} (hrun : l₁.foldlM step init = .ok t) (h : Takes step t l s a) :
    Takes step init (l₁ ++ l) s a := by
  obtain ⟨l₂, l₃, rfl, hl₂⟩ := h
  refine ⟨l₁ ++ l₂, l₃, by simp, ?_⟩
  rw [List.foldlM_append, bind_eq_ok]
  exact ⟨t, hrun, hl₂⟩

/-- A run that succeeds passes through the result of each action it takes. -/
theorem Takes.next (h : Takes step init l s a) (hrun : l.foldlM step init = .ok t) :
    ∃ s', step s a = .ok s' ∧ Visits step init l s' := by
  obtain ⟨l₁, l₂, rfl, hl₁⟩ := h
  rw [List.foldlM_append, bind_eq_ok] at hrun
  obtain ⟨s₁, hs₁, hrun⟩ := hrun
  obtain rfl : s₁ = s := Except.ok.inj (hs₁.symm.trans hl₁)
  rw [List.foldlM_cons, bind_eq_ok] at hrun
  obtain ⟨s', hs', -⟩ := hrun
  refine ⟨s', hs', l₁ ++ [a], l₂, by simp, ?_⟩
  rw [List.foldlM_append, bind_eq_ok]
  exact ⟨s₁, hl₁, by rw [List.foldlM_cons, bind_eq_ok]; exact ⟨s', hs', rfl⟩⟩

/-- What holds initially and is kept by every action the run takes holds wherever it passes. -/
theorem Visits.invariant {I : σ → Prop} (h : Visits step init l s) (hinit : I init)
    (hstep : ∀ a s s', I s → Takes step init l s a → step s a = .ok s' → I s') : I s := by
  obtain ⟨l₁, l₂, hl, hl₁⟩ := h
  induction l₁ using List.reverseRecOn generalizing l₂ s with
  | nil =>
    obtain rfl := Except.ok.inj hl₁
    exact hinit
  | append_singleton l₁ a ih =>
    rw [List.foldlM_append, bind_eq_ok] at hl₁
    obtain ⟨s₁, hs₁, hl₁⟩ := hl₁
    rw [List.foldlM_cons, bind_eq_ok] at hl₁
    obtain ⟨s₂, hs₂, hl₁⟩ := hl₁
    obtain rfl := Except.ok.inj hl₁
    have hsplit : l = l₁ ++ a :: l₂ := by simpa using hl
    exact hstep a s₁ s₂ (ih (a :: l₂) hsplit hs₁) ⟨l₁, l₂, hsplit, hs₁⟩ hs₂

/-- A test of the actions that a run takes, in the states in which it takes them. -/
def along (step : σ → α → Except ε σ) (test : σ → α → Bool) : σ → List α → Bool
  | _, [] => true
  | s, a :: l => test s a &&
    match step s a with
    | .ok s' => along step test s' l
    | .error _ => true

theorem Takes.of_along {test : σ → α → Bool} (hall : along step test init l = true)
    (h : Takes step init l s a) : test s a = true := by
  obtain ⟨l₁, l₂, rfl, hl₁⟩ := h
  induction l₁ generalizing init with
  | nil =>
    obtain rfl := Except.ok.inj hl₁
    exact (Bool.and_eq_true_iff.mp hall).1
  | cons b l₁ ih =>
    rw [List.foldlM_cons, bind_eq_ok] at hl₁
    obtain ⟨s', hs', hl₁⟩ := hl₁
    have hrest := (Bool.and_eq_true_iff.mp hall).2
    rw [hs'] at hrest
    exact ih hl₁ hrest

end Along

/-! ## Histories -/

/-- The system with a history to which each step appends what `obs` sees of it. -/
def traced (step : σ → α → Except ε σ) (obs : σ → α → List β) (hs : List β × σ) (a : α) :
    Except ε (List β × σ) := do
  let s ← step hs.2 a
  return (hs.1 ++ obs hs.2 a, s)

theorem traced_eq_ok {step : σ → α → Except ε σ} {obs : σ → α → List β}
    {hs hs' : List β × σ} {a : α} :
    traced step obs hs a = .ok hs' ↔ step hs.2 a = .ok hs'.2 ∧ hs'.1 = hs.1 ++ obs hs.2 a := by
  unfold traced
  rw [bind_eq_ok]
  constructor
  · rintro ⟨s, hs, heq⟩
    obtain rfl : _ = hs' := Except.ok.inj heq
    exact ⟨hs, rfl⟩
  · rintro ⟨hstep, hhist⟩
    exact ⟨hs'.2, hstep, by rw [← hhist]; rfl⟩

/-- Every reachable state is reached with some history. -/
theorem Reachable.exists_traced {step : σ → α → Except ε σ} {init s : σ}
    (obs : σ → α → List β) (h : Reachable step init s) :
    ∃ hist, Reachable (traced step obs) ([], init) (hist, s) := by
  refine h.invariant (I := fun s => ∃ hist, Reachable (traced step obs) ([], init) (hist, s))
    ⟨[], .refl _ _⟩ ?_
  rintro a s s' ⟨hist, hreach⟩ hstep
  exact ⟨hist ++ obs s a, hreach.step (traced_eq_ok.mpr ⟨hstep, rfl⟩)⟩

/-- Every entry of the history stands in the relation `P` to what comes before it. -/
def AtEach (P : List β → β → Prop) (hist : List β) : Prop :=
  ∀ h₁ b h₂, hist = h₁ ++ b :: h₂ → P h₁ b

namespace AtEach

variable {P : List β → β → Prop} {hist h : List β} {b : β}

theorem nil : AtEach P [] := fun h₁ b h₂ h => by cases h₁ <;> cases h

theorem append (H : AtEach P hist) (hnew : AtEach (fun h₁ b => P (hist ++ h₁) b) h) :
    AtEach P (hist ++ h) := by
  intro h₁ b h₂ hh
  rcases List.append_eq_append_iff.mp hh with ⟨h', rfl, hh'⟩ | ⟨h', hhist, hh'⟩
  · exact hnew h' b h₂ hh'
  · rcases h' with _ | ⟨e, h'⟩
    · rw [List.append_nil] at hhist
      have hfirst : P (hist ++ []) b := hnew [] b h₂ hh'.symm
      rwa [List.append_nil, hhist] at hfirst
    · obtain ⟨rfl, -⟩ := List.cons.inj hh'
      exact H h₁ b h' hhist

/-- Entries that `P` relates to every history. -/
theorem append_of_forall (H : AtEach P hist) (hnew : ∀ b ∈ h, ∀ h₁, P h₁ b) :
    AtEach P (hist ++ h) := by
  refine H.append fun h₁ b h₂ hh => hnew b ?_ _
  rw [hh]
  exact List.mem_append_right _ List.mem_cons_self

theorem concat (H : AtEach P hist) (hb : P hist b) : AtEach P (hist ++ [b]) := by
  refine H.append fun h₁ b' h₂ hh => ?_
  obtain ⟨rfl, rfl, -⟩ : h₁ = [] ∧ b = b' ∧ h₂ = [] := by
    rcases h₁ with _ | ⟨e, h₁⟩
    · obtain ⟨rfl, rfl⟩ := List.cons.inj hh
      exact ⟨rfl, rfl, rfl⟩
    · have hnil := (List.cons.inj hh).2
      cases h₁ <;> cases hnil
  show P (hist ++ []) b
  rwa [List.append_nil]

end AtEach

section Traced

variable {step : σ → α → Except ε σ} {obs : σ → α → List β} {init s t : σ} {l : List α} {a : α}
  {hist : List β}

/-- A run with its history is a run. -/
theorem foldlM_of_traced {hs hs' : List β × σ} (h : l.foldlM (traced step obs) hs = .ok hs') :
    l.foldlM step hs.2 = .ok hs'.2 := by
  induction l generalizing hs with
  | nil =>
    obtain rfl := Except.ok.inj h
    rfl
  | cons a l ih =>
    rw [List.foldlM_cons, bind_eq_ok] at h
    obtain ⟨hs₁, hstep, h⟩ := h
    rw [List.foldlM_cons, bind_eq_ok]
    exact ⟨hs₁.2, (traced_eq_ok.mp hstep).1, ih h⟩

/-- Every run has its history. -/
theorem exists_traced_of_foldlM (obs : σ → α → List β) (h : l.foldlM step init = .ok s) :
    ∃ hist, l.foldlM (traced step obs) ([], init) = .ok (hist, s) := by
  induction l using List.reverseRecOn generalizing s with
  | nil =>
    obtain rfl := Except.ok.inj h
    exact ⟨[], rfl⟩
  | append_singleton l a ih =>
    rw [List.foldlM_append, bind_eq_ok] at h
    obtain ⟨s₁, hs₁, h⟩ := h
    rw [List.foldlM_cons, bind_eq_ok] at h
    obtain ⟨s₂, hs₂, h⟩ := h
    obtain rfl := Except.ok.inj h
    obtain ⟨hist, hrun⟩ := ih hs₁
    refine ⟨hist ++ obs s₁ a, ?_⟩
    rw [List.foldlM_append, bind_eq_ok]
    refine ⟨_, hrun, ?_⟩
    rw [List.foldlM_cons, bind_eq_ok]
    exact ⟨_, traced_eq_ok.mpr ⟨hs₂, rfl⟩, rfl⟩

/-- An action that a run takes, it takes with a history. -/
theorem Takes.exists_traced (obs : σ → α → List β) (h : Takes step init l s a) :
    ∃ hist, Takes (traced step obs) ([], init) l (hist, s) a := by
  obtain ⟨l₁, l₂, hl, hl₁⟩ := h
  obtain ⟨hist, hrun⟩ := exists_traced_of_foldlM obs hl₁
  exact ⟨hist, l₁, l₂, hl, hrun⟩

/-- A run with its history takes the actions of the run. -/
theorem Takes.of_traced {hs : List β × σ}
    (h : Takes (traced step obs) ([], init) l hs a) : Takes step init l hs.2 a := by
  obtain ⟨l₁, l₂, hl, hl₁⟩ := h
  exact ⟨l₁, l₂, hl, foldlM_of_traced hl₁⟩

/-- The end of a run is a state that it passes through. -/
theorem Visits.last (h : l.foldlM step init = .ok s) : Visits step init l s :=
  ⟨l, [], by simp, h⟩

/-- The history is what the observer has seen of the actions that the run takes. -/
theorem mem_traced_iff {b : β} (h : l.foldlM (traced step obs) ([], init) = .ok (hist, s)) :
    b ∈ hist ↔ ∃ t a, Takes step init l t a ∧ b ∈ obs t a := by
  induction l using List.reverseRecOn generalizing hist s with
  | nil =>
    obtain ⟨rfl, rfl⟩ := Prod.mk.inj (Except.ok.inj h)
    constructor
    · intro hb
      cases hb
    · rintro ⟨t, a, ⟨l₁, l₂, hl, -⟩, -⟩
      simp at hl
  | append_singleton l a ih =>
    rw [List.foldlM_append, bind_eq_ok] at h
    obtain ⟨⟨hist₁, s₁⟩, hrun, h⟩ := h
    rw [List.foldlM_cons, bind_eq_ok] at h
    obtain ⟨hs₂, hstep, h⟩ := h
    obtain rfl := Except.ok.inj h
    obtain ⟨hs, hhist⟩ := traced_eq_ok.mp hstep
    have hrun₁ := foldlM_of_traced hrun
    dsimp only at hs hhist hrun₁
    rw [hhist, List.mem_append, ih hrun]
    constructor
    · rintro (⟨t, b', ⟨l₁, l₂, rfl, hl₁⟩, hb⟩ | hb)
      · exact ⟨t, b', ⟨l₁, l₂ ++ [a], by simp, hl₁⟩, hb⟩
      · exact ⟨s₁, a, ⟨l, [], rfl, hrun₁⟩, hb⟩
    · rintro ⟨t, b', ⟨l₁, l₂, hl, hl₁⟩, hb⟩
      rcases List.eq_nil_or_concat l₂ with rfl | ⟨l₂, c, rfl⟩
      · -- the last action
        obtain ⟨rfl, hlast⟩ := List.append_inj' hl rfl
        obtain rfl := List.singleton_inj.mp hlast
        obtain rfl := Except.ok.inj (hrun₁.symm.trans hl₁)
        exact .inr hb
      · rw [List.concat_eq_append, ← List.cons_append, ← List.append_assoc] at hl
        obtain ⟨rfl, -⟩ := List.append_inj' hl rfl
        exact .inl ⟨t, b', ⟨l₁, l₂, rfl, hl₁⟩, hb⟩

end Traced

end Run
