import Olympia.FlushManager

/-!
# Combining flush requests

The flush manager keeps one request and forwards it when its event runs.  What a request includes
is everything from some unique identifier on (`FlushingCriteria.bound`), so the requests are
ordered by their bounds, and `receiveFlush` keeps a request with the smallest one: a request for
an instruction that the pending one takes has no smaller bound, and any other has none that is
larger (`receiveFlush_bound`).
-/

namespace Olympia

/-! ## The bound of a request -/

namespace FlushingCriteria

/-- The oldest unique identifier that the flush includes. -/
def bound (c : FlushingCriteria) : ℕ := if c.isInclusive then c.uniqueId else c.uniqueId + 1

theorem includesId_iff {c : FlushingCriteria} {uid : ℕ} :
    c.includesId uid = true ↔ c.bound ≤ uid := by
  unfold includesId bound
  split
  · exact decide_eq_true_iff
  · rw [decide_eq_true_iff, Nat.succ_le_iff]

theorem uniqueId_le_bound (c : FlushingCriteria) : c.uniqueId ≤ c.bound := by
  unfold bound
  split
  · exact le_rfl
  · exact Nat.le_succ _

theorem bound_le_succ (c : FlushingCriteria) : c.bound ≤ c.uniqueId + 1 := by
  unfold bound
  split
  · exact Nat.le_succ _
  · exact le_rfl

end FlushingCriteria

/-! ## The manager -/

/-- The ports that a flush is forwarded to. -/
inductive FlushPort where
  | lower
  | upper
  deriving DecidableEq, Repr

namespace FlushManager

/-- `forwardFlush_`: the port and what is sent. -/
def forwardFlush (pending : Option FlushingCriteria) :
    Except Assertion (FlushPort × FlushingCriteria) :=
  match pending with
  | none => .error .noFlushToForward
  | some flushData => .ok (if flushData.isLowerPipeFlush then .lower else .upper, flushData)

/-- The request that is kept has the smaller bound. -/
theorem receiveFlush_bound (old new : FlushingCriteria) :
    ∃ c, receiveFlush (some old) new = some c ∧ c.bound = min old.bound new.bound := by
  unfold receiveFlush
  dsimp only
  by_cases h : old.includesId new.uniqueId = true
  · have hle := (FlushingCriteria.includesId_iff.mp h).trans new.uniqueId_le_bound
    exact ⟨old, by rw [if_pos h], (min_eq_left hle).symm⟩
  · have hlt : new.uniqueId < old.bound := by
      rw [FlushingCriteria.includesId_iff] at h
      omega
    exact ⟨new, by rw [if_neg h], (min_eq_right (new.bound_le_succ.trans hlt)).symm⟩

/-- A request of the upper pipeline that is older than the other request wins. -/
theorem receiveFlush_older {old new : FlushingCriteria} (h : new.uniqueId < old.uniqueId) :
    receiveFlush (some old) new = some new := by
  unfold receiveFlush
  dsimp only
  rw [if_neg]
  rw [FlushingCriteria.includesId_iff]
  have hle := old.uniqueId_le_bound
  omega

theorem receiveFlush_younger {old new : FlushingCriteria} (h : old.uniqueId < new.uniqueId) :
    receiveFlush (some old) new = some old := by
  unfold receiveFlush
  dsimp only
  rw [if_pos]
  rw [FlushingCriteria.includesId_iff]
  exact old.bound_le_succ.trans h

end FlushManager

/-- The manager and the requests it has received since it last forwarded one. -/
structure FlushRequests where
  pending : Option FlushingCriteria := none
  received : List FlushingCriteria := []
  deriving DecidableEq

inductive FlushRequestsOp where
  | receive (cause : FlushCause) (i : Inst)
  | forward

namespace FlushRequests

def step (s : FlushRequests) : FlushRequestsOp → Except Stop FlushRequests
  | .receive cause i => do
    let flushData ← checked (FlushingCriteria.make cause i)
    return {
      pending := FlushManager.receiveFlush s.pending flushData
      received := s.received ++ [flushData] }
  | .forward => do
    let _ ← checked (FlushManager.forwardFlush s.pending)
    return {}

/-- Every request of the lower pipeline is for an instruction younger than those of all requests
of the upper one. -/
def LowerYounger (s : FlushRequests) : Prop :=
  ∀ l ∈ s.received, l.isLowerPipeFlush = true →
    ∀ u ∈ s.received, u.isLowerPipeFlush = false → u.uniqueId < l.uniqueId

instance (s : FlushRequests) : Decidable s.LowerYounger :=
  inferInstanceAs (Decidable (∀ l ∈ s.received, l.isLowerPipeFlush = true →
    ∀ u ∈ s.received, u.isLowerPipeFlush = false → u.uniqueId < l.uniqueId))

/-- The pending request has the smallest bound of those received, and is one of the upper
pipeline if these are older. -/
structure Oldest (s : FlushRequests) : Prop where
  none_iff : s.pending = none ↔ s.received = []
  mem : ∀ c, s.pending = some c → c ∈ s.received
  bound_le : ∀ c, s.pending = some c → ∀ r ∈ s.received, c.bound ≤ r.bound
  upper : s.LowerYounger → ∀ c, s.pending = some c →
    (∃ u ∈ s.received, u.isLowerPipeFlush = false) → c.isLowerPipeFlush = false

theorem oldest_init : Oldest {} where
  none_iff := ⟨fun _ => rfl, fun _ => rfl⟩
  mem c hc := by cases hc
  bound_le c hc := by cases hc
  upper _ c hc := by cases hc

variable {s s' : FlushRequests}

/-- The first request is kept. -/
theorem oldest_first (c : FlushingCriteria) : Oldest ⟨some c, [c]⟩ where
  none_iff := by simp
  mem c' hc' := by simpa using (Option.some.inj hc').symm
  bound_le c' hc' r hr := by
    rw [← Option.some.inj hc', List.mem_singleton.mp hr]
  upper _ c' hc' hu := by
    obtain ⟨u, hu, hupper⟩ := hu
    rw [← Option.some.inj hc', ← List.mem_singleton.mp hu]
    exact hupper

/-- The pending request or the new one is kept. -/
theorem receiveFlush_cases {old new c : FlushingCriteria}
    (h : FlushManager.receiveFlush (some old) new = some c) : c = old ∨ c = new := by
  unfold FlushManager.receiveFlush at h
  dsimp only at h
  split at h
  · exact .inl (Option.some.inj h).symm
  · exact .inr (Option.some.inj h).symm

/-- Requests of the upper pipeline stay ahead: the one that is kept is not a younger one of the
lower pipeline. -/
theorem Oldest.receive_upper {old new c : FlushingCriteria} (H : s.Oldest)
    (hold : s.pending = some old) (hc : FlushManager.receiveFlush (some old) new = some c)
    (hyoung : LowerYounger ⟨some c, s.received ++ [new]⟩) {u : FlushingCriteria}
    (hu : u ∈ s.received ++ [new]) (hup : u.isLowerPipeFlush = false) :
    c.isLowerPipeFlush = false := by
  have hmem := H.mem old hold
  have hbefore : s.LowerYounger := fun l hl hlow v hv hvup =>
    hyoung l (List.mem_append_left _ hl) hlow v (List.mem_append_left _ hv) hvup
  have hold_upper : u ∈ s.received → old.isLowerPipeFlush = false := fun hur =>
    H.upper hbefore old hold ⟨u, hur, hup⟩
  by_contra hlow
  have hlow : c.isLowerPipeFlush = true := by simpa using hlow
  rcases receiveFlush_cases hc with rfl | rfl
  · -- the pending request is of the lower pipeline, so the new one is the older one of the upper
    rcases List.mem_append.mp hu with hur | hun
    · exact Bool.false_ne_true ((hold_upper hur).symm.trans hlow)
    · obtain rfl := List.mem_singleton.mp hun
      have hlt := hyoung c (List.mem_append_left _ hmem) hlow u hu hup
      have hkept := FlushManager.receiveFlush_older hlt
      obtain rfl : u = c := Option.some.inj (hkept.symm.trans hc)
      exact Bool.false_ne_true (hup.symm.trans hlow)
  · -- the new request is of the lower pipeline, so the pending one is of the upper
    rcases List.mem_append.mp hu with hur | hun
    · have hlt := hyoung c (List.mem_append_right _ List.mem_cons_self) hlow old
        (List.mem_append_left _ hmem) (hold_upper hur)
      have hkept := FlushManager.receiveFlush_younger hlt
      obtain rfl : old = c := Option.some.inj (hkept.symm.trans hc)
      exact Bool.false_ne_true ((hold_upper hur).symm.trans hlow)
    · obtain rfl := List.mem_singleton.mp hun
      exact Bool.false_ne_true (hup.symm.trans hlow)

theorem Oldest.receive {old new c : FlushingCriteria} (H : s.Oldest) (hold : s.pending = some old)
    (hc : FlushManager.receiveFlush (some old) new = some c) :
    Oldest ⟨some c, s.received ++ [new]⟩ := by
  obtain ⟨c', hc', hbound⟩ := FlushManager.receiveFlush_bound old new
  obtain rfl : c' = c := Option.some.inj (hc'.symm.trans hc)
  constructor
  · simp
  · intro d hd
    obtain rfl := Option.some.inj hd
    rcases receiveFlush_cases hc with rfl | rfl
    · exact List.mem_append_left _ (H.mem _ hold)
    · exact List.mem_append_right _ List.mem_cons_self
  · intro d hd r hr
    obtain rfl := Option.some.inj hd
    rw [hbound]
    rcases List.mem_append.mp hr with hr | hr
    · exact (min_le_left _ _).trans (H.bound_le old hold r hr)
    · rw [List.mem_singleton.mp hr]
      exact min_le_right _ _
  · intro hyoung d hd hu
    obtain rfl := Option.some.inj hd
    obtain ⟨u, hu, hup⟩ := hu
    exact H.receive_upper hold hc hyoung hu hup

theorem Oldest.step {op : FlushRequestsOp} (H : s.Oldest) (hstep : step s op = .ok s') :
    s'.Oldest := by
  cases op with
  | receive cause i =>
    simp only [FlushRequests.step] at hstep
    obtain ⟨new, -, hstep⟩ := Run.bind_eq_ok.mp hstep
    obtain rfl := Except.ok.inj hstep
    cases hp : s.pending with
    | none =>
      rw [H.none_iff.mp hp]
      exact oldest_first new
    | some old =>
      obtain ⟨c, hc, -⟩ := FlushManager.receiveFlush_bound old new
      rw [hc]
      exact H.receive hp hc
  | forward =>
    simp only [FlushRequests.step] at hstep
    obtain ⟨sent, -, hstep⟩ := Run.bind_eq_ok.mp hstep
    obtain rfl := Except.ok.inj hstep
    exact oldest_init

theorem reachable_oldest (h : Run.Reachable step {} s) : s.Oldest :=
  h.invariant oldest_init fun _ _ _ H hstep => H.step hstep

/-- What is forwarded includes what any received request does, and only that. -/
theorem Oldest.includesId_iff {c : FlushingCriteria} (H : s.Oldest) (hc : s.pending = some c)
    (uid : ℕ) : c.includesId uid = true ↔ ∃ r ∈ s.received, r.includesId uid = true := by
  constructor
  · intro huid
    exact ⟨c, H.mem c hc, huid⟩
  · rintro ⟨r, hr, huid⟩
    rw [FlushingCriteria.includesId_iff] at huid ⊢
    exact (H.bound_le c hc r hr).trans huid

/-- Something is forwarded once a request was received. -/
theorem Oldest.forwards (H : s.Oldest) (hne : s.received ≠ []) :
    ∃ c, s.pending = some c ∧
      FlushManager.forwardFlush s.pending =
        .ok (if c.isLowerPipeFlush then .lower else .upper, c) := by
  cases hp : s.pending with
  | none => exact absurd (H.none_iff.mp hp) hne
  | some c => exact ⟨c, rfl, rfl⟩

/-- Simultaneous flush requests combine to the oldest one: whatever was received since the last
request was forwarded, what is forwarded includes exactly what some received request includes,
however the requests were ordered; and it is forwarded to the upper pipeline if a request for the
upper pipeline was received and those of the lower one are younger. -/
theorem flush_requests_combine (h : Run.Reachable step {} s) (hne : s.received ≠ []) :
    ∃ port c, FlushManager.forwardFlush s.pending = .ok (port, c) ∧
      (∀ uid, c.includesId uid = true ↔ ∃ r ∈ s.received, r.includesId uid = true) ∧
      (∀ t, Run.Reachable step {} t → t.received.Perm s.received →
        ∃ port' c', FlushManager.forwardFlush t.pending = .ok (port', c') ∧
          ∀ uid, c'.includesId uid = c.includesId uid) ∧
      (s.LowerYounger → (∃ u ∈ s.received, u.isLowerPipeFlush = false) → port = .upper) := by
  have H := reachable_oldest h
  obtain ⟨c, hc, hforward⟩ := H.forwards hne
  refine ⟨_, c, hforward, H.includesId_iff hc, ?_, ?_⟩
  · intro t ht hperm
    have T := reachable_oldest ht
    have hne' : t.received ≠ [] := fun hnil =>
      hne (List.perm_nil.mp (hnil ▸ hperm).symm)
    obtain ⟨c', hc', hforward'⟩ := T.forwards hne'
    refine ⟨_, c', hforward', fun uid => Bool.eq_iff_iff.mpr ?_⟩
    rw [T.includesId_iff hc', H.includesId_iff hc]
    exact exists_congr fun r => and_congr_left fun _ => hperm.mem_iff
  · intro hyoung hu
    rw [H.upper hyoung c hc hu]
    rfl

/-- A misfetch of the fourth instruction and mispredictions of the third and the second. -/
def simultaneous : List FlushRequestsOp :=
  [.receive .misfetch { uniqueId := 4 }, .receive .misprediction { uniqueId := 3 },
    .receive .misprediction { uniqueId := 2 }]

theorem flush_requests_combine_sample :
    ∃ s : FlushRequests, simultaneous.foldlM step {} = .ok s ∧
      ∃ port c, FlushManager.forwardFlush s.pending = .ok (port, c) ∧ c.uniqueId = 2 ∧
        port = .upper ∧
        ∀ uid, c.includesId uid = true ↔ ∃ r ∈ s.received, r.includesId uid = true := by
  have heval : simultaneous.foldlM step {} = .ok
      { pending := some ⟨.misprediction, false, 2⟩
        received := [⟨.misfetch, true, 4⟩, ⟨.misprediction, false, 3⟩,
          ⟨.misprediction, false, 2⟩] } := by decide +kernel
  obtain ⟨port, c, hforward, hset, -, hport⟩ :=
    flush_requests_combine ⟨simultaneous, heval⟩ (by decide)
  have hupper := hport (by decide) (by decide)
  have hc : (FlushPort.upper, ⟨.misprediction, false, 2⟩) = (port, c) :=
    Except.ok.inj hforward
  exact ⟨_, heval, port, c, hforward, by rw [← (Prod.mk.inj hc).2], hupper, hset⟩

end FlushRequests

end Olympia
