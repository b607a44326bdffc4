import Olympia.Mss.L2Merge
import Olympia.Mss.L2Progress

/-!
# What the L2 cache holds for a first-level cache

A first-level cache sees requests go in and answers come out.  `L2Traffic.heldFor` lists the
requests that are inside, whatever place of the unit they are in.  Every request keeps its address
on its way (`L2Traffic.Addressed`), so the addresses of what is inside change only by what goes in
and what comes out: `L2System.heldFor_step`.
-/

namespace Olympia

open L2Cache

namespace L2Traffic

variable {p : L2Params} {d d' : L2Traffic} {c : L1Cache} {r : MemoryRequest} {f : ℕ → ℕ}

/-- The requests in the middle of the unit. -/
def inside (d : L2Traffic) : List MemoryRequest :=
  d.pipelineReqQueue ++ d.pipeline.map Staged.val ++ d.missPendingBuffer

/-- The requests of a first-level cache that the unit holds. -/
def heldFor (d : L2Traffic) (c : L1Cache) : List MemoryRequest :=
  d.reqQueue c ++ d.inside.filter (fun r => r.unitOf = c.toUnit) ++ d.respQueue c

/-- The requests of the unit have the addresses that `f` has for their numbers. -/
structure Addressed (f : ℕ → ℕ) (d : L2Traffic) : Prop where
  reqs : ∀ c, ∀ r ∈ d.reqQueue c, r.phyAddr = f r.id
  inside : ∀ r ∈ d.inside, r.phyAddr = f r.id
  resps : ∀ c, ∀ r ∈ d.respQueue c, r.phyAddr = f r.id

/-! ## The numbers of what is held -/

/-- The numbers of the requests of a first-level cache that have arrived. -/
def acceptedFrom (d : L2Traffic) (c : L1Cache) : List ℕ :=
  (d.accepted.filter fun x => x.1 = c).map Prod.snd

/-- The numbers of the answers that have been sent to a first-level cache. -/
def sentTo (d : L2Traffic) (c : L1Cache) : List ℕ :=
  (d.sent.filter fun x => x.1 = c).map fun x => x.2.id

theorem L1Cache.toUnit_inj {c c' : L1Cache} : c.toUnit = c'.toUnit ↔ c = c' := by
  cases c <;> cases c' <;> simp [L1Cache.toUnit]

theorem count_ofCache (l : List MemoryRequest) (c c' : L1Cache) (n : ℕ) :
    (l.map (ofCache c')).count (c.toUnit, n) =
      if c' = c then (l.map MemoryRequest.id).count n else 0 := by
  split
  · rename_i hc
    subst hc
    rw [List.count, List.countP_map, List.count, List.countP_map]
    exact List.countP_congr fun r _ => by simp [ofCache]
  · rename_i hc
    refine List.count_eq_zero.mpr fun hmem => ?_
    obtain ⟨r, -, heq⟩ := List.mem_map.mp hmem
    exact hc (L1Cache.toUnit_inj.mp (Prod.mk.inj heq).1)

theorem count_tag (l : List MemoryRequest) (c : L1Cache) (n : ℕ) :
    (l.map tag).count (c.toUnit, n) =
      ((l.filter fun r => r.unitOf = c.toUnit).map MemoryRequest.id).count n := by
  rw [List.count, List.countP_map, List.count, List.countP_map, List.countP_filter]
  exact List.countP_congr fun r _ => by simp [tag, and_comm]

/-- What has arrived is held or has been answered. -/
theorem Placed.held_perm (H : Placed d) (c : L1Cache) :
    ((d.heldFor c).map MemoryRequest.id ++ d.sentTo c).Perm (d.acceptedFrom c) := by
  refine List.perm_iff_count.mpr fun n => ?_
  have hcount := H.count (c.toUnit, n)
  have hsent : (d.sent.map fun x => ofCache x.1 x.2).count (c.toUnit, n) =
      (d.sentTo c).count n := by
    rw [sentTo, List.count, List.countP_map, List.count, List.countP_map, List.countP_filter]
    exact List.countP_congr fun x _ => by simp [ofCache, L1Cache.toUnit_inj, and_comm]
  have haccepted : d.arrivals.count (c.toUnit, n) = (d.acceptedFrom c).count n := by
    rw [arrivals, acceptedFrom, List.count, List.countP_map, List.count, List.countP_map,
      List.countP_filter]
    exact List.countP_congr fun x _ => by simp [L1Cache.toUnit_inj, and_comm]
  have hpipe : d.pipeline.map (tag ∘ Staged.val) = (d.pipeline.map Staged.val).map tag := by
    rw [List.map_map]
  simp only [places, List.count_append, count_ofCache, hsent, haccepted, hpipe, count_tag]
    at hcount
  simp only [heldFor, inside, List.filter_append, List.map_append, List.count_append]
  cases c with
  | icache =>
    simp only [if_true, reduceCtorEq, if_false] at hcount
    omega
  | dcache =>
    simp only [if_true, reduceCtorEq, if_false] at hcount
    omega

theorem Placed.lt_of_accepted (H : Placed d) {n : ℕ} (hn : n ∈ d.acceptedFrom c) :
    n < d.accepted.length := by
  obtain ⟨x, hx, rfl⟩ := List.mem_map.mp hn
  have hnum : x.2 ∈ d.accepted.map Prod.snd := List.mem_map_of_mem (List.mem_filter.mp hx).1
  rw [H.numbers] at hnum
  exact List.mem_range.mp hnum

theorem Placed.lt_of_mem (H : Placed d) {x : ArchUnit × ℕ} (hx : x ∈ d.places) :
    x.2 < d.accepted.length := by
  have hx : x ∈ d.arrivals := (List.perm_iff_count.mpr H.count).subset hx
  obtain ⟨y, hy, rfl⟩ := List.mem_map.mp hx
  have hnum : y.2 ∈ d.accepted.map Prod.snd := List.mem_map_of_mem hy
  rw [H.numbers] at hnum
  exact List.mem_range.mp hnum

/-! ## Addresses -/

namespace Addressed

/-- A new request has a new number. -/
theorem update (A : Addressed f d) (H : Placed d) (a : ℕ) :
    Addressed (Function.update f d.accepted.length a) d := by
  have hold : ∀ (u : ArchUnit) (x : MemoryRequest), x.phyAddr = f x.id → (u, x.id) ∈ d.places →
      x.phyAddr = Function.update f d.accepted.length a x.id := by
    intro u x hx hmem
    rw [Function.update_of_ne (H.lt_of_mem hmem).ne, hx]
  refine ⟨fun c x hx => ?_, fun x hx => ?_, fun c x hx => ?_⟩
  · refine hold c.toUnit x (A.reqs c x hx) ?_
    have hmem : (c.toUnit, x.id) ∈ (d.reqQueue c).map (ofCache c) := List.mem_map_of_mem hx
    cases c <;> simp [places, hmem]
  · refine hold x.unitOf x (A.inside x hx) ?_
    have hmem : tag x ∈ d.inside.map tag := List.mem_map_of_mem hx
    simp only [L2Traffic.inside, List.map_append, List.map_map] at hmem
    simp only [places, List.mem_append] at hmem ⊢
    tauto
  · refine hold c.toUnit x (A.resps c x hx) ?_
    have hmem : (c.toUnit, x.id) ∈ (d.respQueue c).map (ofCache c) := List.mem_map_of_mem hx
    cases c <;> simp [places, hmem]

/-- A queue has what it had, or less, and a request that is added. -/
theorem queue_update {q : L1Cache → List MemoryRequest} {l : List MemoryRequest}
    (hq : ∀ c, ∀ r ∈ q c, r.phyAddr = f r.id) (hl : ∀ r ∈ l, r.phyAddr = f r.id) :
    ∀ c', ∀ r ∈ Function.update q c l c', r.phyAddr = f r.id := by
  intro c' r hr
  by_cases hcc : c' = c
  · subst hcc
    rw [Function.update_self] at hr
    exact hl r hr
  · rw [Function.update_of_ne hcc] at hr
    exact hq c' r hr

/-- Every request keeps its address. -/
theorem move (A : Addressed f d) (m : Move p d d')
    (hnew : ∀ c r, r.id = d.accepted.length → d'.reqQueue c = d.reqQueue c ++ [r] →
      r.phyAddr = f r.id) : Addressed f d' := by
  have hqueue : ∀ r ∈ d.pipelineReqQueue, r.phyAddr = f r.id := fun r hr =>
    A.inside r (List.mem_append_left _ (List.mem_append_left _ hr))
  have hpipe : ∀ e ∈ d.pipeline, e.val.phyAddr = f e.val.id := fun e he =>
    A.inside e.val (List.mem_append_left _ (List.mem_append_right _ (List.mem_map_of_mem he)))
  have hmiss : ∀ r ∈ d.missPendingBuffer, r.phyAddr = f r.id := fun r hr =>
    A.inside r (List.mem_append_right _ hr)
  have hinside : ∀ (l l'' : List MemoryRequest) (l' : List (Staged MemoryRequest)),
      (∀ r ∈ l, r.phyAddr = f r.id) → (∀ e ∈ l', e.val.phyAddr = f e.val.id) →
      (∀ r ∈ l'', r.phyAddr = f r.id) →
      ∀ r ∈ l ++ l'.map Staged.val ++ l'', r.phyAddr = f r.id := by
    intro l l'' l' hl hl' hl''
    simp only [List.forall_mem_append, List.forall_mem_map]
    exact ⟨⟨hl, hl'⟩, hl''⟩
  have hat : ∀ {n : ℕ} {r : MemoryRequest}, Pipeline.at? d.pipeline n = some r →
      r.phyAddr = f r.id := fun hr => hpipe _ (Pipeline.mem_of_at hr)
  have hremove : ∀ n, ∀ e ∈ Pipeline.remove d.pipeline n, e.val.phyAddr = f e.val.id :=
    fun n e he => hpipe e (Pipeline.mem_remove.mp he).1
  have hconcat : ∀ {l : List MemoryRequest} {r : MemoryRequest}, (∀ r ∈ l, r.phyAddr = f r.id) →
      r.phyAddr = f r.id → ∀ x ∈ l ++ [r], x.phyAddr = f x.id := by
    intro l r hl hr
    exact List.forall_mem_append.mpr ⟨hl, List.forall_mem_singleton.mpr hr⟩
  cases m with
  | stay => exact A
  | @accept c r hid howed =>
    refine ⟨queue_update A.reqs (hconcat (A.reqs c) ?_), A.inside, A.resps⟩
    exact hnew c r hid (by simp)
  | answer ht => exact ⟨A.reqs, A.inside, A.resps⟩
  | request ht => exact ⟨A.reqs, A.inside, A.resps⟩
  | @respond c r rest hr =>
    refine ⟨A.reqs, A.inside, queue_update A.resps fun x hx => A.resps c x ?_⟩
    rw [hr]
    exact List.mem_cons_of_mem _ hx
  | @lookup r hit hdue hr =>
    refine ⟨A.reqs, hinside _ _ _ hqueue (fun e he => ?_) hmiss, A.resps⟩
    rcases Pipeline.mem_write he with ⟨he, -⟩ | rfl
    · exact hpipe e he
    · exact hat (r := r) hr
  | @hit r c hr hstate hc =>
    exact ⟨A.reqs, hinside _ _ _ hqueue (hremove _) hmiss,
      queue_update A.resps (hconcat (A.resps c) (hat hr))⟩
  | @merge r hr hstate hother =>
    exact ⟨A.reqs, hinside _ _ _ hqueue (hremove _) (hconcat hmiss (hat (r := r) hr)), A.resps⟩
  | @miss r hr hstate hnone =>
    exact ⟨A.reqs, hinside _ _ _ hqueue (hremove _) (hconcat hmiss (hat (r := r) hr)), A.resps⟩
  | @reload t rest r ht hr hfree =>
    exact ⟨A.reqs, hinside _ _ _
      (hconcat hqueue (r := reloadReq r) (hmiss r (List.mem_of_find?_eq_some hr))) hpipe
      (fun x hx => hmiss x (List.mem_of_mem_eraseP hx)), A.resps⟩
  | @take c r rest hr hfree =>
    have hfront : r.phyAddr = f r.id := A.reqs c r (by rw [hr]; exact List.mem_cons_self)
    refine ⟨queue_update A.reqs fun x hx => A.reqs c x ?_, hinside _ _ _
      (hconcat hqueue (r := { r with src := c.toUnit, dest := c.toUnit }) hfront) hpipe hmiss,
      A.resps⟩
    rw [hr]
    exact List.mem_cons_of_mem _ hx
  | @issue r rest hr hroom hzero =>
    refine ⟨A.reqs, hinside _ _ _ (fun x hx => hqueue x ?_) (fun e he => ?_) hmiss, A.resps⟩
    · rw [hr]
      exact List.mem_cons_of_mem _ hx
    · rcases List.mem_append.mp he with he | he
      · exact hpipe e he
      · rw [List.mem_singleton.mp he]
        exact hqueue r (by rw [hr]; exact List.mem_cons_self)
  | advance hlookup hresult =>
    refine ⟨A.reqs, hinside _ _ _ hqueue (fun e he => ?_) hmiss, A.resps⟩
    obtain ⟨x, hx, rfl⟩ := Pipeline.mem_advance.mp he
    exact hpipe x hx

theorem heldFor (A : Addressed f d) (c : L1Cache) :
    (d.heldFor c).map MemoryRequest.phyAddr = ((d.heldFor c).map MemoryRequest.id).map f := by
  rw [List.map_map]
  refine List.map_congr_left fun r hr => ?_
  rcases List.mem_append.mp hr with hr | hr
  · rcases List.mem_append.mp hr with hr | hr
    · exact A.reqs c r hr
    · exact A.inside r (List.mem_filter.mp hr).1
  · exact A.resps c r hr

end Addressed

end L2Traffic

/-- The address that a step asks for, for a first-level cache. -/
def L2Op.asks (c : L1Cache) : L2Op → List ℕ
  | .req c' r => if c' = c then [r.phyAddr] else []
  | _ => []

namespace L2System

variable {p : L2Params} {s s' : L2System p} {op : L2Op}

/-- The answer that a step sends to a first-level cache. -/
def answers (s : L2System p) (c : L1Cache) : L2Op → List MemoryRequest
  | .handleResp c' => if c' = c then (s.l2.respQueue c).head?.toList else []
  | _ => []

/-- The credits that a step returns to a first-level cache. -/
def creditsTo (p : L2Params) (s : L2System p) (c : L1Cache) : L2Op → List ℕ
  | .createReq =>
    match createReq p s.l2 with
    | .ok (_, some c') => if c' = c then [1] else []
    | _ => []
  | _ => []

theorem addressed_init (f : ℕ → ℕ) : ({} : L2System p).traffic.Addressed f := by
  refine ⟨fun c r hr => ?_, fun r hr => ?_, fun c r hr => ?_⟩
  · cases hr
  · cases hr
  · cases hr

theorem reqQueue_req {c c' : L1Cache} {r : MemoryRequest} (h : s.step p (.req c r) = .ok s') :
    s'.traffic.reqQueue c' = Function.update s.l2.reqQueue c
      (s.l2.reqQueue c ++ [{ r with id := s.accepted.length }]) c' := by
  obtain ⟨-, -, h⟩ := step_eq_ok.mp h
  obtain ⟨l2, hl2, h⟩ := Run.bind_eq_ok.mp h
  obtain rfl := Except.ok.inj h
  obtain ⟨l2', happ, hl2⟩ := Run.bind_eq_ok.mp hl2
  obtain rfl := Except.ok.inj hl2
  obtain ⟨q, hq, happ⟩ := Run.bind_eq_ok.mp happ
  obtain rfl := Except.ok.inj happ
  obtain ⟨-, rfl⟩ := appendQueue_eq_ok.mp hq
  rfl

/-- What arrives and what is sent in a step. -/
theorem ports_step (h : s.step p op = .ok s') (c : L1Cache) :
    s'.traffic.acceptedFrom c =
        s.traffic.acceptedFrom c ++ (op.asks c).map (fun _ => s.accepted.length) ∧
      s'.traffic.sentTo c = s.traffic.sentTo c ++ (s.answers c op).map MemoryRequest.id := by
  obtain ⟨-, -, h⟩ := step_eq_ok.mp h
  cases op with
  | req c' r =>
    obtain ⟨l2, -, h⟩ := Run.bind_eq_ok.mp h
    obtain rfl := Except.ok.inj h
    by_cases hc : c' = c <;>
      simp [traffic, L2Traffic.acceptedFrom, L2Traffic.sentTo, L2Op.asks, answers, hc]
  | handleResp c' =>
    obtain ⟨⟨l2, r⟩, hl2, h⟩ := Run.bind_eq_ok.mp h
    obtain rfl := Except.ok.inj h
    unfold handleResp at hl2
    rcases hq : s.l2.respQueue c' with _ | ⟨r', rest⟩
    · rw [hq] at hl2
      cases hl2
    · rw [hq] at hl2
      obtain ⟨rfl, rfl⟩ := Prod.mk.inj (Except.ok.inj hl2)
      by_cases hc : c' = c
      · subst hc
        simp [traffic, L2Traffic.acceptedFrom, L2Traffic.sentTo, L2Op.asks, answers, hq]
      · simp [traffic, L2Traffic.acceptedFrom, L2Traffic.sentTo, L2Op.asks, answers, hc]
  | biuResp i =>
    rcases ht : s.atBiu[i]? with _ | t
    · simp only [handle, ht] at h
      obtain rfl := Except.ok.inj h
      simp [L2Op.asks, answers]
    · simp only [handle, ht] at h
      obtain ⟨l2, -, h⟩ := Run.bind_eq_ok.mp h
      obtain rfl := Except.ok.inj h
      simp [traffic, L2Traffic.acceptedFrom, L2Traffic.sentTo, L2Op.asks, answers]
  | lookup | result | createReq | issueReq =>
    obtain ⟨l2, -, h⟩ := Run.bind_eq_ok.mp h
    obtain rfl := Except.ok.inj h
    simp [traffic, L2Traffic.acceptedFrom, L2Traffic.sentTo, L2Op.asks, answers]
  | _ =>
    obtain rfl := Except.ok.inj h
    simp [traffic, L2Traffic.acceptedFrom, L2Traffic.sentTo, L2Op.asks, answers]

/-- What is sent is a hit. -/
theorem Sound.answers_hit (S : Sound s) {c : L1Cache} {r : MemoryRequest}
    (hr : r ∈ s.answers c op) : r.cacheState = .hit := by
  unfold answers at hr
  split at hr
  · split at hr
    · exact (S.routed.answered c r (List.mem_of_mem_head? (Option.mem_toList.mp hr))).1
    · cases hr
  · cases hr

theorem returned_step (h : s.step p op = .ok s') (c : L1Cache) :
    s'.returned c = s.returned c + (s.creditsTo p c op).sum := by
  by_cases hop : op = .createReq
  · subst hop
    obtain ⟨-, -, h⟩ := step_eq_ok.mp h
    obtain ⟨⟨l2, credit⟩, hl2, h⟩ := Run.bind_eq_ok.mp h
    obtain rfl := Except.ok.inj h
    cases credit with
    | none => simp [creditsTo, hl2]
    | some c' =>
      by_cases hc : c' = c
      · subst hc
        simp [creditsTo, hl2]
      · simp [creditsTo, hl2, hc, Function.update_of_ne (Ne.symm hc)]
  · rw [returned_eq hop h]
    cases op with
    | createReq => exact absurd rfl hop
    | _ => rfl

/-- An entry of an input queue is taken by a request, and freed with a credit. -/
theorem reqQueue_step (S : Sound s) (h : s.step p op = .ok s') (c : L1Cache) :
    (s'.l2.reqQueue c).length + (s.creditsTo p c op).sum =
      (s.l2.reqQueue c).length + (op.asks c).length := by
  have hlen : ∀ s : L2System p, s.traffic.accepted.countP (fun x => x.1 = c) =
      (s.traffic.acceptedFrom c).length := by
    intro s
    rw [L2Traffic.acceptedFrom, List.length_map, List.countP_eq_length_filter]
  have hold : (s.traffic.acceptedFrom c).length = s.returned c + (s.l2.reqQueue c).length :=
    (hlen s).symm.trans (S.placed.credits c)
  have hnew : (s'.traffic.acceptedFrom c).length = s'.returned c + (s'.l2.reqQueue c).length :=
    (hlen s').symm.trans ((S.step h).placed.credits c)
  have hreturned := returned_step h c
  rw [(ports_step h c).1, List.length_append, List.length_map] at hnew
  omega

/-- The addresses of what is held change by what arrives and what is sent. -/
theorem heldFor_step {f : ℕ → ℕ} (S : Sound s) (A : s.traffic.Addressed f)
    (h : s.step p op = .ok s') :
    ∃ f', s'.traffic.Addressed f' ∧ ∀ c,
      ((s'.traffic.heldFor c).map MemoryRequest.phyAddr ++
          (s.answers c op).map MemoryRequest.phyAddr).Perm
        ((s.traffic.heldFor c).map MemoryRequest.phyAddr ++ op.asks c) := by
  have S' := S.step h
  have hmove := step_move S.phased h
  obtain ⟨f', A', A'', hasks⟩ : ∃ f', s.traffic.Addressed f' ∧ s'.traffic.Addressed f' ∧
      ∀ c, ((op.asks c).map fun _ => s.accepted.length).map f' = op.asks c := by
    by_cases hreq : ∃ c r, op = .req c r
    · obtain ⟨c, r, rfl⟩ := hreq
      have A' := A.update S.placed r.phyAddr
      refine ⟨_, A', A'.move hmove fun c' x hid hx => ?_, fun c' => ?_⟩
      · obtain rfl : c' = c := by
          by_contra hne
          have hsame := (reqQueue_req h).trans (Function.update_of_ne hne _ _)
          have hlen := congrArg List.length (hx.symm.trans hsame)
          simp [traffic] at hlen
        have hsame := (reqQueue_req h).trans (Function.update_self _ _ _)
        have hx := List.singleton_inj.mp (List.append_cancel_left (hx.symm.trans hsame))
        rw [hid, Function.update_self, hx]
      · by_cases hc : c = c' <;> simp [L2Op.asks, hc, traffic]
    · have hnone : ∀ c, op.asks c = [] := by
        intro c
        cases op with
        | req c r => exact absurd ⟨c, r, rfl⟩ hreq
        | _ => rfl
      refine ⟨f, A, A.move hmove fun c x hid hx => ?_, fun c => by rw [hnone]; rfl⟩
      -- nothing has arrived, so `x` is not new
      have hmem : x.id ∈ s'.traffic.acceptedFrom c := by
        refine (S'.placed.held_perm c).subset (List.mem_append_left _ (List.mem_map_of_mem ?_))
        refine List.mem_append_left _ (List.mem_append_left _ ?_)
        rw [hx]
        exact List.mem_append_right _ (List.mem_singleton_self x)
      rw [(ports_step h c).1, hnone c, List.map_nil, List.append_nil, hid] at hmem
      exact absurd (S.placed.lt_of_accepted hmem) (lt_irrefl _)
  refine ⟨f', A'', fun c => ?_⟩
  obtain ⟨haccepted, hsent⟩ := ports_step h c
  have hids : ((s'.traffic.heldFor c).map MemoryRequest.id ++
      (s.answers c op).map MemoryRequest.id).Perm
      ((s.traffic.heldFor c).map MemoryRequest.id ++
        (op.asks c).map fun _ => s.accepted.length) := by
    have hold := S.placed.held_perm c
    have hnew := S'.placed.held_perm c
    rw [haccepted, hsent] at hnew
    refine List.perm_iff_count.mpr fun n => ?_
    have hold := hold.count_eq n
    have hnew := hnew.count_eq n
    simp only [List.count_append] at hold hnew ⊢
    omega
  have hanswers : (s.answers c op).map MemoryRequest.phyAddr =
      ((s.answers c op).map MemoryRequest.id).map f' := by
    rw [List.map_map]
    refine List.map_congr_left fun r hr => A'.resps c r ?_
    unfold answers at hr
    split at hr
    · split at hr
      · exact List.mem_of_mem_head? (Option.mem_toList.mp hr)
      · cases hr
    · cases hr
  have hmap := hids.map f'
  rw [List.map_append, List.map_append, hasks c] at hmap
  rw [A'.heldFor, A''.heldFor, hanswers]
  exact hmap

end L2System

end Olympia
