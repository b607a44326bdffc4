import Mathlib.Data.List.Count
import Olympia.Mss.L2Room

/-!
# Every request to the L2 cache is answered once

A request is in one place of the unit at any time: in the queue of its requester, in
`pipeline_req_queue_`, in the pipeline, in the miss buffer, or in the queue of answers to its
requester, until it is sent.  `L2Traffic.places` lists the places, each request with the unit it
came from, and in every state it is the list of the requests that have arrived, in another order.

The unit a request came from is not stored.  `src_` is that unit until the BIU has answered, and
then `dest_` is; `unitOf` reads it off the two, and `L2Traffic.Routed` says what they are in each
place.
-/

namespace Olympia

open L2Cache

/-- The unit a request came from, once the request is in `pipeline_req_queue_`. -/
def MemoryRequest.unitOf (r : MemoryRequest) : ArchUnit := if r.src = .biu then r.dest else r.src

/-- The request has not been looked up: it is new, or a reload. -/
def MemoryRequest.Waiting (r : MemoryRequest) : Prop :=
  ∃ c : L1Cache, r.dest = c.toUnit ∧
    (r.src = c.toUnit ∨ (r.src = .biu ∧ r.cacheState = .reload))

/-- The request has been looked up, and a reload has been made a hit. -/
def MemoryRequest.Looked (r : MemoryRequest) : Prop :=
  ∃ c : L1Cache, r.dest = c.toUnit ∧ (r.src = c.toUnit ∨ (r.src = .biu ∧ r.cacheState = .hit))

namespace MemoryRequest

variable {r : MemoryRequest}

theorem unitOf_of_src {c : L1Cache} (h : r.src = c.toUnit) : r.unitOf = c.toUnit := by
  rw [unitOf, h, if_neg c.toUnit_ne_biu]

theorem Waiting.looked (h : r.Waiting) (hit : Bool) : (lookedUp r hit).Looked := by
  obtain ⟨c, hdest, hsrc | ⟨hsrc, hstate⟩⟩ := h
  · exact ⟨c, hdest, .inl hsrc⟩
  · exact ⟨c, hdest, .inr ⟨hsrc, by simp [lookedUp, hstate]⟩⟩

/-- A looked up request goes to the unit it came from. -/
theorem Looked.unitOf_eq (h : r.Looked) : r.unitOf = r.dest := by
  obtain ⟨c, hdest, hsrc | ⟨hsrc, -⟩⟩ := h
  · rw [unitOf_of_src hsrc, hdest]
  · rw [unitOf, if_pos hsrc]

/-- A miss is a new request. -/
theorem Looked.src_of_miss (h : r.Looked) (hmiss : r.cacheState ≠ .hit) :
    ∃ c : L1Cache, r.src = c.toUnit := by
  obtain ⟨c, -, hsrc | ⟨-, hhit⟩⟩ := h
  · exact ⟨c, hsrc⟩
  · exact absurd hhit hmiss

end MemoryRequest

theorem L1Cache.ofUnit_eq_some {u : ArchUnit} {c : L1Cache} (h : L1Cache.ofUnit u = some c) :
    u = c.toUnit := by
  cases u with
  | icache =>
    obtain rfl := Option.some.inj h
    rfl
  | dcache =>
    obtain rfl := Option.some.inj h
    rfl
  | _ => cases h

/-- What is found first is what is erased. -/
theorem perm_cons_eraseP {α : Type} {q : α → Bool} {l : List α} {a : α}
    (h : l.find? q = some a) : l.Perm (a :: l.eraseP q) := by
  induction l with
  | nil => cases h
  | cons x l ih =>
    by_cases hx : q x = true
    · rw [List.find?_cons_of_pos hx] at h
      obtain rfl := Option.some.inj h
      rw [List.eraseP_cons_of_pos hx]
    · rw [List.find?_cons_of_neg hx] at h
      rw [List.eraseP_cons_of_neg hx]
      exact ((ih h).cons x).trans (.swap _ _ _)

namespace L2Traffic

variable {p : L2Params} {d d' : L2Traffic}

/-! ## Source and destination -/

/-- What the requests of each place know about where they came from. -/
structure Routed (p : L2Params) (d : L2Traffic) : Prop where
  queued : ∀ r ∈ d.pipelineReqQueue, r.Waiting
  waiting : ∀ e ∈ d.pipeline, e.age < cacheLookupStage p ∨
    (e.age = cacheLookupStage p ∧ d.lookupDue = true) → e.val.Waiting
  looked : ∀ e ∈ d.pipeline, cacheLookupStage p < e.age ∨
    (e.age = cacheLookupStage p ∧ d.lookupDue = false) → e.val.Looked
  pending : ∀ r ∈ d.missPendingBuffer, ∃ c : L1Cache, r.src = c.toUnit
  answered : ∀ c, ∀ r ∈ d.respQueue c, r.cacheState = .hit ∧ r.unitOf = c.toUnit
  sent : ∀ x ∈ d.sent, x.2.cacheState = .hit

namespace Routed

/-- The request at the last stage has been looked up. -/
theorem looked_of_at (H : Routed p d) {r : MemoryRequest}
    (hr : Pipeline.at? d.pipeline (hitMissHandling p) = some r) : r.Looked := by
  refine H.looked ⟨_, r⟩ (Pipeline.mem_of_at hr) (.inl ?_)
  have := p.l2cacheLatency_ge
  simp only [cacheLookupStage, hitMissHandling]
  omega

theorem handled (H : Routed p d) : Routed p (d.handled p) :=
  { H with
    waiting := fun e he => H.waiting e (Pipeline.mem_remove.mp he).1
    looked := fun e he => H.looked e (Pipeline.mem_remove.mp he).1 }

theorem step (H : Routed p d) (m : Move p d d') : Routed p d' := by
  cases m with
  | stay => exact H
  | accept hid howed => exact { H with }
  | answer ht => exact { H with }
  | request ht => exact { H with }
  | @respond c r rest hr =>
    refine { H with answered := ?_, sent := ?_ }
    · intro c' x hx
      dsimp only at hx
      by_cases hcc : c' = c
      · subst hcc
        rw [Function.update_self] at hx
        exact H.answered c' x (by rw [hr]; exact List.mem_cons_of_mem _ hx)
      · rw [Function.update_of_ne hcc] at hx
        exact H.answered c' x hx
    · intro x hx
      rcases List.mem_append.mp hx with hx | hx
      · exact H.sent x hx
      · obtain rfl := List.mem_singleton.mp hx
        exact (H.answered c r (by rw [hr]; exact List.mem_cons_self)).1
  | @lookup r hit hdue hr =>
    have hold := H.waiting ⟨_, r⟩ (Pipeline.mem_of_at hr) (.inr ⟨rfl, hdue⟩)
    refine { H with waiting := ?_, looked := ?_ }
    · intro e he hage
      rcases Pipeline.mem_write he with ⟨he, hne⟩ | rfl
      · exact H.waiting e he (.inl (by rcases hage with h | ⟨h, -⟩ <;> omega))
      · rcases hage with h | ⟨-, h⟩
        · exact absurd h (lt_irrefl _)
        · cases h
    · intro e he hage
      rcases Pipeline.mem_write he with ⟨he, hne⟩ | rfl
      · exact H.looked e he (.inl (by rcases hage with h | ⟨h, -⟩ <;> omega))
      · exact MemoryRequest.Waiting.looked hold hit
  | @hit r c hr hstate hc =>
    refine { H.handled with answered := ?_ }
    intro c' x hx
    dsimp only at hx
    by_cases hcc : c' = c
    · subst hcc
      rw [Function.update_self] at hx
      rcases List.mem_append.mp hx with hx | hx
      · exact H.answered c' x hx
      · obtain rfl := List.mem_singleton.mp hx
        exact ⟨hstate, (H.looked_of_at hr).unitOf_eq.trans (L1Cache.ofUnit_eq_some hc)⟩
    · rw [Function.update_of_ne hcc] at hx
      exact H.answered c' x hx
  | @merge r hr hstate hother =>
    refine { H.handled with pending := ?_ }
    intro x hx
    rcases List.mem_append.mp hx with hx | hx
    · exact H.pending x hx
    · obtain rfl := List.mem_singleton.mp hx
      exact (H.looked_of_at hr).src_of_miss hstate
  | @miss r hr hstate hnone =>
    refine { H.handled with pending := ?_ }
    intro x hx
    rcases List.mem_append.mp hx with hx | hx
    · exact H.pending x hx
    · obtain rfl := List.mem_singleton.mp hx
      exact (H.looked_of_at hr).src_of_miss hstate
  | @reload t rest r ht hr hfree =>
    refine { H with queued := ?_, pending := ?_ }
    · intro x hx
      rcases List.mem_append.mp hx with hx | hx
      · exact H.queued x hx
      · obtain rfl := List.mem_singleton.mp hx
        obtain ⟨c, hc⟩ := H.pending r (List.mem_of_find?_eq_some hr)
        exact ⟨c, hc, .inr ⟨rfl, rfl⟩⟩
    · intro x hx
      exact H.pending x (List.mem_of_mem_eraseP hx)
  | @take c r rest hr hfree =>
    refine { H with queued := ?_ }
    intro x hx
    rcases List.mem_append.mp hx with hx | hx
    · exact H.queued x hx
    · obtain rfl := List.mem_singleton.mp hx
      exact ⟨c, rfl, .inl rfl⟩
  | @issue r rest hr hroom hzero =>
    have hstage : 0 < cacheLookupStage p := by
      have := p.l2cacheLatency_ge
      unfold cacheLookupStage
      omega
    refine { H with queued := ?_, waiting := ?_, looked := ?_ }
    · intro x hx
      exact H.queued x (by rw [hr]; exact List.mem_cons_of_mem _ hx)
    · intro e he hage
      rcases List.mem_append.mp he with he | he
      · exact H.waiting e he hage
      · obtain rfl := List.mem_singleton.mp he
        exact H.queued r (by rw [hr]; exact List.mem_cons_self)
    · intro e he hage
      rcases List.mem_append.mp he with he | he
      · exact H.looked e he hage
      · obtain rfl := List.mem_singleton.mp he
        rcases hage with h | ⟨h, -⟩
        · exact absurd h (Nat.not_lt_zero _)
        · exact absurd h hstage.ne
  | advance hlookup hresult =>
    refine { H with waiting := ?_, looked := ?_ }
    · intro e he hage
      obtain ⟨x, hx, rfl⟩ := Pipeline.mem_advance.mp he
      refine H.waiting x hx (.inl ?_)
      rcases hage with h | ⟨h, -⟩
      · exact Nat.lt_of_succ_lt h
      · exact Nat.lt_of_succ_le h.le
    · intro e he hage
      obtain ⟨x, hx, rfl⟩ := Pipeline.mem_advance.mp he
      refine H.looked x hx ?_
      rcases hage with h | ⟨h, hdue⟩
      · rcases Nat.lt_succ_iff_lt_or_eq.mp h with h | h
        · exact .inl h
        · exact .inr ⟨h.symm, hlookup⟩
      · -- an entry that arrives at the stage makes its handler due
        have hvalid := Pipeline.isValid_iff.mpr ⟨_, he, h⟩
        exact absurd (hvalid.symm.trans hdue) (by simp)

end Routed

/-! ## Places -/

/-- A request of a queue that belongs to a requester. -/
def ofCache (c : L1Cache) (r : MemoryRequest) : ArchUnit × ℕ := (c.toUnit, r.id)

/-- A request in the middle of the unit. -/
def tag (r : MemoryRequest) : ArchUnit × ℕ := (r.unitOf, r.id)

/-- The places of the requests. -/
def places (d : L2Traffic) : List (ArchUnit × ℕ) :=
  (d.reqQueue .icache).map (ofCache .icache) ++ (d.reqQueue .dcache).map (ofCache .dcache) ++
    d.pipelineReqQueue.map tag ++ d.pipeline.map (tag ∘ Staged.val) ++
    d.missPendingBuffer.map tag ++
    (d.respQueue .icache).map (ofCache .icache) ++ (d.respQueue .dcache).map (ofCache .dcache) ++
    d.sent.map fun x => ofCache x.1 x.2

/-- The requests that have arrived. -/
def arrivals (d : L2Traffic) : List (ArchUnit × ℕ) := d.accepted.map fun x => (x.1.toUnit, x.2)

/-- Every request that has arrived is in one place, and a credit has been returned for every
request that has left its queue. -/
structure Placed (d : L2Traffic) : Prop where
  count : ∀ x, d.places.count x = d.arrivals.count x
  numbers : d.accepted.map Prod.snd = List.range d.accepted.length
  credits : ∀ c, d.accepted.countP (fun x => x.1 = c) = d.returned c + (d.reqQueue c).length

theorem tag_of_src {r : MemoryRequest} {c : L1Cache} (h : r.src = c.toUnit) :
    tag r = ofCache c r := by
  rw [tag, MemoryRequest.unitOf_of_src h]
  rfl

/-- A pending request keeps its unit when it goes through the pipeline again. -/
theorem tag_reloadReq {r : MemoryRequest} {c : L1Cache} (h : r.src = c.toUnit) :
    tag (reloadReq r) = tag r := by
  rw [tag_of_src h]
  simp only [tag, ofCache, MemoryRequest.unitOf, reloadReq, if_true, h]

/-- The request at a stage, and the others. -/
theorem count_pipeline (R : Room p d) {r : MemoryRequest} {n : ℕ}
    (hr : Pipeline.at? d.pipeline n = some r) (x : ArchUnit × ℕ) :
    (d.pipeline.map (tag ∘ Staged.val)).count x =
      [tag r].count x + ((Pipeline.remove d.pipeline n).map (tag ∘ Staged.val)).count x := by
  have hperm := ((Pipeline.perm_of_at R.sparse hr).map (tag ∘ Staged.val)).count_eq x
  rw [hperm, List.map_cons, ← List.singleton_append, List.count_append]
  rfl

theorem Placed.step (R : Room p d) (T : Routed p d) (H : Placed d) (m : Move p d d') :
    Placed d' := by
  cases m with
  | stay => exact H
  | @accept c r hid howed =>
    refine ⟨fun x => ?_, ?_, fun c' => ?_⟩
    · have hold := H.count x
      simp only [places, arrivals, List.count_append, List.map_append, List.map_cons,
        List.map_nil] at hold ⊢
      cases c with
      | icache =>
        simp [Function.update, ofCache, List.count_append] at hold ⊢
        omega
      | dcache =>
        simp [Function.update, ofCache, List.count_append] at hold ⊢
        omega
    · simp [H.numbers, hid, List.range_succ]
    · by_cases hcc : c' = c
      · subst hcc
        simp [H.credits, Nat.add_assoc]
      · simp [Function.update_of_ne hcc, H.credits, Ne.symm hcc]
  | answer ht => exact ⟨H.count, H.numbers, H.credits⟩
  | request ht => exact ⟨H.count, H.numbers, H.credits⟩
  | @respond c r rest hr =>
    refine ⟨fun x => ?_, H.numbers, H.credits⟩
    have hold := H.count x
    simp only [places, arrivals, List.count_append, List.map_append, List.map_cons,
      List.map_nil] at hold ⊢
    cases c with
    | icache =>
      simp [Function.update, hr, List.count_cons] at hold ⊢
      omega
    | dcache =>
      simp [Function.update, hr, List.count_cons] at hold ⊢
      omega
  | @lookup r hit hdue hr =>
    refine ⟨fun x => ?_, H.numbers, H.credits⟩
    have hold := H.count x
    have htag : tag (lookedUp r hit) = tag r := rfl
    simp only [places, Pipeline.map_write R.sparse hr htag] at hold ⊢
    exact hold
  | @hit r c hr hstate hc =>
    refine ⟨fun x => ?_, H.numbers, H.credits⟩
    have hold := H.count x
    have hpipe := count_pipeline R hr x
    have htag : tag r = ofCache c r := by
      rw [tag, (T.looked_of_at hr).unitOf_eq, L1Cache.ofUnit_eq_some hc]
      rfl
    simp only [places, arrivals, handled, List.count_append, htag] at hold hpipe ⊢
    cases c with
    | icache =>
      simp [Function.update, List.count_append] at hold hpipe ⊢
      omega
    | dcache =>
      simp [Function.update, List.count_append] at hold hpipe ⊢
      omega
  | @merge r hr hstate hother =>
    refine ⟨fun x => ?_, H.numbers, H.credits⟩
    obtain ⟨c, hsrc⟩ := (T.looked_of_at hr).src_of_miss hstate
    have hold := H.count x
    have hpipe := count_pipeline R hr x
    have htag : tag { r with dest := .biu } = tag r := by
      rw [tag_of_src hsrc, tag_of_src (r := { r with dest := .biu }) hsrc]
      rfl
    simp only [places, arrivals, handled, List.count_append, List.map_append, List.map_cons,
      List.map_nil, htag] at hold ⊢
    omega
  | @miss r hr hstate hnone =>
    refine ⟨fun x => ?_, H.numbers, H.credits⟩
    obtain ⟨c, hsrc⟩ := (T.looked_of_at hr).src_of_miss hstate
    have hold := H.count x
    have hpipe := count_pipeline R hr x
    have htag : tag { r with dest := .biu } = tag r := by
      rw [tag_of_src hsrc, tag_of_src (r := { r with dest := .biu }) hsrc]
      rfl
    simp only [places, arrivals, handled, List.count_append, List.map_append, List.map_cons,
      List.map_nil, htag] at hold ⊢
    omega
  | @reload t rest r ht hr hfree =>
    refine ⟨fun x => ?_, H.numbers, H.credits⟩
    obtain ⟨c, hsrc⟩ := T.pending r (List.mem_of_find?_eq_some hr)
    have hold := H.count x
    have hmiss := ((perm_cons_eraseP hr).map tag).count_eq x
    rw [List.map_cons, ← List.singleton_append, List.count_append] at hmiss
    simp only [places, arrivals, List.count_append, List.map_append, List.map_cons,
      List.map_nil, tag_reloadReq hsrc] at hold ⊢
    omega
  | @take c r rest hr hfree =>
    refine ⟨fun x => ?_, H.numbers, fun c' => ?_⟩
    · have hold := H.count x
      have htag : tag { r with src := c.toUnit, dest := c.toUnit } = ofCache c r :=
        tag_of_src (r := { r with src := c.toUnit, dest := c.toUnit }) rfl
      simp only [places, arrivals, List.count_append, List.map_append, List.map_cons,
        List.map_nil, htag] at hold ⊢
      cases c with
      | icache =>
        simp [Function.update, hr, List.count_cons] at hold ⊢
        omega
      | dcache =>
        simp [Function.update, hr, List.count_cons] at hold ⊢
        omega
    · have hold := H.credits c'
      by_cases hcc : c' = c
      · subst hcc
        rw [hr, List.length_cons] at hold
        simp only [Function.update_self]
        omega
      · simpa [Function.update_of_ne hcc] using hold
  | @issue r rest hr hroom hzero =>
    refine ⟨fun x => ?_, H.numbers, H.credits⟩
    have hold := H.count x
    simp only [places, arrivals, hr, Pipeline.append, List.count_append, List.map_append,
      List.map_cons, List.map_nil, Function.comp_apply, List.count_cons, List.count_nil] at hold ⊢
    omega
  | advance hlookup hresult =>
    refine ⟨fun x => ?_, H.numbers, H.credits⟩
    have hold := H.count x
    have hpipe : (Pipeline.advance d.pipeline).map (tag ∘ Staged.val) =
        d.pipeline.map (tag ∘ Staged.val) := by
      rw [← List.map_map, Pipeline.vals_advance, List.map_map]
    simp only [places, hpipe] at hold ⊢
    exact hold

end L2Traffic

namespace L2System

variable {p : L2Params} {s s' : L2System p} {op : L2Op}

/-- The invariants of the L2 cache. -/
structure Sound (s : L2System p) : Prop where
  phased : Phased s
  awake : Awake s
  fresh : Fresh s
  room : s.traffic.Room p
  routed : s.traffic.Routed p
  placed : s.traffic.Placed

theorem Sound.init : Sound ({} : L2System p) where
  phased h := by cases h
  awake := .init
  fresh := .init
  room := by
    refine ⟨.nil, ?_, ?_, ?_, ?_, rfl, Nat.zero_le _, Nat.zero_le _, Nat.zero_le _⟩ <;>
      simp [traffic]
  routed := by
    refine ⟨?_, ?_, ?_, ?_, ?_, ?_⟩ <;> simp [traffic]
  placed := ⟨fun _ => rfl, rfl, fun _ => rfl⟩

theorem Sound.step (H : Sound s) (h : s.step p op = .ok s') : Sound s' :=
  have m := step_move H.phased h
  ⟨H.phased.step h, H.awake.step H.phased H.fresh h, H.fresh.step H.awake h, H.room.step m,
    H.routed.step m, H.placed.step H.room H.routed m⟩

theorem Sound.of_reachable (h : Run.Reachable (L2System.step p) {} s) : Sound s :=
  h.invariant .init fun _ _ _ H hstep => H.step hstep

/-! ## Assertions -/

theorem arbitrate_ok {l2 : L2State p} (hin : inputs l2) :
    ∃ r, arbitrateL2CacheAccessReqs p l2 = .ok r := by
  have hassert : spartaAssert (l2.reqQueue .icache ≠ [] ∨ l2.reqQueue .dcache ≠ [] ∨
      l2.biuRespQueue ≠ []) .requestQueuesEmpty = .ok () := by
    refine spartaAssert_eq_ok.mpr (decide_eq_true ?_)
    rcases hin with h | h | h
    · exact .inr (.inr h)
    · exact .inl h
    · exact .inr (.inl h)
  rw [arbitrateL2CacheAccessReqs, hassert]
  dsimp only [bind, Except.bind]
  split
  · exact ⟨_, rfl⟩
  · split
    · exact ⟨_, rfl⟩
    · exact ⟨_, rfl⟩

theorem createFromBIU_ok {l2 : L2State p} (h : l2.biuRespQueue ≠ []) :
    ∃ l2', createFromBIU p l2 = .ok l2' := by
  unfold createFromBIU
  rcases hq : l2.biuRespQueue with _ | ⟨t, rest⟩
  · exact absurd hq h
  · dsimp only
    split
    · exact ⟨_, rfl⟩
    · exact ⟨_, rfl⟩

theorem createFromCache_ok {l2 : L2State p} {c : L1Cache} (h : l2.reqQueue c ≠ [])
    (hfree : l2.pipelineReqQueue.length < p.pipelineReqQueueSize) :
    ∃ l2', createFromCache p l2 c = .ok l2' := by
  unfold createFromCache
  rcases hq : l2.reqQueue c with _ | ⟨r, rest⟩
  · exact absurd hq h
  · have hassert : spartaAssert (l2.pipelineReqQueue.length < p.pipelineReqQueueSize)
        .bufferFull = .ok () := spartaAssert_eq_ok.mpr (decide_eq_true hfree)
    dsimp only
    rw [hassert]
    exact ⟨_, rfl⟩

theorem createReq_ok {l2 : L2State p} (hin : inputs l2) : ∃ r, createReq p l2 = .ok r := by
  have hin : inputs { l2 with evCreateReq := l2.evCreateReq.fire } := hin
  obtain ⟨⟨w, l2₁⟩, harb⟩ := arbitrate_ok hin
  obtain ⟨-, sel, rfl, hw⟩ := arbitrate_cases harb
  have hfrom : ∃ r, createFrom p { l2 with
      evCreateReq := l2.evCreateReq.fire, channelSelect := sel } w = .ok r := by
    rcases hw with ⟨rfl, -⟩ | ⟨hfree, ⟨rfl, hresp⟩ | ⟨c, rfl, -, hq, -⟩⟩
    · exact ⟨_, rfl⟩
    · have hresp : ({ l2 with
            evCreateReq := l2.evCreateReq.fire, channelSelect := sel } :
          L2State p).biuRespQueue ≠ [] := hresp
      obtain ⟨l2', hl2'⟩ := createFromBIU_ok hresp
      exact ⟨_, Run.bind_eq_ok.mpr ⟨l2', hl2', rfl⟩⟩
    · have hq : ({ l2 with
          evCreateReq := l2.evCreateReq.fire, channelSelect := sel } : L2State p).reqQueue c ≠ [] :=
        hq
      obtain ⟨l2', hl2'⟩ := createFromCache_ok hq hfree
      exact ⟨_, Run.bind_eq_ok.mpr ⟨l2', hl2', rfl⟩⟩
  obtain ⟨⟨l2₂, credit⟩, hfrom⟩ := hfrom
  exact ⟨_, Run.bind_eq_ok.mpr ⟨_, harb, Run.bind_eq_ok.mpr ⟨_, hfrom, rfl⟩⟩⟩

/-- The last stage always has a place for the request. -/
theorem Sound.result_ok (H : Sound s) (hdue : s.l2.resultDue = true) :
    ∃ l2, handleCacheAccessResult p s.l2 = .ok l2 := by
  obtain ⟨req, hreq⟩ := Pipeline.exists_at (H.room.result_valid hdue)
  have hat : Pipeline.at? s.l2.pipeline (hitMissHandling p) = some req := hreq
  have hlooked := H.routed.looked_of_at hreq
  obtain ⟨-, hmiss, hbiu⟩ := H.room.handled hreq
  have hmiss : s.l2.missPendingBuffer.length < p.missPendingBufferSize := by
    have := hmiss
    simp only [traffic] at this
    omega
  have hbiu : s.l2.biuReqQueue.length ≤ p.biuReqQueueSize := by
    have := hbiu
    simp only [traffic] at this
    omega
  unfold handleCacheAccessResult
  rw [hat]
  dsimp only
  split
  · -- an answer, to a queue that is empty
    obtain ⟨c, hc, -⟩ := hlooked
    have hlen : (s.l2.respQueue c).length ≤ p.respQueueSize c := by
      rw [H.awake.respQueue_eq_nil hdue c]
      exact Nat.zero_le _
    unfold sendOutResp
    rw [hc, L1Cache.ofUnit_toUnit]
    exact ⟨_, Run.bind_eq_ok.mpr ⟨_, appendQueue_eq_ok.mpr ⟨hlen, rfl⟩, rfl⟩⟩
  · -- a miss: its room was reserved when it entered the pipeline
    have hassert : spartaAssert (s.l2.missPendingBuffer.length < p.missPendingBufferSize)
        .missPendingFull = .ok () := spartaAssert_eq_ok.mpr (decide_eq_true hmiss)
    unfold handleMiss
    dsimp only
    rw [hassert]
    dsimp only [bind, Except.bind]
    split
    · exact ⟨_, rfl⟩
    · rw [sendOutReq, if_pos rfl]
      exact ⟨_, Run.bind_eq_ok.mpr ⟨_, appendQueue_eq_ok.mpr ⟨hbiu, rfl⟩, rfl⟩⟩

/-- `issue_Req_` runs once in a cycle. -/
theorem Sound.issueReq_ok (H : Sound s) (hdue : s.l2.evIssueReq.now = true) :
    ∃ l2, L2Cache.issueReq p s.l2 = .ok l2 := by
  have hzero : Pipeline.isValid s.l2.pipeline 0 = false := by
    by_contra hvalid
    have hfired := (H.awake.issueOnce (by simpa using hvalid)).2
    rw [hdue] at hfired
    cases hfired
  have hfront : ∃ l2, issueFront p { s.l2 with evIssueReq := s.l2.evIssueReq.fire } = .ok l2 := by
    unfold issueFront
    rcases hq : s.l2.pipelineReqQueue with _ | ⟨r, rest⟩
    · exact ⟨_, rfl⟩
    · dsimp only
      split
      · rw [hzero]
        exact ⟨_, rfl⟩
      · exact ⟨_, rfl⟩
  obtain ⟨l2, hl2⟩ := hfront
  exact ⟨_, Run.bind_eq_ok.mpr ⟨l2, hl2, rfl⟩⟩

/-- The only assertions that can fail are those on the number of answers of the BIU. -/
theorem Sound.handle_failsIn (H : Sound s) (hdue : s.due p op = true) :
    Run.FailsIn (fun a => (∃ i, op = .biuResp i) ∧
      (a = .biuRespQueueOverflow ∨ a = .biuRespNotServiced)) (s.handle p op) := by
  cases op with
  | req c r =>
    -- the requester had a credit, so its queue is not full
    have hcred := H.placed.credits c
    have howed : owed s.accepted s.returned c < p.reqQueueSize c := of_decide_eq_true hdue
    have hlen : (s.l2.reqQueue c).length ≤ p.reqQueueSize c := by
      unfold owed at howed
      simp only [traffic] at hcred
      omega
    refine .of_eq_ok (Run.bind_eq_ok.mpr ⟨_, Run.bind_eq_ok.mpr ⟨_, Run.bind_eq_ok.mpr
      ⟨_, appendQueue_eq_ok.mpr ⟨hlen, rfl⟩, rfl⟩, rfl⟩, rfl⟩)
  | biuResp i =>
    rcases ht : s.atBiu[i]? with _ | t
    · simp only [handle, ht]
      exact .ok s
    · simp only [handle, ht]
      refine Run.FailsIn.bind ?_ fun l2 => .ok _
      refine Run.FailsIn.bind ?_ fun q => ?_
      · refine Run.FailsIn.bind (spartaAssert_failsIn ⟨⟨i, rfl⟩, .inl rfl⟩) fun _ => .ok _
      · refine Run.FailsIn.bind (spartaAssert_failsIn ⟨⟨i, rfl⟩, .inr rfl⟩) fun _ => .ok _
  | handleResp c =>
    rcases hq : s.l2.respQueue c with _ | ⟨r, rest⟩
    · exact absurd hq (H.awake.responded c (.inl hdue))
    · have hok : L2Cache.handleResp s.l2 c = .ok
          ({ s.l2 with
              evHandleResp := Function.update s.l2.evHandleResp c (s.l2.evHandleResp c).fire
              respQueue := Function.update s.l2.respQueue c rest }, r) := by
        unfold L2Cache.handleResp
        rw [hq]
      exact .of_eq_ok (Run.bind_eq_ok.mpr ⟨_, hok, rfl⟩)
  | lookup =>
    obtain ⟨req, hreq⟩ := Pipeline.exists_at (H.room.lookup_valid hdue)
    have hok : ∃ l2, handleCacheAccessRequest p s.l2 = .ok l2 := by
      unfold handleCacheAccessRequest
      have hreq : Pipeline.at? s.l2.pipeline (cacheLookupStage p) = some req := hreq
      rw [hreq]
      exact ⟨_, rfl⟩
    obtain ⟨l2, hl2⟩ := hok
    exact .of_eq_ok (Run.bind_eq_ok.mpr ⟨_, hl2, rfl⟩)
  | result =>
    obtain ⟨l2, hl2⟩ := H.result_ok hdue
    exact .of_eq_ok (Run.bind_eq_ok.mpr ⟨_, hl2, rfl⟩)
  | createReq =>
    obtain ⟨r, hr⟩ := createReq_ok (H.awake.created (.inl hdue))
    exact .of_eq_ok (Run.bind_eq_ok.mpr ⟨_, hr, rfl⟩)
  | issueReq =>
    obtain ⟨l2, hl2⟩ := H.issueReq_ok hdue
    exact .of_eq_ok (Run.bind_eq_ok.mpr ⟨_, hl2, rfl⟩)
  | _ => exact .ok _

/-- In a reachable state a step stops only because it is not enabled, or because the BIU has
answered more transactions than there is room for. -/
theorem assertion_of_reachable (h : Run.Reachable (step p) {} s) {a : Assertion}
    (hstep : s.step p op = .error (.assertion a)) :
    (∃ i, op = .biuResp i) ∧ (a = .biuRespQueueOverflow ∨ a = .biuRespNotServiced) := by
  obtain ⟨hen, hhandle⟩ := enabled_checked_eq_error hstep
  obtain ⟨-, hdue⟩ := of_decide_eq_true hen
  exact (Sound.of_reachable h).handle_failsIn hdue a hhandle

end L2System

/-- In every state the L2 cache reaches, with any requesters that obey the credit protocol and any
BIU, every request that has arrived is in exactly one place: its input queue, the queue before the
pipeline, the pipeline, the miss buffer, the answers for the unit it came from, or sent to that
unit.  What is sent is a hit, one credit has been returned for each request that has left its
input queue, and no answer is addressed to a unit that is not valid. -/
theorem l2_answers_once (p : L2Params) {s : L2System p}
    (h : Run.Reachable (L2System.step p) {} s) :
    s.traffic.places.Perm s.traffic.arrivals ∧ s.traffic.arrivals.Nodup ∧
      (∀ x ∈ s.sent, x.2.cacheState = .hit) ∧
      (∀ c, s.accepted.countP (fun x => x.1 = c) = s.returned c + (s.l2.reqQueue c).length) ∧
      ∀ op, s.step p op ≠ .error (.assertion .respUnitInvalid) := by
  have H := L2System.Sound.of_reachable h
  refine ⟨List.perm_iff_count.mpr H.placed.count, ?_, H.routed.sent, H.placed.credits, ?_⟩
  · -- the requests are numbered in their order of arrival
    have hnodup : (s.traffic.arrivals.map Prod.snd).Nodup := by
      have hmap : s.traffic.arrivals.map Prod.snd = s.traffic.accepted.map Prod.snd := by
        simp [L2Traffic.arrivals, Function.comp_def]
      rw [hmap, H.placed.numbers]
      exact List.nodup_range
    exact hnodup.of_map
  · intro op hstep
    rcases (L2System.assertion_of_reachable h hstep).2 with heq | heq
    · cases heq
    · cases heq

/-- A small L2 cache. -/
def smallL2 : L2Params where
  biuReqQueueSize := 2
  biuRespQueueSize := 2
  pipelineReqQueueSize := 1
  missPendingBufferSize := 1
  l2cacheLatency := 2
  cacheModel := .unbounded 64

/-- A request arrives, and passes the lookup. -/
def lookupOps (c : L1Cache) (phyAddr : ℕ) : List L2Op :=
  [.req c { id := 0, phyAddr := phyAddr }, .tick, .handleReq c, .postTick, .createReq, .nextCycle,
   .tick, .postTick, .issueReq, .nextCycle, .tick, .lookup, .postTick, .nextCycle]

/-- A request is handled by the last stage. -/
def missOps (c : L1Cache) (phyAddr : ℕ) : List L2Op :=
  [.biuCredits 4] ++ lookupOps c phyAddr ++ [.tick, .result]

/-- A request misses, the BIU answers, and the request goes through the pipeline again. -/
def answeredOps : List L2Op :=
  missOps .icache 0 ++
    [.handleBiuReq, .postTick, .nextCycle, .biuResp 0, .tick, .handleBiuResp, .postTick, .createReq,
     .nextCycle, .tick, .postTick, .issueReq, .nextCycle, .tick, .lookup, .postTick, .nextCycle,
     .tick, .result, .handleResp .icache]

theorem l2_answers_once_sample :
    ∃ s, answeredOps.foldlM (L2System.step smallL2) {} = .ok s ∧ s.sent.length = 1 ∧
      s.traffic.places.Perm s.traffic.arrivals ∧ ∀ x ∈ s.sent, x.2.cacheState = .hit := by
  have heval : (answeredOps.foldlM (L2System.step smallL2) {}).toOption.map
      (fun s => s.sent.length) = some 1 := by
    decide +kernel
  obtain ⟨s, hs, hlen⟩ := Run.ok_of_eval heval
  obtain ⟨hplaces, -, hhit, -, -⟩ := l2_answers_once smallL2 ⟨answeredOps, hs⟩
  exact ⟨s, hs, hlen, hplaces, hhit⟩

end Olympia
