import Olympia.Lib.Credit
import Olympia.Fetch
import Olympia.Decode

/-!
# The credits of the fetch queue

Fetch and Decode, joined by the port that carries fetched groups and the port that carries
credits back, with any trace, any behaviour of the instruction cache and of Rename, and any
flushes.

Fetch takes one credit for each instruction it sends, and a flush of Decode returns one for
each entry it drops.  A decode session returns one credit for each uop it emits, also for the
second and later uops of a vector instruction, for which it takes nothing from the queue.
`fetch_credits_conserved_iff`: in a run the credits always add up to the size of the fetch
queue if and only if no session emits such a uop.
-/

namespace Olympia

structure FetchDecode where
  phase : Phase := .tick
  fetch : FetchState := {}
  decode : DecodeState := {}
  table : InstTable := ⟨fun _ => .beforeFetch, fun _ => false⟩
  /-- the group on the port from Fetch to Decode -/
  toDecode : List Inst := []
  /-- the credit messages on the port from Decode to Fetch -/
  fetchCredits : List ℕ

inductive FetchDecodeOp where
  /-- Fetch reads the trace and requests a block from the cache -/
  | fetch (next : List FetchEntry)
  | cacheResponse (group : List Inst) (hit : Bool)
  | cacheCredit (credits : ℕ)
  /-- Fetch sends a group to Decode -/
  | send
  /-- the group arrives in the fetch queue -/
  | deliver
  /-- a vset that Decode waits for has executed -/
  | vset (i : Inst)
  /-- the flush phase of a cycle, with or without a flush -/
  | flush (c : Option FlushingCriteria)
  | decode
  /-- Rename returns credits for its uop queue -/
  | uopCredits (credits : ℕ)
  /-- the oldest credit message arrives at Fetch -/
  | credits
  | nextCycle

namespace FetchDecode

/-- After startup Decode has sent the size of its fetch queue. -/
def init (q : DecodeParams) : FetchDecode := { fetchCredits := [q.fetchQueueSize] }

def step (p : FetchParams) (q : DecodeParams) (s : FetchDecode) : FetchDecodeOp →
    Except Stop FetchDecode
  | .fetch next => do
    enabled (s.phase = .tick)
    return { s with fetch := (Fetch.fetchInstruction p s.fetch next).1 }
  | .cacheResponse group hit => do
    enabled (s.phase = .tick)
    return { s with table := Fetch.receiveCacheResponse s.table group hit }
  | .cacheCredit n => do
    enabled (s.phase = .tick)
    return { s with fetch := Fetch.receiveCacheCredit s.fetch n }
  | .send => do
    enabled (s.phase = .tick)
    let (fetch, insts) := Fetch.sendInstructions p s.fetch s.table
    return { s with fetch := fetch, toDecode := s.toDecode ++ insts }
  | .deliver => do
    enabled (s.phase = .portUpdate)
    return { s with decode := Decode.fetchBufferAppended s.decode s.toDecode, toDecode := [] }
  | .vset i => do
    enabled (s.phase = .portUpdate)
    return { s with decode := Decode.processVset s.decode i }
  | .flush c => do
    enabled (s.phase = .portUpdate ∧ s.toDecode = [])
    match c with
    | none => return { s with phase := .tick }
    | some c =>
      let (decode, credits) := Decode.handleFlush s.decode c
      -- `cancel` drops what Fetch has sent and Decode has not received
      return { s with
        phase := .tick
        fetch := Fetch.flushFetch s.fetch
        decode := decode
        toDecode := []
        fetchCredits := s.fetchCredits ++ [credits] }
  | .decode => do
    enabled (s.phase = .tick)
    let (decode, out) ← checked (Decode.decodeInsts q s.decode)
    match out with
    | none => return { s with decode := decode }
    | some insts =>
      return { s with
        decode := decode
        table := s.table.setStatuses (insts.map Inst.key) .decoded
        fetchCredits := s.fetchCredits ++ [insts.length] }
  | .uopCredits n => do
    enabled (s.phase = .tick)
    return { s with decode := Decode.receiveUopQueueCredits s.decode n }
  | .credits =>
    match s.fetchCredits with
    | [] => .error .disabled
    | n :: rest => do
      enabled (s.phase = .tick)
      return { s with fetch := Fetch.receiveFetchQueueCredits s.fetch n, fetchCredits := rest }
  | .nextCycle => do
    enabled (s.phase = .tick)
    return { s with phase := .portUpdate }

/-! ## The credit loop -/

/-- Where the entries of the fetch queue are accounted for. -/
def loop (s : FetchDecode) : CreditLoop :=
  ⟨s.fetch.creditsInstQueue, s.fetchCredits.sum, s.decode.fetchQueue.length, s.toDecode.length⟩

structure Inv (q : DecodeParams) (s : FetchDecode) : Prop where
  balance : s.loop.Balance q.fetchQueueSize 0
  uop_lt : s.decode.uopQueueCredits < 2 ^ 32

theorem Inv.held_lt {q : DecodeParams} {s : FetchDecode} (H : Inv q s) {k : ℕ}
    (hk : k ≤ s.fetchCredits.sum) : s.fetch.creditsInstQueue + k < 2 ^ 32 :=
  lt_of_le_of_lt (H.balance.held_add_le le_rfl hk) q.fetchQueueSize_lt

/-- The drift of a decode session is the number of uops for which it takes no instruction. -/
theorem decode_total {p : FetchParams} {q : DecodeParams} {s s' : FetchDecode}
    (hlt : s.decode.uopQueueCredits < 2 ^ 32) (hstep : s.step p q .decode = .ok s') :
    ∃ extra, s'.loop.total = s.loop.total + extra ∧ (0 < extra ↔ Decode.splits q s.decode) ∧
      s'.decode.uopQueueCredits < 2 ^ 32 := by
  obtain ⟨-, -, hstep⟩ := Run.bind_eq_ok.mp hstep
  obtain ⟨⟨d, out⟩, hd, hstep⟩ := Run.bind_eq_ok.mp hstep
  obtain ⟨taken, extra, hq, hlen, hcred, hextra⟩ :=
    Decode.decodeInsts_spec hlt (checked_eq_ok.mp hd)
  have hq := congrArg List.length hq
  rw [List.length_append] at hq
  refine ⟨extra, ?_⟩
  rcases out with _ | insts
  · obtain rfl := Except.ok.inj hstep
    simp only [Option.getD_none, List.length_nil] at hlen hcred
    refine ⟨?_, hextra, ?_⟩
    · simp only [loop, CreditLoop.total]
      omega
    · show d.uopQueueCredits < 2 ^ 32
      omega
  · obtain rfl := Except.ok.inj hstep
    simp only [Option.getD_some] at hlen hcred
    refine ⟨?_, hextra, ?_⟩
    · simp only [loop, CreditLoop.total, List.sum_append, List.sum_singleton]
      omega
    · show d.uopQueueCredits < 2 ^ 32
      omega

/-- Every step other than a decode session keeps the balance. -/
theorem step_inv {p : FetchParams} {q : DecodeParams} {s s' : FetchDecode}
    {op : FetchDecodeOp} (H : Inv q s) (hop : op ≠ .decode)
    (hstep : s.step p q op = .ok s') : Inv q s' := by
  rcases op with next | ⟨group, hit⟩ | n | _ | _ | i | c | _ | n | _ | _
  case decode => exact absurd rfl hop
  case fetch =>
    obtain ⟨-, -, hstep⟩ := Run.bind_eq_ok.mp hstep
    obtain rfl := Except.ok.inj hstep
    refine ⟨?_, H.uop_lt⟩
    simpa only [loop, Fetch.fetchInstruction_creditsInstQueue] using H.balance
  case cacheResponse =>
    obtain ⟨-, -, hstep⟩ := Run.bind_eq_ok.mp hstep
    obtain rfl := Except.ok.inj hstep
    exact ⟨H.balance, H.uop_lt⟩
  case cacheCredit =>
    obtain ⟨-, -, hstep⟩ := Run.bind_eq_ok.mp hstep
    obtain rfl := Except.ok.inj hstep
    exact ⟨H.balance, H.uop_lt⟩
  case send =>
    obtain ⟨-, -, hstep⟩ := Run.bind_eq_ok.mp hstep
    rcases hsend : Fetch.sendInstructions p s.fetch s.table with ⟨f, insts⟩
    rw [hsend] at hstep
    obtain rfl := Except.ok.inj hstep
    have hcred := Fetch.sendInstructions_spec (H.held_lt (k := 0) (Nat.zero_le _)) hsend
    refine ⟨?_, H.uop_lt⟩
    have hmove := H.balance.step_zero (.send (k := insts.length)
      (show insts.length ≤ s.fetch.creditsInstQueue by omega))
    have hsub : s.fetch.creditsInstQueue - insts.length = f.creditsInstQueue := by omega
    simpa [loop, hsub] using hmove
  case deliver =>
    obtain ⟨-, -, hstep⟩ := Run.bind_eq_ok.mp hstep
    obtain rfl := Except.ok.inj hstep
    refine ⟨?_, H.uop_lt⟩
    have hmove := H.balance.step_zero (.deliver (k := s.toDecode.length) le_rfl)
    simpa [loop, Decode.fetchBufferAppended] using hmove
  case vset =>
    obtain ⟨-, -, hstep⟩ := Run.bind_eq_ok.mp hstep
    obtain rfl := Except.ok.inj hstep
    exact ⟨H.balance, H.uop_lt⟩
  case flush =>
    obtain ⟨u, hen, hstep⟩ := Run.bind_eq_ok.mp hstep
    have hport : s.toDecode = [] := (of_decide_eq_true (enabled_eq_ok.mp hen)).2
    rcases c with _ | c
    · obtain rfl := Except.ok.inj hstep
      exact ⟨H.balance, H.uop_lt⟩
    · obtain rfl := Except.ok.inj hstep
      refine ⟨?_, H.uop_lt⟩
      have hmove := H.balance.step (.remove (k := s.decode.fetchQueue.length)
        (j := s.decode.fetchQueue.length) le_rfl)
      simpa [loop, Decode.handleFlush, Fetch.flushFetch, hport] using hmove
  case uopCredits =>
    obtain ⟨-, -, hstep⟩ := Run.bind_eq_ok.mp hstep
    obtain rfl := Except.ok.inj hstep
    exact ⟨H.balance, u32Add_lt _ _⟩
  case credits =>
    unfold step at hstep
    rcases hmsg : s.fetchCredits with _ | ⟨n, rest⟩
    · simp [hmsg] at hstep
    · simp only [hmsg] at hstep
      obtain ⟨-, -, hstep⟩ := Run.bind_eq_ok.mp hstep
      obtain rfl := Except.ok.inj hstep
      have hle : n ≤ s.fetchCredits.sum := by simp [hmsg]
      have hmove := H.balance.step_zero (.credit (k := n) hle)
      have hadd : u32Add s.fetch.creditsInstQueue n = s.fetch.creditsInstQueue + n :=
        u32Add_of_lt (H.held_lt hle)
      refine ⟨?_, H.uop_lt⟩
      simpa [loop, Fetch.receiveFetchQueueCredits, hadd, hmsg] using hmove
  case nextCycle =>
    obtain ⟨-, -, hstep⟩ := Run.bind_eq_ok.mp hstep
    obtain rfl := Except.ok.inj hstep
    exact ⟨H.balance, H.uop_lt⟩

theorem init_inv (q : DecodeParams) : Inv q (init q) := by
  refine ⟨?_, ?_⟩
  · simp [CreditLoop.Balance, CreditLoop.total, loop, init]
  · show 0 < 2 ^ 32
    omega

/-- If the decode sessions of a run keep the balance, so does the run. -/
theorem inv_of_visits {p : FetchParams} {q : DecodeParams} {l : List FetchDecodeOp}
    (hdecode : ∀ s s', Inv q s → Run.Takes (step p q) (init q) l s .decode →
      s.step p q .decode = .ok s' → s'.loop.Balance q.fetchQueueSize 0)
    {s : FetchDecode} (hs : Run.Visits (step p q) (init q) l s) : Inv q s := by
  refine hs.invariant (init_inv q) fun op s s' H htakes hstep => ?_
  by_cases hop : op = .decode
  · subst hop
    obtain ⟨-, -, -, hlt⟩ := decode_total H.uop_lt hstep
    exact ⟨hdecode s s' H htakes hstep, hlt⟩
  · exact step_inv H hop hstep

/-- The credits add up to the size of the fetch queue, and the queue is within its size. -/
def Conserved (q : DecodeParams) (s : FetchDecode) : Prop :=
  s.fetch.creditsInstQueue + s.fetchCredits.sum + s.decode.fetchQueue.length + s.toDecode.length
      = q.fetchQueueSize ∧
    s.decode.fetchQueue.length ≤ q.fetchQueueSize

theorem conserved_iff {q : DecodeParams} {s : FetchDecode} :
    Conserved q s ↔ s.loop.Balance q.fetchQueueSize 0 := by
  unfold Conserved CreditLoop.Balance
  simp only [loop, CreditLoop.total]
  omega

end FetchDecode

/-- In a run of Fetch and Decode, the credits add up to the size of the fetch queue, and the
queue is within its size, in every state the run passes through, if and only if the run takes
no decode session that emits a uop for which it takes no instruction from the queue. -/
theorem fetch_credits_conserved_iff (p : FetchParams) (q : DecodeParams)
    {l : List FetchDecodeOp} {t : FetchDecode}
    (hl : l.foldlM (FetchDecode.step p q) (FetchDecode.init q) = .ok t) :
    (∀ s, Run.Visits (FetchDecode.step p q) (FetchDecode.init q) l s →
        FetchDecode.Conserved q s) ↔
      ∀ s, Run.Takes (FetchDecode.step p q) (FetchDecode.init q) l s .decode →
        ¬Decode.splits q s.decode := by
  constructor
  · intro hall s htakes hsplits
    have hbal : ∀ s, Run.Visits (FetchDecode.step p q) (FetchDecode.init q) l s →
        s.loop.Balance q.fetchQueueSize 0 :=
      fun s hs => FetchDecode.conserved_iff.mp (hall s hs)
    obtain ⟨s', hstep, hvisits⟩ := htakes.next hl
    have H : FetchDecode.Inv q s := by
      refine FetchDecode.inv_of_visits (fun r r' _ hr hr' => ?_) htakes.visits
      obtain ⟨r'', hr'', hv⟩ := hr.next hl
      obtain rfl : r'' = r' := Except.ok.inj (hr''.symm.trans hr')
      exact hbal _ hv
    -- the session leaves more credits than there are entries
    obtain ⟨extra, htotal, hextra, -⟩ := FetchDecode.decode_total H.uop_lt hstep
    have hpos := hextra.mpr hsplits
    have hbefore := H.balance
    have hafter := hbal s' hvisits
    unfold CreditLoop.Balance at hbefore hafter
    omega
  · intro hnone s hvisits
    refine FetchDecode.conserved_iff.mpr ?_
    refine (FetchDecode.inv_of_visits (fun r r' H hr hr' => ?_) hvisits).balance
    obtain ⟨extra, htotal, hextra, -⟩ := FetchDecode.decode_total H.uop_lt hr'
    have hzero : ¬0 < extra := fun hpos => hnone r hr (hextra.mp hpos)
    have hbefore := H.balance
    unfold CreditLoop.Balance at hbefore ⊢
    omega

/-- An instruction of the trace, alone in its block. -/
def sampleEntry (i : Inst) : FetchEntry := { inst := i, pc := 16 * i.uniqueId }

/-- A vset that makes the vector length 256 at LMUL 2. -/
def sampleVset : Inst :=
  { uniqueId := 1, programId := 1, pipe := .vset, isVector := true, mavisUid := .vsetivli,
    vectorConfig := { lmul := 2, vl := 256 } }

/-- A vector addition, of two uops under that configuration: 256 elements of 8 bits in
registers of 1024 bits. -/
def sampleVadd : Inst :=
  { uniqueId := 2, programId := 2, pipe := .vint, isVector := true, uopGen := .elementwise }

def sampleDecode : DecodeParams := { mavis := ⟨fun i _ _ => i⟩ }

/-- A vset and the addition are fetched, sent and decoded. -/
def vaddOps (vset : Inst) : List FetchDecodeOp :=
  [.credits, .cacheCredit 2, .uopCredits 10,
   .fetch [sampleEntry vset, sampleEntry sampleVadd], .fetch [],
   .cacheResponse [vset] true, .cacheResponse [sampleVadd] true, .send, .nextCycle,
   .deliver, .flush none, .decode]

/-- A vset for one register. -/
def smallVset : Inst := { sampleVset with vectorConfig := { vl := 128 } }

/-- With one uop for the addition the credits are right in every state of the run. -/
theorem fetch_credits_conserved_iff_sample :
    ∃ t, (vaddOps smallVset).foldlM (FetchDecode.step {} sampleDecode)
        (FetchDecode.init sampleDecode) = .ok t ∧ t.fetchCredits = [2] ∧
      ∀ s, Run.Visits (FetchDecode.step {} sampleDecode) (FetchDecode.init sampleDecode)
        (vaddOps smallVset) s → FetchDecode.Conserved sampleDecode s := by
  have heval : ((vaddOps smallVset).foldlM (FetchDecode.step {} sampleDecode)
      (FetchDecode.init sampleDecode)).toOption.map (fun t => t.fetchCredits) = some [2] := by
    decide +kernel
  have hall : Run.along (FetchDecode.step {} sampleDecode)
      (fun s op => match op with
        | .decode => !Decode.splits sampleDecode s.decode
        | _ => true) (FetchDecode.init sampleDecode) (vaddOps smallVset) = true := by
    decide +kernel
  obtain ⟨t, ht, hcredits⟩ := Run.ok_of_eval heval
  refine ⟨t, ht, hcredits, (fetch_credits_conserved_iff {} sampleDecode ht).mpr ?_⟩
  intro s htakes
  simpa using htakes.of_along hall

/-- After a vector instruction of two uops there is one credit too many. -/
theorem fetch_credits_surplus :
    ¬∀ s, Run.Reachable (FetchDecode.step {} sampleDecode) (FetchDecode.init sampleDecode) s →
      s.fetch.creditsInstQueue + s.fetchCredits.sum + s.decode.fetchQueue.length
        + s.toDecode.length = sampleDecode.fetchQueueSize := by
  intro hall
  have heval : ((vaddOps sampleVset).foldlM (FetchDecode.step {} sampleDecode)
      (FetchDecode.init sampleDecode)).toOption.map
      (fun s => s.fetch.creditsInstQueue + s.fetchCredits.sum + s.decode.fetchQueue.length
        + s.toDecode.length) = some 11 := by
    decide +kernel
  obtain ⟨s, hs, hsum⟩ := Run.ok_of_eval heval
  have heq := hall s ⟨_, hs⟩
  rw [hsum] at heq
  exact absurd heq (by decide)

end Olympia
