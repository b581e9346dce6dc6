import PoolMarket.Market.Reading
import PoolMarket.Proofs.Chain.Replies

/-!
# Reading a pool of the chain

While the chain stands still, the replies to a reading are those of one pool at one moment. Whatever
their order, each brings the reading nearer to its end, and the last completes it with the pool's
reserves, shares and fees.

* `Reading.OfPool` — the invariant: what is known so far is what the pool has.
* `Reading.left` — the measure, which goes down with each reply, so no order of replies goes on for
  ever.
* `OfPool.receive` — a reply keeps the first and lowers the second, or it completes the reading.
-/

namespace PoolMarket

open Chain (Ledger Pool)

/-- A pool as a snapshot shows it: its reserves, supply and fees at one moment. -/
def Chain.Pool.snapshot (p : Pool) : Snapshot :=
  { deposits := p.reserves, shares := p.shares, fees := p.fees }

/-- The worth of the whole supply shows a pool, with its fees. Nothing is lost to rounding when all
shares are valued at once (`Backed.worth_supply`). -/
theorem Chain.Pool.Backed.snapshot_eq {p : Pool} (h : p.Backed) {snapshot : Snapshot}
    (hworth : p.worth snapshot.shares = .ok snapshot.deposits) (hfees : snapshot.fees = p.fees)
    (hshares : snapshot.shares = p.shares) : snapshot = p.snapshot := by
  rw [hshares, h.worth_supply, Except.ok.injEq] at hworth
  show snapshot = ⟨p.reserves, p.shares, p.fees⟩
  rw [hworth, ← hshares, ← hfees]

/-- A chain that can be read: all denoms are validated, and no contract is failing. Both are needed
for a reply to read as what was asked, and `coherent` for a contract to be found by its address. -/
structure Chain.Ledger.Ready (l : Ledger) : Prop where
  coherent : l.Coherent
  validated : l.Validated
  answering : l.Answering

theorem DenomPair.contains_first (p : DenomPair) : p.contains p.first = true :=
  contains_iff.2 (Or.inl rfl)

theorem DenomPair.contains_second (p : DenomPair) : p.contains p.second = true :=
  contains_iff.2 (Or.inr rfl)

/-- The coins of a pair in listing order are in listing order. The assets differ
(`DenomPair.distinct`), so neither amount is taken for the other. -/
theorem Coin.align?_forPair (assets : DenomPair) (amounts : Both Amount) :
    align? assets (forPair assets amounts) = some amounts := by
  have hfirst : amountOf? (forPair assets amounts) assets.first = some amounts.first := if_pos rfl
  have hsecond : amountOf? (forPair assets amounts) assets.second = some amounts.second := by
    have hother : ¬ (forPair assets amounts).first.denom = assets.second := assets.distinct
    rw [amountOf?, if_neg hother]
    exact if_pos rfl
  rw [align?, hfirst, hsecond]
  rfl

namespace Reading

/-- The replies so far are those of a pool. A survey knows some of its settings, supply and denoms;
a valuation knows the fees and the supply, which the first round has told. -/
def Stage.Agrees (p : Pool) : Stage → Prop
  | .survey config shares denoms =>
    (∀ c, config = some c → c.fees = .ok p.fees) ∧ (∀ s, shares = some s → s = p.shares) ∧
      ∀ d, denoms = some d → d = p.assets.toStrings
  | .valuation fees shares => fees = p.fees ∧ shares = p.shares

theorem Stage.agrees_start (p : Pool) : (Stage.survey none none none).Agrees p := by
  refine ⟨?_, ?_, ?_⟩
  all_goals
    intro _ h
    cases h

/-- The reading of a pool that is as it was when the reading began. It `asks` something, so it
cannot get stuck. -/
structure OfPool (r : Reading) (contract : Addr) (p : Pool) : Prop where
  contract : r.contract = contract
  assets : r.assets = p.assets
  agrees : r.stage.Agrees p
  asks : r.questions ≠ []

/-- The most replies that are still to come: the open questions of the first round and the one
question of the second. -/
def left (r : Reading) : Nat :=
  match r.stage with
  | .survey .. => r.questions.length + 1
  | .valuation .. => 1

section OfPool

variable {r : Reading} {contract : Addr} {p : Pool}

/-- The first reading of a listed pair, which asks for its denoms too (`Stage.agrees_start`). -/
theorem OfPool.first (contract : Addr) (p : Pool) :
    (first contract p.assets).OfPool contract p where
  contract := rfl
  assets := rfl
  agrees := Stage.agrees_start p
  asks h := by cases h

/-- Another reading of a pair whose assets are those of the pool: the same without the denoms. -/
theorem OfPool.again {pair : Pair} (hassets : pair.assets = p.assets) :
    (again pair).OfPool pair.contract p where
  contract := rfl
  assets := hassets
  agrees := Stage.agrees_start p
  asks h := by cases h

/-- The denoms that a pool reports pass for those of its listing, as validated ones can be read back
(`Validated.ofStrings_toStrings`). -/
theorem checkDenoms_ok (hassets : r.assets = p.assets) (hvalid : p.assets.Validated) :
    r.checkDenoms p.assets.toStrings = .ok () := by
  rw [checkDenoms, hvalid.ofStrings_toStrings, hassets]
  show (if p.assets.contains p.assets.first && p.assets.contains p.assets.second then _ else _) = _
  rw [p.assets.contains_first, p.assets.contains_second]
  rfl

/-- Once the first round is complete, the second asks for the worth of the whole supply. Until then
the reading goes on as it is. Either way it does not fail: the fees of the pool are lawful, and its
denoms are those of the listing (`checkDenoms_ok`). -/
theorem proceed_ofPool (hcontract : r.contract = contract) (hassets : r.assets = p.assets)
    (hagrees : r.stage.Agrees p) (hvalid : p.assets.Validated)
    (hsurvey : ∃ config shares denoms, r.stage = .survey config shares denoms) :
    ∃ s, r.proceed = .ok (.waiting s) ∧ s.OfPool contract p ∧ s.left ≤ r.questions.length + 1 := by
  obtain ⟨config, shares, denoms, hstage⟩ := hsurvey
  have hleft : r.left = r.questions.length + 1 := by rw [left, hstage]
  rw [hstage] at hagrees
  obtain ⟨hfees, hshares, hdenoms⟩ := hagrees
  have hstill (hasks : r.questions ≠ []) : r.OfPool contract p :=
    ⟨hcontract, hassets, by rw [hstage]; exact ⟨hfees, hshares, hdenoms⟩, hasks⟩
  unfold proceed
  rw [hstage]
  rcases config with _ | c
  · exact ⟨r, rfl, hstill (by simp [questions, hstage]), Nat.le_of_eq hleft⟩
  rcases shares with _ | supply
  · exact ⟨r, rfl, hstill (by simp [questions, hstage]), Nat.le_of_eq hleft⟩
  by_cases hmissing : r.checksDenoms = true ∧ denoms = none
  · obtain ⟨hchecks, rfl⟩ := hmissing
    refine ⟨r, ?_, hstill (by simp [questions, hstage, hchecks]), Nat.le_of_eq hleft⟩
    simp only [hchecks]
  · -- nothing more is asked in the first round
    obtain rfl := hshares supply rfl
    refine ⟨{ r with stage := .valuation p.fees p.shares }, ?_,
      ⟨hcontract, hassets, ⟨rfl, rfl⟩, fun h => by cases h⟩, Nat.le_add_left 1 _⟩
    -- the fees are the pool's, and so is the next stage
    have hnext : (c.fees >>= fun fees =>
        pure (Progress.waiting { r with stage := .valuation fees p.shares })) =
          .ok (.waiting { r with stage := .valuation p.fees p.shares }) := by
      rw [hfees c rfl]
      rfl
    rcases denoms with _ | d
    · have hchecks : r.checksDenoms = false := by simpa using hmissing
      rw [← hnext]
      simp only [hchecks]
    · have hdenoms : r.checkDenoms d = .ok () := by
        rw [hdenoms d rfl]
        exact checkDenoms_ok hassets hvalid
      rw [← hnext]
      cases r.checksDenoms with
      | false => rfl
      | true =>
        simp only [hdenoms]
        rfl

/-- A reply of the first round brings the reading on. By the question: what is told is noted, and
`proceed_ofPool` says what comes of it, with one question less to ask. -/
theorem OfPool.receive_survey {l : Ledger} (h : r.OfPool contract p) (hl : l.Ready)
    (hp : l.pools[contract]? = some p) {config : Option PairConfig} {shares : Option Amount}
    {denoms : Option (Both String)} (hstage : r.stage = .survey config shares denoms)
    {query : PairQuery} (hasked : query ∈ r.questions) :
    ∃ s, r.receive query (l.answer contract query.toJson.canonical) = .ok (.waiting s) ∧
      s.OfPool contract p ∧ s.left < r.left := by
  obtain ⟨rfl, hassets, hagrees, -⟩ := h
  have hvalid := hl.validated r.contract p hp
  rw [hstage] at hagrees
  obtain ⟨hfees, hshares, hdenoms⟩ := hagrees
  have hleft : r.left = r.questions.length + 1 := by rw [left, hstage]
  -- with one more reply there is one question less
  have hgo (s : Reading) (hs : s = { r with stage := s.stage }) (hagrees : s.stage.Agrees p)
      (hsurvey : ∃ config shares denoms, s.stage = .survey config shares denoms)
      (hfewer : s.questions.length < r.questions.length) :
      ∃ t, s.proceed = .ok (.waiting t) ∧ t.OfPool r.contract p ∧ t.left < r.left := by
    obtain ⟨t, ht, hofPool, hle⟩ :=
      proceed_ofPool (by rw [hs]) (by rw [hs]; exact hassets) hagrees hvalid hsurvey
    exact ⟨t, ht, hofPool, by omega⟩
  cases query with
  | config =>
    obtain ⟨c, hreply, hc⟩ := hl.coherent.conclude_config hl.answering hp
    have hnone : config = none := by simpa [questions, hstage] using hasked
    unfold Reading.receive
    simp only [hstage, hreply]
    refine hgo { r with stage := .survey (some c) shares denoms } rfl ⟨?_, hshares, hdenoms⟩
      ⟨_, _, _, rfl⟩ ?_
    · intro c' heq
      cases heq
      exact hc
    · simp [questions, hstage, hnone]
  | totalShares =>
    have hreply := hl.coherent.conclude_totalShares hl.answering hp
    have hnone : shares = none := by simpa [questions, hstage] using hasked
    unfold Reading.receive
    simp only [hstage, hreply]
    refine hgo { r with stage := .survey config (some p.shares) denoms } rfl
      ⟨hfees, ?_, hdenoms⟩ ⟨_, _, _, rfl⟩ ?_
    · intro s heq
      cases heq
      rfl
    · simp [questions, hstage, hnone]
  | denoms =>
    have hreply := hl.coherent.conclude_denoms hl.answering hp
    obtain ⟨hchecks, hnone⟩ : r.checksDenoms = true ∧ denoms = none := by
      simpa [questions, hstage] using hasked
    unfold Reading.receive
    simp only [hstage, hreply]
    refine hgo { r with stage := .survey config shares (some p.assets.toStrings) } rfl
      ⟨hfees, hshares, ?_⟩ ⟨_, _, _, rfl⟩ ?_
    · intro d heq
      cases heq
      rfl
    · simp [questions, hstage, hnone, hchecks]
  | canonicalDenoms | shareValue | previewDeposit | previewSwap | previewNaiveSwap =>
    exfalso
    simp [questions, hstage] at hasked

/-- The reply of the second round completes the reading. The coins come in listing order
(`Coin.align?_forPair`), and all shares were valued, so they are the reserves
(`Coherent.conclude_shareValue`). -/
theorem OfPool.receive_valuation {l : Ledger} (h : r.OfPool contract p) (hl : l.Ready)
    (hp : l.pools[contract]? = some p) {fees : Fees} {shares : Amount}
    (hstage : r.stage = .valuation fees shares) {query : PairQuery} (hasked : query ∈ r.questions) :
    r.receive query (l.answer contract query.toJson.canonical) = .ok (.complete p.snapshot) := by
  obtain ⟨rfl, hassets, hagrees, -⟩ := h
  rw [hstage] at hagrees
  obtain ⟨rfl, rfl⟩ := hagrees
  -- the last question is the worth of the whole supply, which is what the pool holds
  have hquery : query = .shareValue p.shares := by
    rw [questions, hstage] at hasked
    exact List.mem_singleton.1 hasked
  have hreply := hl.coherent.conclude_shareValue hl.validated hl.answering hp
  have halign : Pair.align r.assets r.contract (Coin.forPair p.assets p.reserves) =
      .ok p.reserves := by
    rw [Pair.align, hassets, Coin.align?_forPair]
  unfold Reading.receive
  simp only [hstage, hquery, hreply]
  show (Pair.align r.assets r.contract (Coin.forPair p.assets p.reserves) >>= fun _ => _) = _
  rw [halign]
  rfl

/-- A reply that is asked for brings the reading on, and the last one completes it: one lemma for
each round, `OfPool.receive_survey` and `OfPool.receive_valuation`. -/
theorem OfPool.receive {l : Ledger} (h : r.OfPool contract p) (hl : l.Ready)
    (hp : l.pools[contract]? = some p) {query : PairQuery} (hasked : query ∈ r.questions) :
    (∃ s, r.receive query (l.answer contract query.toJson.canonical) = .ok (.waiting s) ∧
        s.OfPool contract p ∧ s.left < r.left) ∨
      r.receive query (l.answer contract query.toJson.canonical) = .ok (.complete p.snapshot) := by
  cases hstage : r.stage with
  | survey config shares denoms => exact Or.inl (h.receive_survey hl hp hstage hasked)
  | valuation fees shares => exact Or.inr (h.receive_valuation hl hp hstage hasked)

end OfPool

end Reading

end PoolMarket
