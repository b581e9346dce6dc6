import PoolMarket.Proofs.Chain.Pages
import PoolMarket.Proofs.Fees

/-!
# What the chain replies to a market

The questions of a refresh, asked of the chain and concluded: a page is the next part of the
listing, and a pool that is asked for its settings, its supply, its denoms and the worth of the
whole supply tells its fees, its shares, its assets and its reserves.

Lemmas `conclude_*` say what a question comes to on a chain where the contract answers; lemmas
`*_of_asked` say what a reply that came tells of the pool, and need no such hypothesis. Both rest on
the round trips of `Reads`, so that no lemma here looks into a message.
-/

namespace PoolMarket

open Json (Reads)

/-- A reply that reads as it was written means what was written. Every lemma about a reply is this
one with the `reads_*` of its type. -/
theorem Inquiry.conclude_ok {α : Type} {q : Inquiry α} {j : Json} {a : α} (h : Reads .value q.read j a) :
    q.conclude (.ok j.canonical) = .ok a := by
  have hread : q.read j.canonical = some a := h
  refine Outcome.bind_eq_ok.2 ⟨j.canonical, rfl, ?_⟩
  rw [hread]

namespace Chain

namespace Pool

/-- What a backed pool's whole supply is worth are its reserves: nothing is rounded, and where there
are no shares there is nothing in the reserves either (`Backed.reserve_eq_zero`). -/
theorem Backed.worth_supply {p : Pool} (h : p.Backed) : p.worth p.shares = .ok p.reserves := by
  rw [worth_eq_ok]
  intro side
  rcases Nat.eq_zero_or_pos p.shares.val with hunissued | hissued
  · -- without shares the worth is zero, and so are the reserves
    rw [hunissued, Nat.div_zero]
    exact h.reserve_eq_zero hunissued side
  · rw [Nat.mul_div_cancel _ hissued]

/-- Fees are at most the whole, which fits the width in which they are reported. -/
theorem reportedFee_ok {b : BasisPoints} (h : b.val ≤ BasisPoints.whole) :
    reportedFee b = .ok (UInt16.ofNat b.val) ∧ (UInt16.ofNat b.val).toNat = b.val := by
  have hfits : b.val < UInt16.size := Nat.lt_of_le_of_lt h (by decide)
  exact ⟨if_pos hfits, UInt16.toNat_ofNat_of_lt' hfits⟩

/-- The settings a pool reports tell its fees, through the two numbers that they are reported by
(`reportedFee_ok`). -/
theorem config_fees (p : Pool) (admin : Addr) :
    ∃ c, p.config admin = .ok c ∧ c.fees = .ok p.fees := by
  have hwhole := p.fees.total_le
  obtain ⟨htotal, htotalVal⟩ := reportedFee_ok (b := p.fees.total) hwhole
  obtain ⟨hmaker, hmakerVal⟩ := reportedFee_ok (b := p.fees.maker) (by omega)
  refine ⟨⟨admin, admin, UInt16.ofNat p.fees.total.val, UInt16.ofNat p.fees.maker.val, true⟩,
    ?_, ?_⟩
  · rw [config, htotal, hmaker]
    rfl
  · -- the fees come back as they were sent, since both fit in sixteen bits
    have htotalEq : BasisPoints.ofUInt16 (UInt16.ofNat p.fees.total.val) = p.fees.total := by
      simp only [BasisPoints.ofUInt16, htotalVal]
    have hmakerEq : BasisPoints.ofUInt16 (UInt16.ofNat p.fees.maker.val) = p.fees.maker := by
      simp only [BasisPoints.ofUInt16, hmakerVal]
    show Fees.ofTotal (.ofUInt16 (UInt16.ofNat p.fees.total.val))
      (.ofUInt16 (UInt16.ofNat p.fees.maker.val)) = .ok p.fees
    rw [htotalEq, hmakerEq]
    exact Fees.ofTotal_eq_ok.2 ⟨rfl, rfl⟩

end Pool

namespace Ledger

variable {l : Ledger}

/-- What the chain says to a question. -/
def asked {α : Type} (l : Ledger) (q : Inquiry α) : Outcome α := q.conclude (l.answer q.contract q.msg)

/-- No contract is failing. -/
def Answering (l : Ledger) : Prop := ∀ contract, l.taken contract = true → contract ∉ l.failing

theorem answer_of_reply {contract : Addr} {msg j : Json} (hanswers : contract ∉ l.failing)
    (h : l.reply contract msg = .ok j) : l.answer contract msg = .ok j.canonical := by
  rw [answer, if_neg hanswers, h]

/-- An answer is a reply in free form, and its contract does not fail. By the branches of
`Ledger.answer`. -/
theorem reply_of_answer {contract : Addr} {msg j : Json} (h : l.answer contract msg = .ok j) :
    ∃ k, l.reply contract msg = .ok k ∧ j = k.canonical := by
  unfold answer at h
  split at h
  · cases h
  · split at h
    · next k hk =>
      cases h
      exact ⟨k, hk, rfl⟩
    · cases h

/-! ## The factory

-/

/-- The factory understands its own question, which arrives in free form (`reads_factoryQuery`). -/
theorem reply_pairs (l : Ledger) (startAfter : Option (Both String)) (limit : Option UInt32) :
    l.reply l.factory (FactoryQuery.pairs startAfter limit).toJson.canonical =
      (l.page startAfter limit).map (.ofList Listing.toJson) := by
  have hread := (reads_factoryQuery (.pairs startAfter limit)).canonical
  rw [reply, if_pos rfl, hread]
  show (l.page startAfter limit >>= fun page => pure (Json.ofList Listing.toJson page)) = _
  cases l.page startAfter limit <;> rfl

/-- A page holds the next listings behind its cursor (`listingsAfter_eq`). -/
theorem Coherent.page_eq (h : l.Coherent) {after : Option (Both String)} {key : Option PairKey}
    (hkey : cursor after = .ok key) (limit : Option UInt32) :
    l.page after limit = .ok (((behind l.entries key).take (pageLength limit)).map sent) := by
  rw [page, hkey]
  show Except.ok ((l.listingsAfter key).take _) = _
  rw [h.listingsAfter_eq, List.map_take]

/-- A page that is asked for comes as those listings, if the factory answers (`page_eq`,
`reads_listing`). -/
theorem Coherent.conclude_page (h : l.Coherent) (hanswers : l.factory ∉ l.failing)
    {after : Option (Both String)} {key : Option PairKey} (hkey : cursor after = .ok key)
    (limit : UInt32) :
    (Inquiry.page l.factory after limit).conclude
        (l.answer l.factory (Inquiry.page l.factory after limit).msg) =
      .ok (((behind l.entries key).take (pageLength (some limit))).map sent) := by
  have hreply := l.reply_pairs after (some limit)
  rw [h.page_eq hkey] at hreply
  have hanswer : l.answer l.factory (Inquiry.page l.factory after limit).msg = _ :=
    answer_of_reply hanswers hreply
  rw [hanswer]
  exact Inquiry.conclude_ok (Json.reads_list fun e _ => reads_listing e)

/-- Behind any key stand listings, whatever part of them is taken (`mem_entries`). -/
theorem Coherent.lists_of_listingsAfter (h : l.Coherent) (key : Option PairKey) (n : Nat) :
    ∃ es : List (DenomPair × Addr), (l.listingsAfter key).take n = es.map sent ∧
      ∀ e ∈ es, l.Lists e := by
  refine ⟨(behind l.entries key).take n, ?_, fun e he => ?_⟩
  · rw [h.listingsAfter_eq, List.map_take]
  · exact (h.mem_entries e).1 (mem_behind.1 (List.mem_of_mem_take he)).1

/-- Whatever page the factory is asked for, what it sends are listings. The cursor may be any pair
or none at all that could be read; a page that came was cut out of the listing
(`lists_of_listingsAfter`). -/
theorem Coherent.lists_of_conclude_page (h : l.Coherent) {after : Option (Both String)}
    {limit : UInt32} {page : List Listing}
    (hpage : (Inquiry.page l.factory after limit).conclude
      (l.answer l.factory (Inquiry.page l.factory after limit).msg) = .ok page) :
    ∃ es : List (DenomPair × Addr), page = es.map sent ∧ ∀ e ∈ es, l.Lists e := by
  obtain ⟨j, hanswer, hread⟩ := Outcome.bind_eq_ok.1 hpage
  obtain ⟨k, hreply, rfl⟩ := reply_of_answer hanswer
  rw [show (Inquiry.page l.factory after limit).msg =
    (FactoryQuery.pairs after (some limit)).toJson.canonical from rfl, reply_pairs] at hreply
  cases hsent : l.page after (some limit) with
  | error fault =>
    rw [hsent] at hreply
    cases hreply
  | ok sentPage =>
    rw [hsent] at hreply
    cases hreply
    have hreads : Json.list? Listing.ofJson? (Json.ofList Listing.toJson sentPage).canonical =
        some sentPage := (Json.reads_list fun e _ => reads_listing e).canonical
    rw [show (Inquiry.page l.factory after limit).read = Json.list? Listing.ofJson? from rfl,
      hreads] at hread
    cases hread
    obtain ⟨key, -, htake⟩ := Outcome.bind_eq_ok.1 hsent
    cases htake
    exact h.lists_of_listingsAfter key _

/-! ## The router

-/

/-- No other contract understands a question to the router, so a result is one of the router's
previews: the factory and the pools are asked too, in case the router is one of them, and both
refuse (`reads_routerQuery`). -/
theorem preview_of_asked {router : Addr} {offer : Coin} {swappers : List Addr} {s : RoutedResult}
    (hoffer : offer.denom.Validated)
    (h : l.asked (.previewSwaps router offer swappers) = .ok s) :
    ∃ r, l.previewSwaps offer swappers = .ok r ∧
      RoutedResult.ofJson? r.toJson.canonical = some s := by
  obtain ⟨j, hanswer, hread⟩ := Outcome.bind_eq_ok.1 h
  obtain ⟨k, hreply, rfl⟩ := reply_of_answer hanswer
  have hreply : l.reply router (RouterQuery.preview offer swappers).toJson.canonical = .ok k :=
    hreply
  have hunderstood := (reads_routerQuery hoffer swappers).canonical
  unfold reply at hreply
  split at hreply
  · cases hreply
  · -- the router answers the preview, a pool would not understand it
    split at hreply
    · rw [hunderstood] at hreply
      obtain ⟨query, hquery, hpreview⟩ := Outcome.bind_eq_ok.1 hreply
      cases hquery
      obtain ⟨r, hr, hk⟩ := Outcome.bind_eq_ok.1 hpreview
      cases hk
      refine ⟨r, hr, ?_⟩
      split at hread
      · next s' hs' =>
        cases hread
        exact hs'
      · cases hread
    · obtain ⟨p, -, hpool⟩ := Outcome.bind_eq_ok.1 hreply
      cases hpool

/-! ## The pools

All questions to a pool follow one pattern: the question arrives, the pool's own code computes the
reply, and the reply arrives. `conclude_pool` and `asked_pool` are that pattern, and each question
is an instance of them. -/

/-- A pool understands every question whose denoms are validated (`reads_pairQuery`). Its address is
neither the factory's nor the router's, so the question is answered as one to a pool. -/
theorem Coherent.reply_pool (h : l.Coherent) {contract : Addr} {p : Pool}
    (hp : l.pools[contract]? = some p) {q : PairQuery} (hq : q.Validated) :
    l.reply contract q.toJson.canonical = l.poolReply p q := by
  obtain ⟨hfactory, hrouter⟩ := h.apart contract p hp
  have hread := (reads_pairQuery hq).canonical
  rw [reply, if_neg hfactory, if_neg hrouter, pool_eq_ok.2 hp, hread]
  rfl

theorem Answering.pool (h : l.Answering) {contract : Addr} {p : Pool}
    (hp : l.pools[contract]? = some p) : contract ∉ l.failing := by
  refine h contract ?_
  unfold taken
  rw [Std.TreeMap.contains_eq_isSome_getElem?, hp]
  simp

section Pool

variable {contract : Addr} {p : Pool}

/-- What a question to a pool comes to, if the pool's reply to it reads as it was written
(`Inquiry.conclude_ok`). -/
theorem Coherent.conclude_pool {α : Type} (h : l.Coherent) (hanswers : contract ∉ l.failing)
    (hp : l.pools[contract]? = some p) (q : PairQuery) (hq : q.Validated) {read : Json → Option α}
    {j : Json} {a : α} (hreply : l.poolReply p q = .ok j) (hreads : Reads .value read j a) :
    (Inquiry.ofPair contract q read).conclude (l.answer contract q.toJson.canonical) = .ok a := by
  rw [answer_of_reply hanswers ((h.reply_pool hp hq).trans hreply)]
  exact Inquiry.conclude_ok hreads

/-- A question to a pool that does not fail succeeds just where the pool's own code does, and then
with the same result. Unlike `conclude_pool` it covers failures, which reach the asker as faults. -/
theorem Coherent.asked_pool {α : Type} (h : l.Coherent) (hanswers : contract ∉ l.failing)
    (hp : l.pools[contract]? = some p) (q : PairQuery) (hq : q.Validated) {read : Json → Option α}
    (write : α → Json) {x : Outcome α} (hreply : l.poolReply p q = x.map write)
    (hreads : ∀ a, x = .ok a → Reads .value read (write a) a) (a : α) :
    l.asked (.ofPair contract q read) = .ok a ↔ x = .ok a := by
  cases x with
  | error fault =>
    have hanswer : l.answer contract q.toJson.canonical = .error (asQueryFault contract fault) := by
      rw [answer, if_neg hanswers, h.reply_pool hp hq, hreply]
      rfl
    have hasked : l.asked (.ofPair contract q read) = .error (asQueryFault contract fault) := by
      show (Inquiry.ofPair contract q read).conclude (l.answer contract q.toJson.canonical) = _
      rw [hanswer]
      rfl
    rw [hasked]
    simp
  | ok b =>
    have hasked : l.asked (.ofPair contract q read) = .ok b :=
      h.conclude_pool hanswers hp q hq hreply (hreads b rfl)
    rw [hasked]

/-- The settings tell the pool's fees (`Pool.config_fees`). -/
theorem Coherent.conclude_config (h : l.Coherent) (hanswers : l.Answering)
    (hp : l.pools[contract]? = some p) :
    ∃ c, (Inquiry.config contract).conclude
        (l.answer contract PairQuery.config.toJson.canonical) = .ok c ∧ c.fees = .ok p.fees := by
  obtain ⟨c, hc, hfees⟩ := p.config_fees l.factory
  refine ⟨c, h.conclude_pool (hanswers.pool hp) hp .config trivial ?_ (reads_pairConfig c), hfees⟩
  rw [poolReply, hc]
  rfl

theorem Coherent.conclude_totalShares (h : l.Coherent) (hanswers : l.Answering)
    (hp : l.pools[contract]? = some p) :
    (Inquiry.totalShares contract).conclude
      (l.answer contract PairQuery.totalShares.toJson.canonical) = .ok p.shares :=
  h.conclude_pool (hanswers.pool hp) hp .totalShares trivial rfl (reads_amount p.shares)

theorem Coherent.conclude_denoms (h : l.Coherent) (hanswers : l.Answering)
    (hp : l.pools[contract]? = some p) :
    (Inquiry.denoms contract).conclude
      (l.answer contract PairQuery.denoms.toJson.canonical) = .ok p.assets.toStrings :=
  h.conclude_pool (hanswers.pool hp) hp .denoms trivial rfl (reads_strings _)

/-- The worth of the whole supply tells the reserves (`Pool.Backed.worth_supply`), as coins of the
pool's assets. -/
theorem Coherent.conclude_shareValue (h : l.Coherent) (hvalid : l.Validated)
    (hanswers : l.Answering) (hp : l.pools[contract]? = some p) :
    (Inquiry.shareValue contract p.shares).conclude
        (l.answer contract (PairQuery.shareValue p.shares).toJson.canonical) =
      .ok (Coin.forPair p.assets p.reserves) := by
  obtain ⟨hfirst, hsecond⟩ := hvalid contract p hp
  refine h.conclude_pool (hanswers.pool hp) hp (.shareValue p.shares) trivial ?_
    (reads_coins hfirst hsecond)
  have hvalue := Pool.shareValue_eq_ok.2 ⟨_, (h.backed contract p hp).worth_supply, rfl⟩
  rw [poolReply, hvalue]
  rfl

/-! ### What a reply tells of a pool

The other direction: a reply has come, so the contract answered, and its question is one of the
pool that is deployed there. -/

/-- Only a contract that does not fail has anything to say. By the first branch of
`Ledger.answer`. -/
theorem notMem_failing_of_asked {α : Type} {q : Inquiry α} {a : α} (h : l.asked q = .ok a) :
    q.contract ∉ l.failing := by
  intro hfails
  unfold asked answer at h
  rw [if_pos hfails] at h
  cases h

/-- Settings that came tell the fees of the pool (`config_fees`). -/
theorem Coherent.fees_of_asked (h : l.Coherent) (hp : l.pools[contract]? = some p)
    {config : PairConfig} (hasked : l.asked (.config contract) = .ok config) :
    config.fees = .ok p.fees := by
  obtain ⟨c, hc, hfees⟩ := p.config_fees l.factory
  have hreply : l.poolReply p .config = (p.config l.factory).map PairConfig.toJson := by
    rw [poolReply, hc]
    rfl
  have hconfig := (h.asked_pool (notMem_failing_of_asked hasked) hp .config trivial
    PairConfig.toJson hreply (fun c _ => reads_pairConfig c) config).1 hasked
  rw [hc, Except.ok.injEq] at hconfig
  rw [← hconfig, hfees]

/-- A supply that came is that of the pool (`reads_amount`). -/
theorem Coherent.shares_of_asked (h : l.Coherent) (hp : l.pools[contract]? = some p)
    {shares : Amount} (hasked : l.asked (.totalShares contract) = .ok shares) :
    shares = p.shares := by
  have hshares := (h.asked_pool (x := .ok p.shares) (notMem_failing_of_asked hasked) hp .totalShares
    trivial Amount.toJson rfl (fun a _ => reads_amount a) shares).1 hasked
  exact (Except.ok.inj hshares).symm

/-- The worth of shares is told in the assets of any validated pair that reads like the pool's. The
pool's own assets need not be validated: it replies as if they were that pair, which has the same
texts (`reads_coins`). -/
theorem Coherent.worth_of_asked (h : l.Coherent) (hp : l.pools[contract]? = some p)
    {assets : DenomPair} (hvalid : assets.Validated)
    (htexts : p.assets.toStrings = assets.toStrings) {shares : Amount} {value : Both Coin}
    (hasked : l.asked (.shareValue contract shares) = .ok value) :
    ∃ amounts, p.worth shares = .ok amounts ∧ value = Coin.forPair assets amounts := by
  have hfirst : p.assets.first.text = assets.first.text := congrArg Both.first htexts
  have hsecond : p.assets.second.text = assets.second.text := congrArg Both.second htexts
  -- the pool replies as if its assets were those of the pair
  have hreply : l.poolReply p (.shareValue shares) =
      (Pool.shareValue { p with assets } shares).map (.ofBoth Coin.toJson) := by
    have hworth : Pool.worth { p with assets } shares = p.worth shares := rfl
    rw [poolReply, Pool.shareValue, Pool.shareValue, hworth]
    cases p.worth shares with
    | error fault => rfl
    | ok amounts =>
      show Except.ok (Json.ofBoth Coin.toJson (Coin.forPair p.assets amounts)) =
        .ok (.ofBoth Coin.toJson (Coin.forPair assets amounts))
      simp only [Json.ofBoth, Coin.forPair, Coin.toJson, Denom.toJson, hfirst, hsecond]
  refine Pool.shareValue_eq_ok.1 ((h.asked_pool (notMem_failing_of_asked hasked) hp
    (.shareValue shares) trivial (.ofBoth Coin.toJson) hreply ?_ value).1 hasked)
  intro coins hcoins
  obtain ⟨amounts, -, rfl⟩ := Pool.shareValue_eq_ok.1 hcoins
  exact reads_coins hvalid.1 hvalid.2

end Pool

/-! ## Counted queries

Asking leaves a chain as it was, but for the count of queries. `Still` names what has not changed,
for runs in which others only ask. -/

/-- Nothing but the counts of queries has changed. -/
structure Still (l n : Ledger) : Prop where
  factory : n.factory = l.factory
  router : n.router = l.router
  pools : n.pools = l.pools
  listing : n.listing = l.listing
  failing : n.failing = l.failing

theorem Still.count {n : Ledger} (h : l.Still n) (contract : Addr) : l.Still (n.count contract) :=
  ⟨h.factory, h.router, h.pools, h.listing, h.failing⟩

end Ledger

end Chain

end PoolMarket
