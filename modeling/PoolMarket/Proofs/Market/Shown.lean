import PoolMarket.Proofs.Market.Watch

/-!
# A known pair is a pool

The denoms on a chain may be of any text, but a market validates what it reads. So the assets of a
known pair need not be those of its listing. They have the same texts, in the same order, and the
pool at the contract of the pair has them, too. This needs no condition on the chain, where
`Grounded` asks for denoms that are validated.

`Informed` is the invariant, an instance of `Interleaving.Knows` with the property `Ledger.Shows`;
`Informed.shows` is read off it.
-/

namespace PoolMarket

open Chain (Ledger Pool)

namespace Chain.Ledger

variable {l n : Ledger} {e : DenomPair × Addr}

/-- A listing reads as the pair and its contract. -/
def Shows (l : Ledger) (e : DenomPair × Addr) : Prop :=
  e.1.Validated ∧ ∃ assets, l.Lists (assets, e.2) ∧ assets.toStrings = e.1.toStrings

/-- What was shown is shown still (`Effect.lists`). -/
theorem Effect.shows (he : l.Effect n) (h : l.Shows e) : n.Shows e := by
  obtain ⟨hvalid, assets, hlisted, htexts⟩ := h
  exact ⟨hvalid, assets, he.lists hlisted, htexts⟩

/-- What a market reads of a page is shown by the chain that has sent it. The page lists texts
(`lists_of_conclude_page`), and denoms that are read from texts have these texts
(`DenomPair.toStrings_of_ofStrings`). -/
theorem Coherent.shows_of_readPage (h : l.Coherent) {after : Option (Both String)} {limit : UInt32}
    {page : List Listing} {es : List (DenomPair × Addr)}
    (hpage : (Inquiry.page l.factory after limit).conclude
      (l.answer l.factory (Inquiry.page l.factory after limit).msg) = .ok page)
    (hes : Market.readPage page = .ok es) : ∀ e ∈ es, l.Shows e := by
  obtain ⟨listings, rfl, hlists⟩ := h.lists_of_conclude_page hpage
  intro e he
  obtain ⟨_, hmem, hassets, hcontract⟩ := Market.ofStrings_of_readPage hes e he
  obtain ⟨⟨assets, contract⟩, hlisted, rfl⟩ := List.mem_map.1 hmem
  obtain rfl : contract = e.2 := hcontract
  exact ⟨DenomPair.validated_of_ofStrings hassets, assets, hlists _ hlisted,
    (DenomPair.toStrings_of_ofStrings hassets).symm⟩

/-- What is shown has a pool, whose assets have the same texts (`Coherent.listed`). -/
theorem Coherent.pool_of_shows (h : l.Coherent) (hshown : l.Shows e) :
    ∃ p, l.pools[e.2]? = some p ∧ p.assets.toStrings = e.1.toStrings := by
  obtain ⟨-, assets, hlisted, htexts⟩ := hshown
  obtain ⟨-, p, hp, hassets⟩ := h.listed _ assets e.2 hlisted
  exact ⟨p, hp, by rw [hassets, htexts]⟩

end Chain.Ledger

namespace Watch

/-- A market knows nothing but what its chain shows, whatever the denoms on the chain are. -/
structure Informed (w : Watch) : Prop where
  coherent : w.chain.Coherent
  knows : w.tasks.Knows w.chain.factory w.chain.Shows

/-- A market just set up knows nothing (`Interleaving.knows_new`). -/
theorem informed_new {s : Settings} (hpaged : s.pageSize ≠ 0) (router : Addr) :
    (new s router).Informed :=
  ⟨Ledger.coherent_new s.factory router, Interleaving.knows_new hpaged⟩

/-- The chain goes on, and shows what it has shown (`Effect.shows`). -/
theorem Informed.effect {w : Watch} (h : w.Informed) {n : Ledger} (he : w.chain.Effect n) :
    Informed ⟨n, w.tasks⟩ := by
  refine ⟨h.coherent.effect he, ?_⟩
  show w.tasks.Knows n.factory n.Shows
  rw [he.factory_router.1]
  exact h.knows.mono fun _ => he.shows

/-- Each step keeps to what the chain shows: a call by `Informed.effect`, and a refresh that hears a
page by `Knows.hear`. -/
theorem Informed.step {w : Watch} (h : w.Informed) (e : Event) : (w.step e).Informed := by
  cases e with
  | call call => exact h.effect (w.chain.effect_execute call)
  | start => exact ⟨h.coherent, h.knows.start⟩
  | ask task tokens question =>
    have hheard : Informed ⟨w.chain, w.tasks.step (.reply task tokens question
        (w.chain.answer (w.tasks.market.addressee question) (w.tasks.market.message question)))⟩ := by
      refine ⟨h.coherent, h.knows.hear task tokens question _ ?_⟩
      intro after page es hquestion hpage hes
      subst hquestion
      rw [Market.addressee, Market.message, h.knows.market.factory] at hpage
      exact h.coherent.shows_of_readPage hpage hes
    exact hheard.effect (.still rfl rfl rfl rfl)
  | wake task => exact ⟨h.coherent, h.knows.wake task⟩

/-- So does a run. By induction on the events, with `Informed.step`. -/
theorem Informed.run {w : Watch} (h : w.Informed) (events : List Event) :
    (w.run events).Informed := by
  induction events generalizing w with
  | nil => exact h
  | cons e rest ih => exact ih (h.step e)

theorem Informed.shows {w : Watch} (h : w.Informed) {key : PairKey} {known : Loaded}
    (hknown : w.tasks.market.registry.get? key = some known) :
    w.chain.Shows (known.pair.assets, known.pair.contract) :=
  h.knows.market.registered key known hknown

end Watch

end PoolMarket
