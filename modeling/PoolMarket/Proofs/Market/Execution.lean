import PoolMarket.Proofs.Chain.Routing
import PoolMarket.Proofs.Market.Mirror
import PoolMarket.Proofs.Market.Routes
import PoolMarket.Proofs.Route.Shortest

/-!
# Trades that pay what was previewed

A market that knows no pair but those a chain lists names the contracts of a route. They are
distinct, since a route comes to no asset twice and a pool has but two. So what the router previews
for them is what the swaps pay when they are made.

* `InStep` — all that is asked of market and chain. It is less than `Mirrors`: pools may have
  changed and pairs may be missing.
* `InStep.swappers_route` — the contracts of a route, each at a pool of its hop and no two the same.
* `InStep.pays` — the preview of these contracts, and the swaps through them.
-/

namespace PoolMarket

open Chain (Ledger Pool)

namespace Market

variable {m : Market} {l : Ledger}

/-! ## The contracts of a route -/

/-- All pairs that a market knows are listed by a chain. More may be listed, and the pools may have
changed since they were read. -/
def InStep (m : Market) (l : Ledger) : Prop :=
  ∀ key p, m.registry.get? key = some p → p.Listed l

/-- A market that shows just what a chain lists is in step with it (`Market.Mirrors`). -/
theorem Mirrors.inStep (h : m.Mirrors l) (hm : m.Consistent) : m.InStep l := by
  intro key p hp
  have hlisted := h.registered key
  rw [hp, Option.map_some, ← hm.keyed key p hp] at hlisted
  exact hlisted.symm

/-- To mirror a chain is to list the same pairs one by one, each with what its pool holds. Both
sides are finite lists here, so it can be checked of a market and a chain that are given. -/
theorem mirrors_of_toList
    (hlisted : m.registry.byKey.toList.map (fun e => (e.1, e.2.pair.assets, e.2.pair.contract)) =
      l.listing.toList)
    (hpools : ∀ e ∈ m.registry.byKey.toList,
      (l.pools[e.2.pair.contract]?).map Pool.snapshot = some e.2.pair.snapshot) :
    m.Mirrors l := by
  constructor
  case registered =>
    intro key
    refine Option.ext fun e => ?_
    rw [Option.map_eq_some_iff, ← Std.TreeMap.mem_toList_iff_getElem?_eq_some, ← hlisted,
      List.mem_map]
    constructor
    · rintro ⟨known, hknown, rfl⟩
      exact ⟨(key, known), Std.TreeMap.mem_toList_iff_getElem?_eq_some.2 hknown, rfl⟩
    · rintro ⟨⟨k, known⟩, hmem, heq⟩
      cases heq
      exact ⟨known, Std.TreeMap.mem_toList_iff_getElem?_eq_some.1 hmem, rfl⟩
  case snapshots =>
    intro key known hknown
    obtain ⟨p, hp, hsnapshot⟩ := Option.map_eq_some_iff.1
      (hpools (key, known) (Std.TreeMap.mem_toList_iff_getElem?_eq_some.2 hknown))
    exact ⟨p, hp, hsnapshot.symm⟩

/-- A known pair is at a pool of its assets, as the chain lists it there (`Prefers.exists_get?`). -/
theorem InStep.serves (h : m.InStep l) (hl : l.Coherent) {hop : Hop} {contract : Addr}
    (hprefers : m.registry.Prefers hop.source hop.target contract) : l.Serves hop contract := by
  obtain ⟨key, known, hget, rfl, hother⟩ := hprefers.exists_get?
  obtain ⟨-, p, hp, hassets⟩ := hl.listed _ _ _ (h key known hget)
  exact ⟨p, hp, hassets ▸ hother⟩

/-- The contracts of a route can be named (`exists_swappers`), each serves its hop, and no two are
the same: `Ledger.nodup_of_serves`, as the assets of a shortest route are all different. -/
theorem InStep.swappers_route (h : m.InStep l) (hl : l.Coherent) (hm : m.registry.Proper)
    {source target : Denom} {r : Route} (hr : m.route? source target = some r) :
    ∃ swappers, m.swappers r.hops = .ok swappers ∧ List.Forall₂ l.Serves r.hops swappers ∧
      swappers.Nodup := by
  obtain ⟨hwalk, hnodup, -⟩ := TradeMap.shortest_of_route? hr
  obtain ⟨swappers, hswappers, hregistered⟩ := exists_swappers hm hwalk.trades
  have hserves := hregistered.imp fun _ _ => h.serves hl
  exact ⟨swappers, hswappers, hserves, Ledger.nodup_of_serves hwalk.chains hnodup hserves⟩

/-! ## A preview and the trade -/

/-- What is asked to preview a trade: the router, for the contracts of the route. By the branches of
`Market.previewSwap`, in its order. -/
theorem previewSwap_eq_some {offer : Coin} {ask : Denom} {q : Inquiry RoutedResult}
    (h : m.previewSwap offer ask = .ok (some q)) :
    offer.denom ≠ ask ∧ ∃ r swappers, m.route? offer.denom ask = some r ∧
      m.swappers r.hops = .ok swappers ∧ q = .previewSwaps m.router offer swappers := by
  unfold previewSwap at h
  obtain ⟨_, hcheck, h⟩ := Outcome.bind_eq_ok.1 h
  have hne : offer.denom ≠ ask := by
    rintro rfl
    rw [checkOffer, if_pos rfl] at hcheck
    cases hcheck
  cases hroute : m.route? offer.denom ask with
  | none =>
    rw [hroute] at h
    cases h
  | some r =>
    rw [hroute] at h
    obtain ⟨q', hq', heq⟩ := Outcome.bind_eq_ok.1 h
    cases heq
    -- a preview that asks something found a route and named its swappers
    unfold previewRoute at hq'
    split at hq'
    · cases hq'
    · obtain ⟨swappers, hswappers, heq⟩ := Outcome.bind_eq_ok.1 hq'
      cases heq
      exact ⟨hne, r, swappers, rfl, hswappers, rfl⟩

/-- What the chain previews of a trade is what the swaps along its route pay. Its reply is read as
it was sent (`reads_routedResult`), it is of distinct contracts (`swappers_route`), and for these
preview and swaps agree (`Ledger.exists_swapThrough_iff`). -/
theorem InStep.pays (h : m.InStep l) (hl : l.Coherent) (hm : m.registry.Proper) {offer : Coin}
    {ask : Denom} {q : Inquiry RoutedResult} {s : RoutedResult}
    (hpreview : m.previewSwap offer ask = .ok (some q)) (hasked : l.asked q = .ok s) :
    s.denom = ask ∧ ∃ r swappers n, m.route? offer.denom ask = some r ∧
      m.swappers r.hops = .ok swappers ∧
      l.swapThrough offer swappers = .ok (⟨s.amount, ask⟩, n) := by
  obtain ⟨hne, r, swappers, hroute, hswappers, rfl⟩ := previewSwap_eq_some hpreview
  obtain ⟨swappers', hswappers', hserves, hnodup⟩ := h.swappers_route hl hm hroute
  obtain rfl : swappers = swappers' := by
    rw [hswappers, Except.ok.injEq] at hswappers'
    exact hswappers'
  have hwalk := (TradeMap.shortest_of_route? hroute).walk
  obtain ⟨hoffer, hask⟩ := hm.validated_of_walk hwalk hne
  obtain ⟨s', hrouted, hread⟩ := Ledger.preview_of_asked hoffer hasked
  have hsome : swappers ≠ [] := by
    rintro rfl
    rw [List.forall₂_nil_right_iff.1 hserves] at hwalk
    exact hne hwalk.eq_of_nil
  rw [Ledger.previewSwaps_eq hsome] at hrouted
  -- the reply arrives as it was sent, for its denom is the one that was asked for
  have hdenom : s'.denom = ask := Ledger.routed_denom hwalk.chains hserves hrouted
  have harrives := (reads_routedResult (hdenom ▸ hask : s'.denom.Validated)).canonical
  obtain rfl : s' = s := by
    rw [harrives, Option.some.injEq] at hread
    exact hread
  have hmade : ∃ n, l.swapThrough offer swappers = .ok (⟨s'.amount, s'.denom⟩, n) :=
    (Ledger.exists_swapThrough_iff hnodup).2 ⟨s'.slip, hrouted⟩
  obtain ⟨n, hn⟩ := hmade
  subst hdenom
  exact ⟨rfl, r, swappers, n, hroute, hswappers, hn⟩

/-- Trades on a chain pay what a market was told they would: no two contracts along a route are the
same, and the reply to a preview is in the asset asked for and is what the swaps pay when they are
made. -/
structure TradesAsPreviewed (m : Market) (l : Ledger) : Prop where
  distinct : ∀ source target r, m.route? source target = some r →
    ∃ swappers, m.swappers r.hops = .ok swappers ∧ swappers.Nodup
  pays : ∀ (offer : Coin) (ask : Denom) (q : Inquiry RoutedResult) (s : RoutedResult),
    m.previewSwap offer ask = .ok (some q) → l.asked q = .ok s →
      s.denom = ask ∧ ∃ r swappers n, m.route? offer.denom ask = some r ∧
        m.swappers r.hops = .ok swappers ∧
        l.swapThrough offer swappers = .ok (⟨s.amount, ask⟩, n)

/-- Both parts for a market in step with a chain: `InStep.swappers_route` and `InStep.pays`. -/
theorem InStep.tradesAsPreviewed (h : m.InStep l) (hl : l.Coherent) (hm : m.registry.Proper) :
    m.TradesAsPreviewed l where
  distinct _ _ _ hr := by
    obtain ⟨swappers, hswappers, -, hnodup⟩ := h.swappers_route hl hm hr
    exact ⟨swappers, hswappers, hnodup⟩
  pays _ _ _ _ hpreview hasked := h.pays hl hm hpreview hasked

end Market

namespace Chain.Ledger

/-- Through contracts that are pairwise distinct the preview of some swaps succeeds just where the
swaps do, and tells what the last of them pays. -/
def PreviewsSwaps (l : Ledger) : Prop :=
  ∀ (offer : Coin) (swappers : List Addr) (coin : Coin), swappers ≠ [] → swappers.Nodup →
    ((∃ n, l.swapThrough offer swappers = .ok (coin, n)) ↔
      ∃ slip, l.previewSwaps offer swappers = .ok ⟨coin.denom, coin.amount, slip⟩)

/-- Every chain previews so, whatever its pools hold: `previewSwaps_eq` and
`exists_swapThrough_iff`. -/
theorem previewsSwaps (l : Ledger) : l.PreviewsSwaps := by
  intro offer swappers coin hsome hnodup
  rw [previewSwaps_eq hsome]
  exact exists_swapThrough_iff hnodup

end Chain.Ledger

namespace Watch

/-- The router previews on every chain what swaps through distinct pools pay. Whatever has happened
to a chain and to a market of valid settings that asks it: while the market is in step with the
chain, trades on it pay what is previewed. What is on record of the market and the chain comes of
`Grounded.run`; the rest is `InStep.tradesAsPreviewed`. -/
theorem run_tradesAsPreviewed :
    (∀ l : Ledger, l.PreviewsSwaps) ∧
      ∀ (s : Settings) (router : Addr) (events : List Event), s.check = .ok () →
        ((new s router).run events).tasks.market.InStep ((new s router).run events).chain →
        ((new s router).run events).tasks.market.TradesAsPreviewed
          ((new s router).run events).chain := by
  refine ⟨Ledger.previewsSwaps, fun s router events hs hstep => ?_⟩
  have hpaged := Settings.pageSize_of_check hs
  have hgrounded := (grounded_new hpaged router).run events
  have hknows := validated_run (w := new s router) (Interleaving.knows_new hpaged) events
  exact hstep.tradesAsPreviewed hgrounded.coherent
    ⟨hgrounded.sound.consistent.keyed, hknows.market.registered⟩

/-! ### Two pools in a row -/

namespace Sample

open Deployment (factory router settings)

/-- A third asset, which is traded for the first one of the pool. -/
def steel : Denom := .native "usteel"

/-- Its pool. -/
def steelPool : Addr := ⟨"steelpair", by decide, by decide⟩

/-- What that pool holds. -/
def steelAssets : DenomPair := ⟨steel, assets.first, by decide⟩

/-- A refresh reads a pool that it does not know. -/
def load (contract : Addr) : List Event :=
  ([.config, .totalShares, .denoms, .shareValue (.ofUInt32 6000)] : List PairQuery).map fun query =>
    .ask 0 (.ofList []) (.pool contract query)

/-- Two pools are listed and filled, and a refresh goes through the listing. -/
def twoPools : List Event :=
  [.call (.addPair contract assets .zero), .call (.deposit contract reserves),
    .call (.addPair steelPool steelAssets .zero), .call (.deposit steelPool reserves),
    .start, .ask 0 (.ofList []) (.page none),
    .ask 0 (.ofList []) (.page (some ⟨"usteel", "ukuji"⟩))] ++ load contract ++ load steelPool

theorem mirrors_twoPools :
    ((new settings router).run twoPools).tasks.market.Mirrors
      ((new settings router).run twoPools).chain :=
  Market.mirrors_of_toList (by decide +kernel) (by decide +kernel)

/-- The route goes through both pools (`Search.run_of_waiting`). -/
theorem route_twoPools :
    ((new settings router).run twoPools).tasks.market.route? steel assets.second =
      some ⟨[⟨steel, assets.first⟩, ⟨assets.first, assets.second⟩]⟩ := by
  have hsteel : ((new settings router).run twoPools).tasks.market.registry.tradeMap.neighbours
      steel = [assets.first] := by decide +kernel
  have hnext : ((new settings router).run twoPools).tasks.market.registry.tradeMap.neighbours
      assets.first = [assets.second, steel] := by decide +kernel
  rw [Market.route?, TradeMap.route?, if_neg (by decide),
    Search.run_of_waiting steel rfl (by rw [hsteel]; rfl),
    Search.run_of_arrived assets.first rfl (by rw [hnext]; rfl)]
  rfl

/-- What is offered for the asset at the other end. -/
def offer : Coin := ⟨.ofUInt32 100, steel⟩

theorem tradesAsPreviewed_twoPools :
    (∃ q s n,
        ((new settings router).run twoPools).tasks.market.previewSwap offer assets.second =
          .ok (some q) ∧
        ((new settings router).run twoPools).chain.asked q = .ok s ∧
        s.denom = assets.second ∧ s.amount = .ofUInt32 470 ∧
        ((new settings router).run twoPools).chain.swapThrough offer [steelPool, contract] =
          .ok (⟨s.amount, assets.second⟩, n)) ∧
      ∃ slip, ((new settings router).run twoPools).chain.previewSwaps offer [steelPool, contract] =
        .ok ⟨assets.second, .ofUInt32 470, slip⟩ := by
  obtain ⟨hpreviews, hmarket⟩ := run_tradesAsPreviewed
  have hgrounded := (grounded_new (s := settings) (by decide) router).run twoPools
  obtain ⟨hdistinct, hpays⟩ := hmarket settings router twoPools rfl
    (mirrors_twoPools.inStep hgrounded.sound.consistent)
  have hroute := route_twoPools
  have hrouter : ((new settings router).run twoPools).tasks.market.router = router := by
    decide +kernel
  have hnamed : (((new settings router).run twoPools).tasks.market.swappers
      [⟨steel, assets.first⟩, ⟨assets.first, assets.second⟩]).toOption =
        some [steelPool, contract] := by decide +kernel
  have hreplied : ((((new settings router).run twoPools).chain.asked
      (.previewSwaps router offer [steelPool, contract])).toOption.map RoutedResult.amount) =
        some (.ofUInt32 470) := by decide +kernel
  -- the run is computed above for its amounts; from here on only what was proved of it is used
  generalize (new settings router).run twoPools = w at *
  obtain ⟨swappers, hswappers, -⟩ := hdistinct _ _ _ hroute
  rw [hswappers] at hnamed
  cases hnamed
  have hpreview : w.tasks.market.previewSwap offer assets.second =
      .ok (some (.previewSwaps router offer [steelPool, contract])) := by
    unfold Market.previewSwap Market.previewRoute
    rw [show w.tasks.market.route? offer.denom assets.second = _ from hroute, hrouter]
    simp only [hswappers]
    rfl
  cases hs : w.chain.asked (.previewSwaps router offer [steelPool, contract]) with
  | error fault =>
    rw [hs] at hreplied
    cases hreplied
  | ok s =>
    rw [hs] at hreplied
    have hamount : s.amount = .ofUInt32 470 := Option.some.inj hreplied
    obtain ⟨hdenom, r, _, n, hr, hsame, hmade⟩ := hpays _ _ _ s hpreview hs
    rw [show w.tasks.market.route? offer.denom assets.second = _ from hroute] at hr
    cases hr
    rw [hswappers] at hsame
    cases hsame
    refine ⟨⟨_, s, n, hpreview, hs, hdenom, hamount, hmade⟩, ?_⟩
    rw [hamount] at hmade
    exact (hpreviews w.chain offer _ ⟨.ofUInt32 470, assets.second⟩ (by decide) (by decide)).1
      ⟨n, hmade⟩

end Sample

end Watch

end PoolMarket
