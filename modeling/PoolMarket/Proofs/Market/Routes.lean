import Mathlib.Data.List.Forall2
import PoolMarket.Market.Trade
import PoolMarket.Proofs.Asset.Validated
import PoolMarket.Proofs.Route.Walk

/-!
# Routes through a registry

The trade map has an edge where a pair of its two assets is registered, in whichever order. So each
hop of a route has a pair that serves it, and the contracts along the route can be named.

* `TradeMap.Charts` — what a trade map tells of the pairs it was built from, in their order;
  `Charts.enter` is the step and `charts_foldl` the induction.
* `Registry.Linked`, `linked_iff` — the edges, in terms of registered pairs.
* `Registry.Prefers` — which pair serves a hop; `Proper.find?_of_linked` and `exists_swappers` find
  it for one hop and for a row of them.
-/

namespace PoolMarket

/-! ## The trade map

Each pair links both its assets. What the map tells follows by induction on the pairs, the last one
taken off: for every asset, that one brings a new neighbour or it changes nothing. -/

namespace TradeMap

variable {map : TradeMap} {p : DenomPair} {ps : List DenomPair} {x y a b d : Denom}

theorem mem_link : d ∈ map.link x y ↔ x = d ∨ d ∈ map := by
  unfold link
  rw [Std.TreeMap.mem_insert, Std.compare_eq_iff_eq]

theorem neighbours_link_self (map : TradeMap) (x y : Denom) :
    (map.link x y).neighbours x =
      if y ∈ map.neighbours x then map.neighbours x else map.neighbours x ++ [y] :=
  Std.TreeMap.getD_insert_self

theorem neighbours_link_of_ne (h : x ≠ a) : (map.link x y).neighbours a = map.neighbours a := by
  unfold link neighbours
  simp only [Std.TreeMap.getD_insert, Std.compare_eq_iff_eq, if_neg h]

/-- Links the two assets of a pair. -/
def enter (map : TradeMap) (p : DenomPair) : TradeMap :=
  (map.link p.first p.second).link p.second p.first

/-- A pair puts its two assets into the map (`mem_link`, for each). -/
theorem mem_enter : d ∈ map.enter p ↔ d ∈ map ∨ p.contains d = true := by
  rw [enter, mem_link, mem_link, DenomPair.contains_iff]
  constructor
  · rintro (hsecond | hfirst | hmem)
    · exact Or.inr (Or.inr hsecond)
    · exact Or.inr (Or.inl hfirst)
    · exact Or.inl hmem
  · rintro (hmem | hfirst | hsecond)
    · exact Or.inr (Or.inr hmem)
    · exact Or.inr (Or.inl hfirst)
    · exact Or.inl hsecond

/-- The other asset of a pair becomes a neighbour, unless it is one. The second link of the two is
for the other asset, so only one of them shows here (`neighbours_link_of_ne`). -/
theorem neighbours_enter (h : p.other? a = some b) :
    (map.enter p).neighbours a =
      if b ∈ map.neighbours a then map.neighbours a else map.neighbours a ++ [b] := by
  unfold enter
  rcases DenomPair.other?_eq_some_iff.1 h with ⟨rfl, rfl⟩ | ⟨rfl, rfl⟩
  · rw [neighbours_link_of_ne p.distinct.symm, neighbours_link_self]
  · rw [neighbours_link_self, neighbours_link_of_ne p.distinct]

/-- A pair that does not have the asset leaves its neighbours alone (`neighbours_link_of_ne`). -/
theorem neighbours_enter_of_none (h : p.other? a = none) :
    (map.enter p).neighbours a = map.neighbours a := by
  have hapart (b : Denom) : ¬ ((p.first = a ∧ p.second = b) ∨ (p.second = a ∧ p.first = b)) := by
    rw [← DenomPair.other?_eq_some_iff, h]
    exact nofun
  have hfirst : p.first ≠ a := fun heq => hapart p.second (Or.inl ⟨heq, rfl⟩)
  have hsecond : p.second ≠ a := fun heq => hapart p.first (Or.inr ⟨heq, rfl⟩)
  rw [enter, neighbours_link_of_ne hsecond, neighbours_link_of_ne hfirst]

/-- A pair has nothing new for an asset, or one new neighbour that comes behind the others. All
later proofs go by these two cases (`neighbours_enter`, `neighbours_enter_of_none`). -/
theorem neighbours_enter_cases (map : TradeMap) (p : DenomPair) (a : Denom) :
    ((map.enter p).neighbours a = map.neighbours a ∧
        ∀ b, p.other? a = some b → b ∈ map.neighbours a) ∨
      ∃ b, p.other? a = some b ∧ b ∉ map.neighbours a ∧
        (map.enter p).neighbours a = map.neighbours a ++ [b] := by
  cases hother : p.other? a with
  | none => exact Or.inl ⟨neighbours_enter_of_none hother, fun _ hb => nomatch hb⟩
  | some b =>
    rw [neighbours_enter hother]
    by_cases hknown : b ∈ map.neighbours a
    · rw [if_pos hknown]
      exact Or.inl ⟨rfl, fun _ hb => Option.some.inj hb ▸ hknown⟩
    · rw [if_neg hknown]
      exact Or.inr ⟨b, rfl, hknown, rfl⟩

/-- Along some pairs there is a time when one of `a` and `b` has come and none of `a` and `c`. -/
def Earlier (ps : List DenomPair) (a b c : Denom) : Prop :=
  ∃ before, before <+: ps ∧ (∃ p ∈ before, p.other? a = some b) ∧
    ∀ q ∈ before, q.other? a ≠ some c

/-- The map tells which assets some pairs trade, and in which order they have come. -/
structure Charts (map : TradeMap) (ps : List DenomPair) : Prop where
  keys : ∀ d, d ∈ map ↔ ∃ p ∈ ps, p.contains d = true
  neighbours : ∀ a b, b ∈ map.neighbours a ↔ ∃ p ∈ ps, p.other? a = some b
  nodup : ∀ a, (map.neighbours a).Nodup
  inOrder : ∀ a, (map.neighbours a).Pairwise (Earlier ps a)

theorem charts_empty : Charts ∅ [] where
  keys d := by simp
  neighbours a b := by simp [TradeMap.neighbours]
  nodup a := by simp [TradeMap.neighbours]
  inOrder a := by simp [TradeMap.neighbours]

/-- One more pair, behind the others. A neighbour that is new with it comes last, and before this
pair all the others have come (`Earlier`). -/
theorem Charts.enter (h : map.Charts ps) (p : DenomPair) : (map.enter p).Charts (ps ++ [p]) := by
  have hlast (P : DenomPair → Prop) : (∃ q ∈ ps ++ [p], P q) ↔ (∃ q ∈ ps, P q) ∨ P p := by
    simp [or_and_right, exists_or]
  have hgrown (a : Denom) : (map.neighbours a).Pairwise (Earlier (ps ++ [p]) a) :=
    (h.inOrder a).imp fun ⟨before, hbefore, hmet⟩ =>
      ⟨before, hbefore.trans (List.prefix_append ..), hmet⟩
  refine ⟨fun d => ?_, fun a b => ?_, fun a => ?_, fun a => ?_⟩
  · rw [mem_enter, h.keys, hlast]
  · rw [hlast, ← h.neighbours]
    rcases map.neighbours_enter_cases p a with ⟨hsame, hknown⟩ | ⟨new, hother, -, hnew⟩
    · rw [hsame]
      exact ⟨Or.inl, fun hb => hb.elim id (hknown b)⟩
    · rw [hnew, hother, List.mem_append, List.mem_singleton, Option.some.injEq, eq_comm (a := b)]
  · rcases map.neighbours_enter_cases p a with ⟨hsame, -⟩ | ⟨new, -, hunknown, hnew⟩
    · rw [hsame]
      exact h.nodup a
    · rw [hnew]
      exact (h.nodup a).append (List.nodup_singleton new)
        (List.disjoint_singleton.2 hunknown)
  · rcases map.neighbours_enter_cases p a with ⟨hsame, -⟩ | ⟨new, -, hunknown, hnew⟩
    · rw [hsame]
      exact hgrown a
    · rw [hnew, List.pairwise_append]
      refine ⟨hgrown a, List.pairwise_singleton _ _, fun b hb c hc => ?_⟩
      -- before this pair all the others have come, and the new neighbour has not
      rw [List.mem_singleton.1 hc]
      refine ⟨ps, List.prefix_append .., (h.neighbours a b).1 hb, fun q hq hcame => ?_⟩
      exact hunknown ((h.neighbours a new).2 ⟨q, hq, hcame⟩)

/-- The map of some pairs charts them, by induction with the last one taken off (`Charts.enter`). -/
theorem charts_foldl (ps : List DenomPair) : (ps.foldl TradeMap.enter ∅).Charts ps := by
  induction ps using List.reverseRecOn with
  | nil => exact charts_empty
  | append_singleton ps p ih =>
    rw [List.foldl_append]
    exact ih.enter p

end TradeMap

namespace Registry

/-- The pairs are under the keys of their assets, which are validated. -/
structure Proper (r : Registry) : Prop where
  keyed : ∀ key p, r.get? key = some p → p.pair.assets.key = key
  validated : ∀ key p, r.get? key = some p → p.pair.assets.Validated

variable {r : Registry}

/-- All pairs are those under some key. By membership in the list of a tree (`Registry.all`). -/
theorem mem_all {p : Loaded} : p ∈ r.all ↔ ∃ key, r.get? key = some p := by
  unfold all
  rw [List.mem_map]
  constructor
  · rintro ⟨⟨key, q⟩, hmem, rfl⟩
    exact ⟨key, Std.TreeMap.mem_toList_iff_getElem?_eq_some.1 hmem⟩
  · rintro ⟨key, hget⟩
    exact ⟨(key, p), Std.TreeMap.mem_toList_iff_getElem?_eq_some.2 hget, rfl⟩

/-- The trade map of a registry charts its pairs in key order (`TradeMap.charts_foldl`). -/
theorem charts_tradeMap (r : Registry) :
    r.tradeMap.Charts (r.all.map fun p => p.pair.assets) := by
  have hfold : r.tradeMap = (r.all.map fun p => p.pair.assets).foldl TradeMap.enter ∅ := by
    rw [List.foldl_map]
    rfl
  rw [hfold]
  exact TradeMap.charts_foldl _

/-- Two assets are neighbours just if a pair of them is registered, in one order or the other
(`charts_tradeMap`, `mem_all`). -/
theorem mem_neighbours_tradeMap {a b : Denom} :
    b ∈ r.tradeMap.neighbours a ↔
      ∃ key p, r.get? key = some p ∧ p.pair.assets.other? a = some b := by
  rw [r.charts_tradeMap.neighbours]
  simp only [List.mem_map, exists_exists_and_eq_and, mem_all]
  constructor
  · rintro ⟨p, ⟨key, hget⟩, hother⟩
    exact ⟨key, p, hget, hother⟩
  · rintro ⟨key, p, hget, hother⟩
    exact ⟨p, ⟨key, hget⟩, hother⟩

/-- Neighbours are assets of a registered pair, so they are validated
(`mem_neighbours_tradeMap`). -/
theorem Proper.validated_of_neighbours (hr : r.Proper) {a b : Denom}
    (h : b ∈ r.tradeMap.neighbours a) : a.Validated ∧ b.Validated := by
  obtain ⟨key, p, hget, hother⟩ := mem_neighbours_tradeMap.1 h
  obtain ⟨hfirst, hsecond⟩ := hr.validated key p hget
  rcases DenomPair.other?_eq_some_iff.1 hother with ⟨rfl, rfl⟩ | ⟨rfl, rfl⟩
  · exact ⟨hfirst, hsecond⟩
  · exact ⟨hsecond, hfirst⟩

/-! ## The graph of the pairs

Edges have no direction, but pairs do: a hop is served by the pair that lists its two assets in
this order, if there is one, and else by the inverse. What is found for two texts is of these assets
only if their denoms are genuine, as the lemmas ask. -/

/-- The pair is registered, with the one asset listed first and the other second. -/
def Lists (r : Registry) (p : Loaded) (a b : Denom) : Prop :=
  p ∈ r.all ∧ p.pair.assets.first = a ∧ p.pair.assets.second = b

/-- A pair of the two assets is registered, in one order or the other. -/
def Linked (r : Registry) (a b : Denom) : Prop := ∃ p, r.Lists p a b ∨ r.Lists p b a

theorem Linked.symm {a b : Denom} (h : r.Linked a b) : r.Linked b a := by
  obtain ⟨p, hp⟩ := h
  exact ⟨p, hp.symm⟩

/-- A registered pair of two assets is one in which the one is the other of the two
(`DenomPair.other?_eq_some_iff`). -/
theorem lists_or_iff {p : Loaded} {a b : Denom} :
    r.Lists p a b ∨ r.Lists p b a ↔
      ∃ key, r.get? key = some p ∧ p.pair.assets.other? a = some b := by
  rw [DenomPair.other?_eq_some_iff]
  constructor
  · rintro (⟨hall, hfirst, hsecond⟩ | ⟨hall, hfirst, hsecond⟩)
    · obtain ⟨key, hget⟩ := mem_all.1 hall
      exact ⟨key, hget, Or.inl ⟨hfirst, hsecond⟩⟩
    · obtain ⟨key, hget⟩ := mem_all.1 hall
      exact ⟨key, hget, Or.inr ⟨hsecond, hfirst⟩⟩
  · rintro ⟨key, hget, ⟨hfirst, hsecond⟩ | ⟨hsecond, hfirst⟩⟩
    · exact Or.inl ⟨mem_all.2 ⟨key, hget⟩, hfirst, hsecond⟩
    · exact Or.inr ⟨mem_all.2 ⟨key, hget⟩, hfirst, hsecond⟩

/-- Linked assets are neighbours in the trade map (`mem_neighbours_tradeMap`). -/
theorem linked_iff {a b : Denom} : r.Linked a b ↔ b ∈ r.tradeMap.neighbours a := by
  rw [mem_neighbours_tradeMap]
  constructor
  · rintro ⟨p, hlists⟩
    obtain ⟨key, hpair⟩ := lists_or_iff.1 hlists
    exact ⟨key, p, hpair⟩
  · rintro ⟨key, p, hpair⟩
    exact ⟨p, lists_or_iff.2 ⟨key, hpair⟩⟩

/-- The contract of a pair of two assets: of the one that lists them in this order, or else, where
none does, of the one that lists them in the other. -/
inductive Prefers (r : Registry) (a b : Denom) (contract : Addr) : Prop where
  | listed (p : Loaded) (hlists : r.Lists p a b) (hcontract : p.pair.contract = contract)
  | inverse (p : Loaded) (hlists : r.Lists p b a) (hcontract : p.pair.contract = contract)
      (hnone : ∀ q, ¬ r.Lists q a b)

/-- What is preferred is a registered pair, with the target across from the source. By the two ways
in which a pair can be preferred (`Prefers`). -/
theorem Prefers.exists_get? {a b : Denom} {contract : Addr} (h : r.Prefers a b contract) :
    ∃ key p, r.get? key = some p ∧ p.pair.contract = contract ∧
      p.pair.assets.other? a = some b := by
  cases h with
  | listed p hlists hcontract =>
    obtain ⟨key, hget, hother⟩ := lists_or_iff.1 (Or.inl hlists)
    exact ⟨key, p, hget, hcontract, hother⟩
  | inverse p hlists hcontract =>
    obtain ⟨key, hget, hother⟩ := lists_or_iff.1 (Or.inr hlists)
    exact ⟨key, p, hget, hcontract, hother⟩

/-- What is under the key of two genuine assets is a pair of them, since the key tells a validated
pair (`DenomPair.Genuine.eq_of_key`). For a coin that looks like a token this fails: its key is that
of the token. -/
theorem Proper.assets_of_get? (hr : r.Proper) {assets : DenomPair} (hgenuine : assets.Genuine)
    {p : Loaded} (hget : r.get? assets.key = some p) : p.pair.assets = assets :=
  hgenuine.eq_of_key (hr.validated _ p hget) (hr.keyed _ p hget)

/-- The pair of linked assets is under their key, in the order in which it lists them
(`Proper.assets_of_get?`). -/
theorem Proper.lists_iff (hr : r.Proper) {assets : DenomPair} (hvalid : assets.Validated)
    {p : Loaded} :
    r.Lists p assets.first assets.second ↔ r.get? assets.key = some p := by
  constructor
  · rintro ⟨hall, hfirst, hsecond⟩
    obtain ⟨key, hget⟩ := mem_all.1 hall
    have hassets : p.pair.assets = assets := DenomPair.ext hfirst hsecond
    rw [← hassets, hr.keyed key p hget, hget]
  · intro hget
    have hassets := hr.assets_of_get? hvalid.genuine hget
    exact ⟨mem_all.2 ⟨_, hget⟩, by rw [hassets], by rw [hassets]⟩

/-- Of linked assets a pair is found, and it is the preferred one. Where nothing is under the key of
this order, the pair that links them lists them the other way round (`Proper.lists_iff`). -/
theorem Proper.find?_of_linked (hr : r.Proper) (assets : DenomPair)
    (h : r.Linked assets.first assets.second) :
    ∃ p, r.find? assets true = some p ∧
      r.Prefers assets.first assets.second p.pair.contract := by
  have hvalid : assets.Validated := hr.validated_of_neighbours (linked_iff.1 h)
  have hinverse : assets.inverse.Validated := ⟨hvalid.2, hvalid.1⟩
  unfold find?
  cases hexact : r.get? assets.key with
  | some p => exact ⟨p, rfl, .listed p ((hr.lists_iff hvalid).2 hexact) rfl⟩
  | none =>
    -- the pair that links them lists them the other way round
    have hnone : ∀ q, ¬ r.Lists q assets.first assets.second := by
      intro q hq
      rw [(hr.lists_iff hvalid).1 hq] at hexact
      cases hexact
    obtain ⟨p, hp⟩ := h
    have hp : r.Lists p assets.second assets.first := hp.resolve_left (hnone p)
    exact ⟨p, (hr.lists_iff hinverse).1 hp, .inverse p hp rfl hnone⟩

/-- The ends of a route that is not empty are validated, being neighbours of other assets
(`validated_of_neighbours`). -/
theorem Proper.validated_of_walk (hr : r.Proper) {source target : Denom} {hops : List Hop}
    (hwalk : r.tradeMap.Walk source target hops) (hne : source ≠ target) :
    source.Validated ∧ target.Validated := by
  obtain ⟨-, hends⟩ := (Route.chains_iff hops source target).1 hwalk.chains
  obtain ⟨hsource, htarget⟩ := hends.resolve_left fun h => hne h.2
  obtain ⟨first, hfirst, rfl⟩ := Option.map_eq_some_iff.1 hsource
  obtain ⟨last, hlast, rfl⟩ := Option.map_eq_some_iff.1 htarget
  exact ⟨(hr.validated_of_neighbours (hwalk.trades first (List.mem_of_head? hfirst))).1,
    (hr.validated_of_neighbours (hwalk.trades last (List.mem_of_getLast? hlast))).2⟩

end Registry

namespace Market

variable {m : Market}

/-- A hop is served by what is found for its two assets, on the side on which its source is listed.
By the steps of `Market.serving?`. -/
theorem serving_eq_ok {h : Hop} {p : Pair} {side : Side} :
    m.serving h = .ok (p, side) ↔
      ∃ (hdistinct : h.source ≠ h.target) (loaded : Loaded),
        m.registry.find? ⟨h.source, h.target, hdistinct⟩ true = some loaded ∧ loaded.pair = p ∧
          (if loaded.pair.assets.first = h.source then Side.first else .second) = side := by
  have hserved : m.serving h = .ok (p, side) ↔ m.serving? h = some (p, side) := by
    unfold serving
    cases m.serving? h with
    | none => simp
    | some found => simp
  rw [hserved, serving?, DenomPair.ofDenoms]
  -- a hop from an asset to itself has no pair at all
  by_cases hsame : h.source = h.target
  · rw [dif_pos hsame]
    constructor
    · intro hnone
      cases hnone
    · rintro ⟨hdistinct, -⟩
      exact absurd hsame hdistinct
  · rw [dif_neg hsame, show (Except.ok _ : Outcome DenomPair).toOption = some _ from rfl]
    simp only [Option.bind_eq_bind, Option.bind_some, find?, Option.bind_eq_some_iff,
      Option.map_eq_some_iff, Option.pure_def, Option.some.injEq, Prod.mk.injEq]
    constructor
    · rintro ⟨_, ⟨loaded, hfind, rfl⟩, rfl, hside⟩
      exact ⟨hsame, loaded, hfind, rfl, hside⟩
    · rintro ⟨_, loaded, hfind, rfl, hside⟩
      exact ⟨_, ⟨loaded, hfind, rfl⟩, rfl, hside⟩

/-- A hop between neighbours is served by the preferred pair of its assets
(`Proper.find?_of_linked`). -/
theorem exists_serving (hm : m.registry.Proper) {h : Hop}
    (htrades : h.target ∈ m.registry.tradeMap.neighbours h.source) :
    ∃ p side, m.serving h = .ok (p, side) ∧
      m.registry.Prefers h.source h.target p.contract := by
  have hlinked := Registry.linked_iff.2 htrades
  have hdistinct : h.source ≠ h.target := by
    obtain ⟨p, ⟨-, hfirst, hsecond⟩ | ⟨-, hfirst, hsecond⟩⟩ := hlinked
    · exact hfirst ▸ hsecond ▸ p.pair.assets.distinct
    · exact hfirst ▸ hsecond ▸ p.pair.assets.distinct.symm
  obtain ⟨p, hfind, hprefers⟩ := hm.find?_of_linked ⟨h.source, h.target, hdistinct⟩ hlinked
  exact ⟨p.pair, _, serving_eq_ok.2 ⟨hdistinct, p, hfind, rfl, rfl⟩, hprefers⟩

/-- Along hops between neighbours the contracts can be named, each of the preferred pair. By
induction on the hops (`exists_serving`). -/
theorem exists_swappers (hm : m.registry.Proper) {hops : List Hop}
    (htrades : ∀ h ∈ hops, h.target ∈ m.registry.tradeMap.neighbours h.source) :
    ∃ swappers, m.swappers hops = .ok swappers ∧
      List.Forall₂ (fun h c => m.registry.Prefers h.source h.target c) hops swappers := by
  induction hops with
  | nil => exact ⟨[], rfl, .nil⟩
  | cons h rest ih =>
    obtain ⟨p, side, hserving, hprefers⟩ := exists_serving hm (htrades h List.mem_cons_self)
    obtain ⟨swappers, hswappers, hrest⟩ :=
      ih fun hop hhop => htrades hop (List.mem_cons_of_mem h hhop)
    refine ⟨p.contract :: swappers, ?_, .cons hprefers hrest⟩
    rw [Market.swappers, hserving, hswappers]
    rfl

end Market

end PoolMarket
