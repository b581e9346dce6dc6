import PoolMarket.Proofs.Market.Swaps

/-!
# The registry in its trade map

A trade map lists for each asset what it trades against. It holds just the assets of the registered
pairs, and its lists keep the order of the pairs: by the key of the first pair that two assets have,
whichever of them that one lists first. That need not be the order of the assets themselves.

* `First` — the first pair of two assets; `Proper.exists_first` finds it.
* `Proper.first_lt` — of two neighbours, the one that is met earlier has the smaller first key.
* `MapsTrades` — what a trade map tells of its registry.
-/

namespace PoolMarket

namespace Registry

variable {r : Registry} {p q : Loaded} {a b c : Denom}

/-! ## First pairs

The trade map is charted pair by pair in the order of keys (`Proper.ordered_all`), and a neighbour
is put behind the others when it is first met. So its place is that of the first pair. -/

/-- The first pair of two assets, in whichever order it lists them. -/
structure First (r : Registry) (p : Loaded) (a b : Denom) : Prop where
  joins : r.Lists p a b ∨ r.Lists p b a
  least : ∀ q, r.Lists q a b ∨ r.Lists q b a →
    (compare p.pair.assets.key q.pair.assets.key).isLE = true

/-- A pair is of two assets if it is registered and the second is its other asset than the first
(`lists_or_iff`). -/
theorem joins_iff :
    r.Lists p a b ∨ r.Lists p b a ↔ p ∈ r.all ∧ p.pair.assets.other? a = some b := by
  rw [lists_or_iff, mem_all]
  constructor
  · rintro ⟨key, hget, hother⟩
    exact ⟨⟨key, hget⟩, hother⟩
  · rintro ⟨⟨key, hget⟩, hother⟩
    exact ⟨key, hget, hother⟩

/-- All pairs stand in the order of their own keys: the tree has them by key, and each is under its
own. -/
theorem Proper.ordered_all (hr : r.Proper) :
    r.all.Pairwise fun p q => compare p.pair.assets.key q.pair.assets.key = .lt := by
  have hkey (entry : PairKey × Loaded) (hmem : entry ∈ r.byKey.toList) :
      entry.2.pair.assets.key = entry.1 :=
    hr.keyed _ _ (Std.TreeMap.mem_toList_iff_getElem?_eq_some.1 hmem)
  rw [all, List.pairwise_map]
  refine Std.TreeMap.ordered_keys_toList.imp_of_mem fun hp hq hless => ?_
  rw [hkey _ hp, hkey _ hq]
  exact hless

/-- Linked assets have a first pair. The list of all pairs is cut where it is found, and what stands
in front of it is not of the two assets (`Proper.ordered_all`). -/
theorem Proper.exists_first (hr : r.Proper) (h : r.Linked a b) : ∃ p, r.First p a b := by
  obtain ⟨q, hq⟩ := h
  obtain ⟨hall, hother⟩ := joins_iff.1 hq
  have hsome : (r.all.find? fun p => p.pair.assets.other? a == some b).isSome = true :=
    List.find?_isSome.2 ⟨q, hall, beq_iff_eq.2 hother⟩
  obtain ⟨p, hp⟩ := Option.isSome_iff_exists.1 hsome
  obtain ⟨hfound, before, behind, hsplit, hnone⟩ := List.find?_eq_some_iff_append.1 hp
  have hmem : p ∈ r.all := hsplit ▸ List.mem_append_right before List.mem_cons_self
  refine ⟨p, joins_iff.2 ⟨hmem, beq_iff_eq.1 hfound⟩, fun q hq => ?_⟩
  obtain ⟨hall, hother⟩ := joins_iff.1 hq
  -- no pair of the two is in front of the one that is found
  rw [hsplit] at hall
  rcases List.mem_append.1 hall with hbefore | hrest
  · have hmiss := hnone q hbefore
    rw [hother] at hmiss
    simp at hmiss
  · rcases List.mem_cons.1 hrest with rfl | hbehind
    · exact Std.ReflCmp.isLE_rfl
    · have hordered := hr.ordered_all
      rw [hsplit, List.pairwise_append] at hordered
      rw [(List.pairwise_cons.1 hordered.2.1).1 q hbehind]
      rfl

/-- What a pair is met of earlier has the smaller first key. The list is cut behind the pair that is
met (`TradeMap.Earlier`), and what is behind has greater keys (`Proper.ordered_all`). -/
theorem Proper.first_lt (hr : r.Proper)
    (hearlier : TradeMap.Earlier (r.all.map fun p => p.pair.assets) a b c) (hp : r.First p a b)
    (hq : r.First q a c) : compare p.pair.assets.key q.pair.assets.key = .lt := by
  obtain ⟨_, ⟨_, hsplit⟩, ⟨_, hmet, hother⟩, hunmet⟩ := hearlier
  obtain ⟨before, behind, hall, rfl, -⟩ := List.map_eq_append_iff.1 hsplit.symm
  obtain ⟨early, hearly, rfl⟩ := List.mem_map.1 hmet
  obtain ⟨hqall, hqother⟩ := joins_iff.1 hq.joins
  have hbehind : q ∈ behind := by
    rw [hall] at hqall
    refine (List.mem_append.1 hqall).resolve_left fun hbefore => ?_
    exact hunmet _ (List.mem_map_of_mem hbefore) hqother
  have hordered := hr.ordered_all
  rw [hall, List.pairwise_append] at hordered
  have hless := hordered.2.2 early hearly q hbehind
  have hmem : early ∈ r.all := hall ▸ List.mem_append_left behind hearly
  exact Std.TransCmp.lt_of_isLE_of_lt (hp.least early (joins_iff.2 ⟨hmem, hother⟩)) hless

/-! ## What the map tells -/

/-- The trade map shows the registered pairs. -/
structure MapsTrades (r : Registry) : Prop where
  keys : ∀ d, d ∈ r.tradeMap ↔ ∃ p ∈ r.all, p.pair.assets.first = d ∨ p.pair.assets.second = d
  neighbours : ∀ a b, b ∈ r.tradeMap.neighbours a ↔ r.Linked a b
  once : ∀ a, (r.tradeMap.neighbours a).Nodup
  /-- The neighbours of an asset stand in the order of the first pairs it has with them. -/
  inOrder : ∀ a, (r.tradeMap.neighbours a).Pairwise fun b c =>
    ∃ p q, r.First p a b ∧ r.First q a c ∧ compare p.pair.assets.key q.pair.assets.key = .lt
  symmetric : ∀ a b, b ∈ r.tradeMap.neighbours a → a ∈ r.tradeMap.neighbours b
  hasAssets : ∀ ds, r.hasAssets ds = true ↔ ∀ d ∈ ds, d ∈ r.tradeMap

/-- An asset is in the trade map if some pair contains it (`charts_tradeMap`). -/
theorem mem_tradeMap {d : Denom} : d ∈ r.tradeMap ↔ ∃ p ∈ r.all, p.pair.assets.contains d = true := by
  rw [r.charts_tradeMap.keys]
  simp only [List.mem_map, exists_exists_and_eq_and]

theorem Proper.mapsTrades (hr : r.Proper) : r.MapsTrades where
  keys d := by
    rw [mem_tradeMap]
    simp only [DenomPair.contains_iff]
  neighbours _ _ := linked_iff.symm
  once := r.charts_tradeMap.nodup
  inOrder a := by
    refine (r.charts_tradeMap.inOrder a).imp_of_mem fun hb hc hearlier => ?_
    obtain ⟨p, hp⟩ := hr.exists_first (linked_iff.2 hb)
    obtain ⟨q, hq⟩ := hr.exists_first (linked_iff.2 hc)
    exact ⟨p, q, hp, hq, hr.first_lt hearlier hp hq⟩
  symmetric _ _ hb := linked_iff.1 (linked_iff.2 hb).symm
  hasAssets ds := by
    rw [hasAssets, List.all_eq_true]
    simp only [trades, List.any_eq_true, mem_tradeMap]

end Registry

namespace Market.Sample

/-! ### Neighbours that do not stand in their own order -/

/-- A neighbour that comes behind `atom` in the order of denoms. -/
def juno : Denom := .native "ujuno"

/-- Listed by the neighbour first. -/
def fromJuno : Loaded := load 3 ⟨"fromjuno", by decide, by decide⟩ ⟨juno, sei, by decide⟩

/-- Listed by the common asset first. -/
def toJuno : Loaded := load 4 ⟨"tojuno", by decide, by decide⟩ ⟨sei, juno, by decide⟩

/-- Two assets are registered in both orders, around a pair of one of them and a third. -/
def star : Registry :=
  (((Registry.empty.register toJuno).1.register there).1.register fromJuno).1

theorem mapsTrades_star :
    star.Proper ∧ star.tradeMap.neighbours sei = [juno, atom] ∧
      (∃ p q, star.First p sei juno ∧ star.First q sei atom ∧
        compare p.pair.assets.key q.pair.assets.key = .lt) ∧
      compare atom juno = .lt ∧ (∀ d ∈ [sei, juno, atom], d ∈ star.tradeMap) ∧
      usdc ∉ star.tradeMap := by
  have hsei : sei.Validated := ⟨"usei", by decide⟩
  have hatom : atom.Validated := ⟨"uatom", by decide⟩
  have hjuno : juno.Validated := ⟨"ujuno", by decide⟩
  have hproper : star.Proper :=
    ((Registry.proper_empty.register ⟨hsei, hjuno⟩).register ⟨hsei, hatom⟩).register ⟨hjuno, hsei⟩
  have hmaps := hproper.mapsTrades
  have hneighbours : star.tradeMap.neighbours sei = [juno, atom] := by decide +kernel
  have horder := hmaps.inOrder sei
  rw [hneighbours, List.pairwise_pair] at horder
  refine ⟨hproper, hneighbours, horder, by decide +kernel,
    (hmaps.hasAssets _).1 (by decide +kernel), fun husdc => ?_⟩
  have hall : star.hasAssets [usdc] = true := (hmaps.hasAssets _).2 (by simpa using husdc)
  exact absurd hall (by decide +kernel)

end Market.Sample

end PoolMarket
