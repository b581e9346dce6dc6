import Mathlib.Logic.Relation
import Mathlib.Order.Lattice.Nat
import PoolMarket.Route

/-!
# Walks over a trade map

A walk is a list of hops that chain, each to a neighbour of the asset it leaves. It may come to an
asset more than once. What can be reached by following neighbour lists is what a walk leads to, and
the distance of an asset is the length of the shortest walk to it.

* `TradeMap.Walk` — with the ways to put walks together (`cons`, `concat`) and to take them apart
  (`uncons`, `unconcat`).
* `Walk.exists_exit` — how a walk leaves a set of assets; the one argument about walks that the
  correctness of the search needs.
* `TradeMap.dist` — only its characterization `dist_eq` is used, never the infimum.
-/

namespace PoolMarket

/-! ## Chains of hops

`Route.chains` is computed from the front. Walks are extended at both ends, so it is described from
the back as well, and without recursion for whoever states something about a route. -/

namespace Route

/-- A chain with one more hop behind it: it leads to where that hop leaves, and ends where it comes
to. By induction on the hops, as `Route.chains` goes from the front. -/
theorem chains_concat (hops : List Hop) (h : Hop) (a b : Denom) :
    chains (hops ++ [h]) a b = true ↔ chains hops a h.source = true ∧ h.target = b := by
  induction hops generalizing a with
  | nil =>
    simp only [List.nil_append, chains, Bool.and_eq_true, beq_iff_eq]
    rw [eq_comm]
  | cons g rest ih =>
    simp only [List.cons_append, chains, Bool.and_eq_true, ih, and_assoc]

/-- A chain from `a` to `b` is empty and stays there, or its first hop leaves `a`, its last one
comes to `b`, and each hop begins where the one before it ends. By induction on the hops, as
`chains` goes; the statement is what one would say of a route without knowing how it is checked. -/
theorem chains_iff (hops : List Hop) (a b : Denom) :
    chains hops a b = true ↔
      hops.IsChain (fun g h => g.target = h.source) ∧
        ((hops = [] ∧ a = b) ∨
          (hops.head?.map Hop.source = some a ∧ hops.getLast?.map Hop.target = some b)) := by
  induction hops generalizing a with
  | nil => simp [chains]
  | cons h rest ih =>
    rw [chains, Bool.and_eq_true, beq_iff_eq, ih]
    cases rest with
    | nil => simp
    | cons g more =>
      simp only [List.isChain_cons_cons, List.head?_cons, Option.map_some, Option.some.injEq,
        List.getLast?_cons_cons, reduceCtorEq, false_and, false_or]
      constructor
      · rintro ⟨hsource, hchain, htarget, hlast⟩
        exact ⟨⟨htarget.symm, hchain⟩, hsource, hlast⟩
      · rintro ⟨⟨htarget, hchain⟩, hsource, hlast⟩
        exact ⟨hsource, hchain, htarget.symm, hlast⟩

end Route

/-! ## Walks

The lemmas are those of a path in a graph. The hops are an explicit list, since it is their count
and their order that routes are compared by. -/

namespace TradeMap

/-- The second asset is in the neighbour list of the first. -/
def Trades (map : TradeMap) (a b : Denom) : Prop := b ∈ map.neighbours a

/-- Hops that chain from one asset to another, each to a neighbour. -/
structure Walk (map : TradeMap) (a b : Denom) (hops : List Hop) : Prop where
  chains : Route.chains hops a b = true
  trades : ∀ h ∈ hops, map.Trades h.source h.target

namespace Walk

variable {map : TradeMap} {a b c : Denom} {hops : List Hop}

theorem refl (map : TradeMap) (a : Denom) : map.Walk a a [] :=
  ⟨by simp [Route.chains], by simp⟩

theorem cons (hab : map.Trades a b) (hw : map.Walk b c hops) : map.Walk a c (⟨a, b⟩ :: hops) := by
  refine ⟨by simpa [Route.chains] using hw.chains, fun h hh => ?_⟩
  rcases List.mem_cons.1 hh with rfl | hh
  · exact hab
  · exact hw.trades h hh

/-- A hop behind a walk (`Route.chains_concat`), the way in which a search extends one. -/
theorem concat (hw : map.Walk a b hops) (hbc : map.Trades b c) :
    map.Walk a c (hops ++ [⟨b, c⟩]) := by
  refine ⟨(Route.chains_concat hops ⟨b, c⟩ a c).2 ⟨hw.chains, rfl⟩, fun h hh => ?_⟩
  rcases List.mem_append.1 hh with hh | hh
  · exact hw.trades h hh
  · rw [List.mem_singleton.1 hh]
    exact hbc

/-- The first hop of a walk, and the walk behind it; the step of every induction on hops
(`Walk.cons`). -/
theorem uncons {h : Hop} (hw : map.Walk a c (h :: hops)) :
    h.source = a ∧ map.Trades a h.target ∧ map.Walk h.target c hops := by
  have hchains := hw.chains
  rw [Route.chains, Bool.and_eq_true, beq_iff_eq] at hchains
  refine ⟨hchains.1, ?_, hchains.2, fun g hg => hw.trades g (List.mem_cons_of_mem h hg)⟩
  rw [← hchains.1]
  exact hw.trades h List.mem_cons_self

/-- The last hop of a walk, and the walk before it, which comes to where that hop leaves
(`Route.chains_concat`). -/
theorem unconcat {h : Hop} (hw : map.Walk a c (hops ++ [h])) :
    map.Walk a h.source hops ∧ map.Trades h.source h.target ∧ h.target = c := by
  have hchains := (Route.chains_concat hops h a c).1 hw.chains
  refine ⟨⟨hchains.1, fun g hg => ?_⟩, ?_, hchains.2⟩
  · exact hw.trades g (List.mem_append_left [h] hg)
  · exact hw.trades h (List.mem_append_right hops (List.mem_singleton_self h))

theorem of_neighbours {map' : TradeMap} (hw : map.Walk a b hops)
    (hsame : ∀ d, map'.neighbours d = map.neighbours d) : map'.Walk a b hops := by
  refine ⟨hw.chains, fun h hh => ?_⟩
  rw [Trades, hsame]
  exact hw.trades h hh

theorem eq_of_nil (hw : map.Walk a b []) : a = b := by
  simpa [Route.chains] using hw.chains

/-- A walk out of a set of assets leaves it by some hop, and gets no shorter behind it. By induction
on the hops: either the first one stays inside, or it is the one. With the visited assets for the
set, this bounds what a search can have missed (`Walk.uncons`). -/
theorem exists_exit (inside : Denom → Prop) (hw : map.Walk a b hops) (ha : inside a)
    (hb : ¬ inside b) :
    ∃ before x y, map.Walk a x before ∧ inside x ∧ map.Trades x y ∧ ¬ inside y ∧
      before.length + 1 ≤ hops.length := by
  induction hops generalizing a with
  | nil =>
    rw [hw.eq_of_nil] at ha
    exact absurd ha hb
  | cons h rest ih =>
    obtain ⟨-, htrades, hrest⟩ := hw.uncons
    by_cases hin : inside h.target
    · -- the walk is still inside behind its first hop
      obtain ⟨before, x, y, hbefore, hx, hxy, hy, hlen⟩ := ih hrest hin
      refine ⟨⟨a, h.target⟩ :: before, x, y, hbefore.cons htrades, hx, hxy, hy, ?_⟩
      simpa using hlen
    · exact ⟨[], a, h.target, refl map a, ha, htrades, hin, by simp⟩

end Walk

/-- What walks lead to is what following neighbour lists reaches, as the reflexive and transitive
closure has it (`Relation.ReflTransGen`). -/
theorem exists_walk_iff {map : TradeMap} {a b : Denom} :
    (∃ hops, map.Walk a b hops) ↔ Relation.ReflTransGen map.Trades a b := by
  constructor
  · rintro ⟨hops, hw⟩
    induction hops generalizing a with
    | nil => rw [hw.eq_of_nil]
    | cons h rest ih =>
      obtain ⟨-, htrades, hrest⟩ := hw.uncons
      exact (ih hrest).head htrades
  · intro h
    induction h with
    | refl => exact ⟨[], Walk.refl map a⟩
    | tail _ htrades ih =>
      obtain ⟨hops, hw⟩ := ih
      exact ⟨_, hw.concat htrades⟩

/-! ## Distances

A distance is only ever compared with the lengths of walks, so it is an infimum without a witness.
Where no walk leads it is zero, which no lemma relies on. -/

/-- The length of the shortest walk between two assets. -/
noncomputable def dist (map : TradeMap) (a b : Denom) : Nat :=
  sInf {n | ∃ hops, map.Walk a b hops ∧ hops.length = n}

theorem Walk.dist_le {map : TradeMap} {a b : Denom} {hops : List Hop} (hw : map.Walk a b hops) :
    map.dist a b ≤ hops.length :=
  Nat.sInf_le ⟨hops, hw, rfl⟩

/-- A length that no walk undercuts and one walk has is the distance (`Walk.dist_le` one way). -/
theorem dist_eq {map : TradeMap} {a b : Denom} {hops : List Hop} (hw : map.Walk a b hops)
    (hmin : ∀ other, map.Walk a b other → hops.length ≤ other.length) :
    map.dist a b = hops.length := by
  refine Nat.le_antisymm hw.dist_le (le_csInf ⟨_, hops, hw, rfl⟩ ?_)
  rintro n ⟨other, hother, rfl⟩
  exact hmin other hother

theorem dist_self (map : TradeMap) (a : Denom) : map.dist a a = 0 :=
  Nat.le_zero.1 (Walk.refl map a).dist_le

end TradeMap

end PoolMarket
