import Mathlib.Data.List.Forall2
import PoolMarket.Proofs.Chain.PoolHistory
import PoolMarket.Proofs.Chain.Pricing
import PoolMarket.Route

/-!
# Swaps through pools in a row

The router previews a row of swaps with every pool as it is now. When the swaps are made, each
changes its own pool and no other. So through pools that are pairwise distinct the preview succeeds
just where the swaps do, and then tells what the last of them pays.

* `swapThrough` — the row of swaps as it is executed, pool after pool.
* `exists_swapThrough_iff` — preview and execution, for distinct pools.
* `Serves`, `nodup_of_serves` — the pools of a route are distinct, because a route comes to no asset
  twice.
-/

namespace PoolMarket

namespace Chain

/-- An offer that has a price is of an asset of the pool, so there is another one to pay in, and the
fault behind that case distinction never arises (`DenomPair.other?`). -/
theorem Pool.exists_other {p : Pool} {offer : Coin} {result : SwapResult}
    (h : p.quoteSwap offer = .ok result) : ∃ next, p.assets.other? offer.denom = some next := by
  obtain ⟨side, hside, -⟩ := quoteSwap_eq_ok.1 h
  rw [DenomPair.other?, hside]
  exact ⟨_, rfl⟩

namespace Ledger

/-- Swaps through some pools in a row, each of what the one before has paid. -/
def swapThrough (l : Ledger) (offer : Coin) : List Addr → Outcome (Coin × Ledger)
  | [] => .ok (offer, l)
  | contract :: rest => do
    let p ← l.pool contract
    let (result, n) ← l.swap contract offer
    match p.assets.other? offer.denom with
    | some next => n.swapThrough ⟨result.paid, next⟩ rest
    | none => .error (p.assets.unexpected offer.denom)

variable {l n : Ledger} {offer coin : Coin} {contract : Addr} {swappers rest : List Addr}
  {slip : Amount} {r : RoutedResult}

/-! ## One hop

Both recursions are unfolded once, for a row with a first hop: what it needs of its pool, and what
is left for the hops behind. The execution goes on over the chain with that pool replaced. -/

/-- The first swap succeeds on its pool, and the others on the chain it leaves. The same shape as
`routed_cons_eq_ok`, which makes the two inductions run side by side. -/
theorem swapThrough_cons_eq_ok :
    l.swapThrough offer (contract :: rest) = .ok (coin, n) ↔
      ∃ p q result next, l.pools[contract]? = some p ∧
        (Pool.swap offer).on p = (.ok result, q) ∧ p.assets.other? offer.denom = some next ∧
        swapThrough { l with pools := l.pools.insert contract q } ⟨result.paid, next⟩ rest =
          .ok (coin, n) := by
  rw [swapThrough]
  simp only [Outcome.bind_eq_ok, pool_eq_ok]
  constructor
  · rintro ⟨p, hp, ⟨result, m⟩, hswap, hrest⟩
    obtain ⟨p', q, hp', hon, rfl⟩ := update_eq_ok.1 hswap
    obtain rfl : p' = p := by
      rw [hp', Option.some.injEq] at hp
      exact hp
    obtain ⟨next, hnext⟩ := Pool.exists_other (Pool.swap_eq_ok.1 ⟨q, hon⟩)
    simp only [hnext] at hrest
    exact ⟨p', q, result, next, hp, hon, hnext, hrest⟩
  · rintro ⟨p, q, result, next, hp, hon, hnext, hrest⟩
    refine ⟨p, hp, (result, _), update_eq_ok.2 ⟨p, q, hp, hon, rfl⟩, ?_⟩
    simp only [hnext]
    exact hrest

/-- The first hop has a price and a price at the rate before it, and the preview goes on over the
same chain. By the branches of `Ledger.routed`. -/
theorem routed_cons_eq_ok :
    l.routed offer slip (contract :: rest) = .ok r ↔
      ∃ p result next slip', l.pools[contract]? = some p ∧ p.quoteSwap offer = .ok result ∧
        p.assets.other? offer.denom = some next ∧ (∃ atRate, p.quoteNaive offer = .ok atRate ∧
          slip' = atRate.paid.monus result.paid) ∧
        l.routed ⟨result.paid, next⟩ slip' rest = .ok r := by
  rw [routed]
  simp only [Outcome.bind_eq_ok, pool_eq_ok]
  constructor
  · rintro ⟨p, hp, result, hquote, atRate, hatRate, hrest⟩
    obtain ⟨next, hnext⟩ := Pool.exists_other hquote
    simp only [hnext] at hrest
    exact ⟨p, result, next, _, hp, hquote, hnext, ⟨atRate, hatRate, rfl⟩, hrest⟩
  · rintro ⟨p, result, next, _, hp, hquote, hnext, ⟨atRate, hatRate, rfl⟩, hrest⟩
    refine ⟨p, hp, result, hquote, atRate, hatRate, ?_⟩
    simp only [hnext]
    exact hrest

/-! ## Rows of hops

A preview sees the chain as it is, an execution as the hops before have left it. The difference is
in the pools of these hops only, which are not looked at again if all pools are distinct. -/

/-- A preview looks at no pool but those of its hops. By induction on them. This is what lets the
swaps change pools behind a preview's back (`exists_swapThrough_iff`). -/
theorem routed_congr (h : ∀ contract ∈ swappers, n.pools[contract]? = l.pools[contract]?) :
    n.routed offer slip swappers = l.routed offer slip swappers := by
  induction swappers generalizing offer slip with
  | nil => rfl
  | cons contract rest ih =>
    have hpool : n.pool contract = l.pool contract := by
      rw [pool, pool, h contract List.mem_cons_self]
    have hrest (offer : Coin) (slip : Amount) :
        n.routed offer slip rest = l.routed offer slip rest :=
      ih fun c hc => h c (List.mem_cons_of_mem contract hc)
    rw [routed, routed, hpool]
    simp only [hrest]

/-- Through distinct pools the swaps pay what their preview says. The induction is on the hops
that are left, over the chain as the hops before have changed it; `routed_congr` puts the preview
of these over the chain as it was. The price at the rate before is there by
`Pool.exists_quoteNaive`. -/
theorem exists_swapThrough_iff (hnodup : swappers.Nodup) :
    (∃ n, l.swapThrough offer swappers = .ok (coin, n)) ↔
      ∃ slip', l.routed offer slip swappers = .ok ⟨coin.denom, coin.amount, slip'⟩ := by
  induction swappers generalizing l offer slip with
  | nil =>
    constructor
    · rintro ⟨n, h⟩
      cases h
      exact ⟨slip, rfl⟩
    · rintro ⟨slip', h⟩
      obtain ⟨amount, denom⟩ := offer
      cases h
      exact ⟨l, rfl⟩
  | cons contract rest ih =>
    obtain ⟨hfresh, hrest⟩ := List.nodup_cons.1 hnodup
    -- the hops behind do not see what this one has changed
    have hsame (q : Pool) (offer : Coin) (slip : Amount) :
        routed { l with pools := l.pools.insert contract q } offer slip rest =
          l.routed offer slip rest := by
      refine routed_congr fun other hother => ?_
      simp only [Std.TreeMap.getElem?_insert, Std.compare_eq_iff_eq]
      rw [if_neg]
      rintro rfl
      exact hfresh hother
    simp only [swapThrough_cons_eq_ok, routed_cons_eq_ok]
    constructor
    · rintro ⟨n, p, q, result, next, hp, hon, hnext, hgo⟩
      have hquote := Pool.swap_eq_ok.1 ⟨q, hon⟩
      obtain ⟨atRate, hatRate⟩ := Pool.exists_quoteNaive hquote
      have hpreview : ∃ slip', l.routed ⟨result.paid, next⟩ (atRate.paid.monus result.paid) rest =
          .ok ⟨coin.denom, coin.amount, slip'⟩ := by
        rw [← hsame q]
        exact (ih hrest).1 ⟨n, hgo⟩
      obtain ⟨slip', hpreview⟩ := hpreview
      exact ⟨slip', p, result, next, _, hp, hquote, hnext, ⟨atRate, hatRate, rfl⟩, hpreview⟩
    · rintro ⟨slip', p, result, next, slip, hp, hquote, hnext, -, hpreview⟩
      obtain ⟨q, hon⟩ := Pool.swap_eq_ok.2 hquote
      rw [← hsame q] at hpreview
      obtain ⟨n, hgo⟩ := (ih hrest).2 ⟨slip', hpreview⟩
      exact ⟨n, p, q, result, next, hp, hon, hnext, hgo⟩

/-- Through at least one pool, a preview is the recursion from no slip at all (`Ledger.routed`). -/
theorem previewSwaps_eq (h : swappers ≠ []) (l : Ledger) (offer : Coin) :
    l.previewSwaps offer swappers = l.routed offer .zero swappers := by
  rw [previewSwaps, if_neg]
  rw [List.isEmpty_iff]
  exact h

/-! ## Hops and the pools that serve them

A route is about assets, a preview about contracts. `Serves` connects the two hop by hop, and from
it follows what the preview needs of its pools. -/

/-- The pool at a contract trades the source of a hop for its target. -/
def Serves (l : Ledger) (h : Hop) (contract : Addr) : Prop :=
  ∃ p, l.pools[contract]? = some p ∧ p.assets.other? h.source = some h.target

/-- A pool has two assets, so it serves no hop to a third: of two hops through it, the second comes
to an asset of the first (`DenomPair.other?_eq_some_iff`). -/
theorem Serves.target_eq {g h : Hop} (hg : l.Serves g contract) (hh : l.Serves h contract) :
    h.target = g.source ∨ h.target = g.target := by
  obtain ⟨p, hp, hgo⟩ := hg
  obtain ⟨q, hq, hho⟩ := hh
  obtain rfl : p = q := by
    rw [hp, Option.some.injEq] at hq
    exact hq
  rw [DenomPair.other?_eq_some_iff] at hgo hho
  rcases hgo with ⟨hsource, htarget⟩ | ⟨hsource, htarget⟩
  · rcases hho with ⟨-, hto⟩ | ⟨-, hto⟩
    · exact Or.inr (hto.symm.trans htarget)
    · exact Or.inl (hto.symm.trans hsource)
  · rcases hho with ⟨-, hto⟩ | ⟨-, hto⟩
    · exact Or.inl (hto.symm.trans hsource)
    · exact Or.inr (hto.symm.trans htarget)

/-- Every pool of a row serves one of its hops. By induction on the row, along `List.Forall₂`. -/
theorem exists_served {hops : List Hop} (h : List.Forall₂ l.Serves hops swappers)
    (hmem : contract ∈ swappers) : ∃ hop ∈ hops, l.Serves hop contract := by
  induction h with
  | nil => cases hmem
  | cons hserves _ ih =>
    rcases List.mem_cons.1 hmem with rfl | hmem
    · exact ⟨_, List.mem_cons_self, hserves⟩
    · obtain ⟨hop, hhop, hserves⟩ := ih hmem
      exact ⟨hop, List.mem_cons_of_mem _ hhop, hserves⟩

/-- Hops that come to no asset twice are served by distinct pools: a later hop through the same pool
would come back to an asset of the earlier one (`Serves.target_eq`). -/
theorem nodup_of_serves {hops : List Hop} {source target : Denom}
    (hchains : Route.chains hops source target = true)
    (hnodup : (source :: hops.map Hop.target).Nodup) (hserves : List.Forall₂ l.Serves hops swappers) :
    swappers.Nodup := by
  induction hserves generalizing source with
  | nil => exact List.nodup_nil
  | @cons h contract hops rest hserve hrest ih =>
    rw [Route.chains, Bool.and_eq_true, beq_iff_eq] at hchains
    obtain ⟨rfl, hchains⟩ := hchains
    rw [List.map_cons] at hnodup
    obtain ⟨hsource, htargets⟩ := List.nodup_cons.1 hnodup
    refine List.nodup_cons.2 ⟨fun hagain => ?_, ih hchains htargets⟩
    -- a later hop through the same pool would come back to an asset of this one
    obtain ⟨later, hlater, hagain⟩ := exists_served hrest hagain
    have hmem : later.target ∈ hops.map Hop.target := List.mem_map_of_mem hlater
    rcases hserve.target_eq hagain with hback | hback
    · exact hsource (List.mem_cons_of_mem _ (hback ▸ hmem))
    · exact (List.nodup_cons.1 htargets).1 (hback ▸ hmem)

/-- Along hops from one asset to another, the preview is of the other asset. By induction on the
hops, each of which is paid in its own target (`routed_cons_eq_ok`). -/
theorem routed_denom {hops : List Hop} {target : Denom}
    (hchains : Route.chains hops offer.denom target = true)
    (hserves : List.Forall₂ l.Serves hops swappers)
    (h : l.routed offer slip swappers = .ok r) : r.denom = target := by
  induction hserves generalizing offer slip with
  | nil =>
    cases h
    exact beq_iff_eq.1 hchains
  | @cons hop contract hops rest hserve _ ih =>
    rw [Route.chains, Bool.and_eq_true, beq_iff_eq] at hchains
    obtain ⟨hsource, hchains⟩ := hchains
    obtain ⟨p, result, next, slip', hp, -, hnext, -, hrest⟩ := routed_cons_eq_ok.1 h
    obtain ⟨q, hq, htarget⟩ := hserve
    rw [hp, Option.some.injEq] at hq
    rw [← hq, hsource, hnext, Option.some.injEq] at htarget
    exact ih (htarget ▸ hchains) hrest

end Ledger

end Chain

end PoolMarket
