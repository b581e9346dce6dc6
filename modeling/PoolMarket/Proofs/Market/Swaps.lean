import PoolMarket.Proofs.Market.Cells
import PoolMarket.Proofs.Market.Routes
import PoolMarket.Proofs.Route.Shortest
import PoolMarket.Proofs.Wire.HandOver

/-!
# The call of a trade

A trade goes from asset to asset through registered pairs, each listed in one order or the other.
What matters is the graph of the pairs: the call names as few of them as lead from the offer to what
is asked for, and there is no call just where none do.

* `Threads` — contracts that lead along a chain of assets, the graph side of `Market.swappers`.
* `length_lt_of_chain` — no chain is shorter than a route, from `TradeMap.shortest_of_route?`.
* `length_route?_symm` — the way back is as long, as every walk can be walked back.
* `SwapOutcome` — what a call comes to, case by case; `swapOutcome` goes through the checks in
  order.
-/

namespace PoolMarket

namespace Registry

variable {r : Registry} {a b : Denom}

/-! ## Registries that are built up -/

theorem proper_empty : empty.Proper where
  keyed key p h := by simp at h
  validated key p h := by simp at h

/-- Registering a pair keeps a registry proper (`get?_register`), if its assets are validated. -/
theorem Proper.register (hr : r.Proper) {p : Loaded} (hp : p.pair.assets.Validated) :
    (r.register p).1.Proper where
  keyed key q hq := by
    rw [get?_register] at hq
    split at hq
    · next hkey =>
      cases hq
      exact hkey.1
    · exact hr.keyed key q hq
  validated key q hq := by
    rw [get?_register] at hq
    split at hq
    · cases hq
      exact hp
    · exact hr.validated key q hq

/-! ## Chains of linked assets

A walk in the trade map and a chain of linked assets are the same (`exists_walk_of_chain`), and
being linked does not hang on the order of two assets. -/

/-- The contracts lead from each asset to the next. -/
inductive Threads (r : Registry) : List Denom → List Addr → Prop where
  | single (d : Denom) : Threads r [d] []
  | hop {a b : Denom} {contract : Addr} {more : List Denom} {contracts : List Addr}
      (hprefers : r.Prefers a b contract) (hmore : Threads r (b :: more) contracts) :
      Threads r (a :: b :: more) (contract :: contracts)

theorem Threads.length {denoms : List Denom} {contracts : List Addr}
    (h : r.Threads denoms contracts) : denoms.length = contracts.length + 1 := by
  induction h with
  | single => rfl
  | hop _ _ ih => exact congrArg (· + 1) ih

/-- The assets that a walk comes to, with the contracts of its hops. By induction on the hops;
`Walk.uncons` takes off the first. -/
theorem threads_of_walk {hops : List Hop} {contracts : List Addr}
    (hwalk : r.tradeMap.Walk a b hops)
    (h : List.Forall₂ (fun h c => r.Prefers h.source h.target c) hops contracts) :
    r.Threads (a :: hops.map Hop.target) contracts := by
  induction h generalizing a with
  | nil => exact .single a
  | cons hprefers _ ih =>
    obtain ⟨rfl, -, hrest⟩ := hwalk.uncons
    exact .hop hprefers (ih hrest)

/-- The last of these assets is the one the walk leads to. By induction on the hops, as
`threads_of_walk`. -/
theorem getLast?_of_walk {hops : List Hop} (hwalk : r.tradeMap.Walk a b hops) :
    (a :: hops.map Hop.target).getLast? = some b := by
  induction hops generalizing a with
  | nil => rw [hwalk.eq_of_nil]; rfl
  | cons h rest ih =>
    obtain ⟨-, -, hrest⟩ := hwalk.uncons
    rw [List.map_cons, List.getLast?_cons_cons]
    exact ih hrest

/-- A chain of linked assets is one that can be walked. By induction on the assets (`Walk.cons`). -/
theorem exists_walk_of_chain {more : List Denom} (hchain : (a :: more).IsChain r.Linked)
    (hlast : (a :: more).getLast? = some b) :
    ∃ hops, r.tradeMap.Walk a b hops ∧ hops.length = more.length := by
  induction more generalizing a with
  | nil =>
    rw [List.getLast?_singleton, Option.some.injEq] at hlast
    exact ⟨[], hlast ▸ TradeMap.Walk.refl _ a, rfl⟩
  | cons c rest ih =>
    rw [List.isChain_cons_cons] at hchain
    rw [List.getLast?_cons_cons] at hlast
    obtain ⟨hops, hwalk, hlength⟩ := ih hchain.2 hlast
    refine ⟨_, hwalk.cons (linked_iff.1 hchain.1), ?_⟩
    rw [List.length_cons, List.length_cons, hlength]

/-- Being linked is what the trade map says of two assets (`linked_iff`). -/
theorem linked_eq : r.Linked = r.tradeMap.Trades := by
  funext a b
  exact propext linked_iff

/-- Whether assets are linked does not hang on their order, so a walk can be walked back. By
induction on the hops: the first hop there is the last one back (`Walk.concat`). -/
theorem exists_walk_back {hops : List Hop} (hwalk : r.tradeMap.Walk a b hops) :
    ∃ back, r.tradeMap.Walk b a back ∧ back.length = hops.length := by
  induction hops generalizing a with
  | nil =>
    obtain rfl := hwalk.eq_of_nil
    exact ⟨[], hwalk, rfl⟩
  | cons h rest ih =>
    obtain ⟨-, htrades, hrest⟩ := hwalk.uncons
    obtain ⟨back, hback, hlength⟩ := ih hrest
    -- the first hop there is the last one back
    have hlinked : r.Linked a h.target := linked_iff.2 htrades
    refine ⟨_, hback.concat (linked_iff.1 hlinked.symm), ?_⟩
    rw [List.length_append, List.length_singleton, List.length_cons, hlength]

end Registry

namespace Market

variable {m : Market}

/-! ## Routes there and back -/

/-- There is a route just where links lead from the one asset to the other:
`TradeMap.isSome_route?_iff`, in the terms of the registry. -/
theorem isSome_route?_iff_linked {a b : Denom} :
    (m.route? a b).isSome = true ↔ Relation.ReflTransGen m.registry.Linked a b := by
  rw [Registry.linked_eq, ← TradeMap.exists_walk_iff]
  exact TradeMap.isSome_route?_iff

/-- Where there is a route there is one back, and it is no longer: the walk back is a way there, and
a route is no longer than any (`exists_walk_back`). -/
theorem exists_route?_back {a b : Denom} {there : Route} (h : m.route? a b = some there) :
    ∃ back, m.route? b a = some back ∧ back.length ≤ there.length := by
  obtain ⟨hops, hwalk, hlength⟩ :=
    Registry.exists_walk_back (TradeMap.shortest_of_route? h).walk
  obtain ⟨back, hback⟩ := Option.isSome_iff_exists.1 (TradeMap.isSome_route?_iff.2 ⟨hops, hwalk⟩)
  refine ⟨back, hback, ?_⟩
  calc back.length ≤ hops.length := (TradeMap.shortest_of_route? hback).length_le hops hwalk
    _ = there.length := hlength

/-- The way back is as long as the way there, or there is neither: `exists_route?_back`, in both
directions. -/
theorem length_route?_symm (m : Market) (a b : Denom) :
    (m.route? b a).map Route.length = (m.route? a b).map Route.length := by
  cases hthere : m.route? a b with
  | none =>
    cases hback : m.route? b a with
    | none => rfl
    | some back =>
      obtain ⟨there, hsome, -⟩ := exists_route?_back hback
      rw [hthere] at hsome
      cases hsome
  | some there =>
    -- neither the way back nor the way back from there is longer than the one before
    obtain ⟨back, hback, hle⟩ := exists_route?_back hthere
    obtain ⟨again, hagain, hge⟩ := exists_route?_back hback
    rw [hthere, Option.some.injEq] at hagain
    rw [hback, Option.map_some, Option.map_some, Option.some.injEq]
    subst hagain
    exact Nat.le_antisymm hle hge

/-! ## What a call comes to

The checks of `Market.swapCall` come first, in their order, and a route is looked for behind them.
So each case of `SwapOutcome` says which checks were passed. -/

/-- What the call of a trade comes to, the first of these that applies. -/
inductive SwapOutcome (m : Market) (offer : Coin) (ask : Denom) (receiver : Option Addr)
    (tolerance : BasisPoints) (expectation : Option Expectation) :
    Outcome (Option Instruction) → Prop where
  | intolerable (hhigh : 5000 < tolerance.val) :
      SwapOutcome m offer ask receiver tolerance expectation
        (.error (.invalidSetting .toleranceTooHigh))
  | same (hlow : tolerance.val ≤ 5000) (hsame : offer.denom = ask) :
      SwapOutcome m offer ask receiver tolerance expectation (.error (.sameAsset ask.text))
  | empty (hlow : tolerance.val ≤ 5000) (hne : offer.denom ≠ ask) (hzero : offer.amount.val = 0) :
      SwapOutcome m offer ask receiver tolerance expectation (.error (.invalidAmount .emptyOffer))
  /-- No registered pairs lead from the one asset to the other. -/
  | apart (hlow : tolerance.val ≤ 5000) (hne : offer.denom ≠ ask) (hsome : 0 < offer.amount.val)
      (hapart : ¬ Relation.ReflTransGen m.registry.Linked offer.denom ask) :
      SwapOutcome m offer ask receiver tolerance expectation (.ok none)
  /-- The offer is handed to the router with the contracts that lead to what is asked for, as few
  as lead there. -/
  | trade (hlow : tolerance.val ≤ 5000) (hne : offer.denom ≠ ask) (hsome : 0 < offer.amount.val)
      (hlinked : Relation.ReflTransGen m.registry.Linked offer.denom ask)
      (denoms : List Denom) (swappers : List Addr) (i : Instruction)
      (hfirst : denoms.head? = some offer.denom) (hlast : denoms.getLast? = some ask)
      (hthreads : m.registry.Threads denoms swappers)
      (hfewest : ∀ others : List Denom, others.head? = some offer.denom →
        others.getLast? = some ask → others.IsChain m.registry.Linked →
          swappers.length < others.length)
      (hhands : i.Hands m.router offer RouterCall.ofJson?
        (.swaps swappers (some tolerance) expectation none receiver)) :
      SwapOutcome m offer ask receiver tolerance expectation (.ok (some i))

/-- Trades on a market go through as few pairs as they can, and back through as many. -/
structure SwapsFewest (m : Market) : Prop where
  outcome : ∀ (offer : Coin) (ask : Denom) (receiver : Option Addr)
    (tolerance : Option BasisPoints) (expectation : Option Expectation),
    m.SwapOutcome offer ask receiver (tolerance.getD m.defaultSlippage) expectation
      (m.swapCall offer ask receiver tolerance expectation)
  back : ∀ a b, (m.route? b a).map Route.length = (m.route? a b).map Route.length

/-- A route is made into the call that hands the offer over. Its contracts can be named
(`exists_swappers`), and the message reads as what was meant (`Instruction.exists_handOver`). -/
theorem exists_call (hm : m.registry.Proper) {offer : Coin} {ask : Denom}
    (hsome : offer.amount.isZero = false) {route : Route}
    (hroute : m.route? offer.denom ask = some route) (receiver : Option Addr)
    (tolerance : BasisPoints) (expectation : Option Expectation) :
    ∃ swappers i, m.swappers route.hops = .ok swappers ∧
      m.registry.Threads (offer.denom :: route.hops.map Hop.target) swappers ∧
      Instruction.handOver m.router
        (RouterCall.swaps swappers (some tolerance) expectation none receiver).toJson offer =
          .ok i ∧
      i.Hands m.router offer RouterCall.ofJson?
        (.swaps swappers (some tolerance) expectation none receiver) := by
  have hwalk := (TradeMap.shortest_of_route? hroute).walk
  obtain ⟨swappers, hswappers, hprefers⟩ := exists_swappers hm hwalk.trades
  obtain ⟨i, hi, hhands⟩ := Instruction.exists_handOver m.router
    (exact_routerCall (.swaps swappers (some tolerance) expectation none receiver))
    (fun _ => reads_routerCall _) hsome
  exact ⟨swappers, i, hswappers, Registry.threads_of_walk hwalk hprefers, hi, hhands⟩

/-- No chain of linked assets is shorter than a route, as it is a walk (`exists_walk_of_chain`). -/
theorem length_lt_of_chain {source target : Denom} {route : Route}
    (hroute : m.route? source target = some route) {others : List Denom}
    (hfirst : others.head? = some source) (hlast : others.getLast? = some target)
    (hchain : others.IsChain m.registry.Linked) : route.length < others.length := by
  cases others with
  | nil => cases hfirst
  | cons a more =>
    rw [List.head?_cons, Option.some.injEq] at hfirst
    subst hfirst
    obtain ⟨hops, hwalk, hlength⟩ := Registry.exists_walk_of_chain hchain hlast
    have hle := (TradeMap.shortest_of_route? hroute).length_le hops hwalk
    rw [List.length_cons]
    omega

/-- What the call comes to. By the checks, in the order of `Market.swapCall`; behind them, a call
where there is a route (`exists_call`), and none where no links lead on
(`isSome_route?_iff_linked`). -/
theorem swapOutcome (hm : m.registry.Proper) (offer : Coin) (ask : Denom) (receiver : Option Addr)
    (tolerance : Option BasisPoints) (expectation : Option Expectation) :
    m.SwapOutcome offer ask receiver (tolerance.getD m.defaultSlippage) expectation
      (m.swapCall offer ask receiver tolerance expectation) := by
  unfold swapCall
  -- the checks come first, in this order, and a route is only looked for after them
  generalize tolerance.getD m.defaultSlippage = bound
  by_cases hhigh : 5000 < bound.val
  · have hcheck : bound.checkTolerance = .error (.invalidSetting .toleranceTooHigh) :=
      if_neg (Nat.not_le.2 hhigh)
    simp only [hcheck]
    exact .intolerable hhigh
  have hlow : bound.val ≤ 5000 := Nat.not_lt.1 hhigh
  have hcheck : bound.checkTolerance = .ok () := if_pos hlow
  by_cases hsame : offer.denom = ask
  · have hoffer : checkOffer offer ask = .error (.sameAsset ask.text) := if_pos hsame
    simp only [hcheck, hoffer]
    exact .same hlow hsame
  cases hzero : offer.amount.isZero with
  | true =>
    have hoffer : checkOffer offer ask = .error (.invalidAmount .emptyOffer) := by
      rw [checkOffer, if_neg hsame, if_pos hzero]
    simp only [hcheck, hoffer]
    exact .empty hlow hsame (beq_iff_eq.1 hzero)
  | false =>
    have hoffer : checkOffer offer ask = .ok () := by
      rw [checkOffer, if_neg hsame, hzero]
      rfl
    have hsome : 0 < offer.amount.val := Nat.pos_of_ne_zero (beq_eq_false_iff_ne.1 hzero)
    have hlinked := isSome_route?_iff_linked (m := m) (a := offer.denom) (b := ask)
    cases hroute : m.route? offer.denom ask with
    | none =>
      rw [hroute, Option.isSome_none] at hlinked
      simp only [hcheck, hoffer]
      exact .apart hlow hsame hsome fun h => nomatch hlinked.2 h
    | some route =>
      obtain ⟨swappers, i, hswappers, hthreads, hcall, hhands⟩ :=
        exists_call hm hzero hroute receiver bound expectation
      -- there is a contract for each hop, and an asset more
      have hlength : swappers.length = route.length := by
        have hall := hthreads.length
        rw [List.length_cons, List.length_map] at hall
        exact (Nat.succ.inj hall).symm
      simp only [hcheck, hoffer, hswappers]
      show SwapOutcome _ _ _ _ _ _ (Instruction.handOver _ _ _ >>= _)
      rw [hcall]
      refine .trade hlow hsame hsome (hlinked.1 (by rw [hroute]; rfl)) _ swappers i rfl
        (Registry.getLast?_of_walk (TradeMap.shortest_of_route? hroute).walk) hthreads ?_ hhands
      intro others hfirst hlast hchain
      rw [hlength]
      exact length_lt_of_chain hroute hfirst hlast hchain

theorem swapsFewest (hm : m.registry.Proper) : m.SwapsFewest where
  outcome := swapOutcome hm
  back := length_route?_symm m

/-! ### A pair listed in both orders, and one behind it -/

namespace Sample

/-- The asset that is offered. -/
def sei : Denom := .native "usei"

/-- The asset between the two pairs. -/
def atom : Denom := .native "uatom"

/-- The asset that is asked for. -/
def usdc : Denom := .native "uusdc"

/-- A pair that was loaded, with an empty pool. -/
def load (id : Nat) (contract : Addr) (assets : DenomPair) : Loaded :=
  ⟨id, contract, assets, assets.text, ⟨.same .zero, .zero, .zero⟩⟩

/-- Listed in the order of the hop. -/
def there : Loaded := load 0 ⟨"there", by decide, by decide⟩ ⟨sei, atom, by decide⟩

/-- Listed in the other order. -/
def back : Loaded := load 1 ⟨"back", by decide, by decide⟩ ⟨atom, sei, by decide⟩

/-- Listed against the direction of the second hop. -/
def behind : Loaded := load 2 ⟨"behind", by decide, by decide⟩ ⟨usdc, atom, by decide⟩

/-- A market that knows the three pairs. -/
def market : Market :=
  { factory := Deployment.factory
    router := Deployment.router
    defaultSlippage := .ofUInt16 100
    pageSize := 10
    registry := (((Registry.empty.register there).1.register back).1.register behind).1
    inFlight := ∅
    cells := #[]
    loaded := [] }

theorem proper_market : market.registry.Proper := by
  have hsei : sei.Validated := ⟨"usei", by decide⟩
  have hatom : atom.Validated := ⟨"uatom", by decide⟩
  have husdc : usdc.Validated := ⟨"uusdc", by decide⟩
  apply Registry.Proper.register
  · apply Registry.Proper.register
    · exact Registry.proper_empty.register ⟨hsei, hatom⟩
    · exact ⟨hatom, hsei⟩
  · exact ⟨husdc, hatom⟩

theorem linked_sei_atom : market.registry.Linked sei atom :=
  ⟨there, Or.inl ⟨by decide +kernel, rfl, rfl⟩⟩

theorem linked_atom_usdc : market.registry.Linked atom usdc :=
  ⟨behind, Or.inr ⟨by decide +kernel, rfl, rfl⟩⟩

/-- The router is called with two contracts at most. The chain over `atom` has three assets, so the
route is no longer. -/
theorem swapsFewest_market :
    market.registry.Proper ∧ ∃ swappers i,
      market.swapCall ⟨.ofUInt32 5, sei⟩ usdc none none none = .ok (some i) ∧
        swappers.length ≤ 2 ∧
        i.Hands market.router ⟨.ofUInt32 5, sei⟩ RouterCall.ofJson?
          (.swaps swappers (some (.ofUInt16 100)) none none none) := by
  refine ⟨proper_market, ?_⟩
  have houtcome := (swapsFewest proper_market).outcome ⟨.ofUInt32 5, sei⟩ usdc none none none
  have hlinked : Relation.ReflTransGen market.registry.Linked sei usdc :=
    (Relation.ReflTransGen.single linked_sei_atom).tail linked_atom_usdc
  generalize market.swapCall ⟨.ofUInt32 5, sei⟩ usdc none none none = out at houtcome ⊢
  cases houtcome with
  | intolerable hhigh => exact absurd hhigh (by decide)
  | same _ hsame => exact absurd hsame (by decide)
  | empty _ _ hzero => exact absurd hzero (by decide)
  | apart _ _ _ hapart => exact absurd hlinked hapart
  | trade _ _ _ _ denoms swappers i _ _ _ hfewest hhands =>
    refine ⟨swappers, i, rfl, Nat.le_of_lt_succ (hfewest [sei, atom, usdc] rfl rfl ?_), hhands⟩
    simp [linked_sei_atom, linked_atom_usdc]

end Sample

end Market

end PoolMarket
