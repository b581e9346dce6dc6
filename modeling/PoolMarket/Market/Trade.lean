import PoolMarket.Inquiry
import PoolMarket.Market.Basic

/-!
# Trading on a market

Routes between the known assets, what an amount is worth along them, and the call that trades
through them. All three go along the hops one by one and look up the pair of each (`serving`), so a
route found in the trade map is served hop by hop.
-/

namespace PoolMarket

namespace Market

/-! ### Routes -/

/-- A route with the fewest hops through the registered pairs, if there is one. -/
def route? (m : Market) (source target : Denom) : Option Route :=
  m.registry.tradeMap.route? source target

/-- The same as a fault where there is none. -/
def requireRoute (m : Market) (source target : Denom) : Outcome Route :=
  match m.route? source target with
  | some r => .ok r
  | none => .error (.noRoute source.text target.text)

/-- The pair that serves a hop, and the side of its source. -/
def serving? (m : Market) (h : Hop) : Option (Pair × Side) := do
  let assets ← (DenomPair.ofDenoms h.source h.target).toOption
  let p ← m.find? assets true
  return (p, if p.assets.first = h.source then .first else .second)

/-- The same as a fault where no pair serves the hop. -/
def serving (m : Market) (h : Hop) : Outcome (Pair × Side) :=
  match m.serving? h with
  | some found => .ok found
  | none => .error (.pairNotFound h.source.text h.target.text)

/-- The contracts that serve some hops, in their order. -/
def swappers (m : Market) : List Hop → Outcome (List Addr)
  | [] => .ok []
  | h :: rest => do
    let (p, _) ← m.serving h
    let more ← m.swappers rest
    return p.contract :: more

/-! ### Worth along a route -/

/-- What an amount of the first asset is worth in the last one, hop after hop. -/
def valueAlong (m : Market) (a : Amount) (feesIncluded : Bool) : List Hop → Outcome Amount
  | [] => .ok a
  | h :: rest => do
    let (p, side) ← m.serving h
    let next ← p.snapshot.value side a feesIncluded
    m.valueAlong next feesIncluded rest

/-- What an amount of one asset is worth in another, along the route between them. -/
def value (m : Market) (a : Amount) (source target : Denom) (feesIncluded : Bool) :
    Outcome (Option Amount) :=
  match m.route? source target with
  | none => .ok none
  | some r => do return some (← m.valueAlong a feesIncluded r.hops)

/-- Multiplies the rates of some hops, `none` where no pair serves one. -/
def rateAlong? (m : Market) (rate : Float) (feesIncluded : Bool) : List Hop → Option Float
  | [] => some rate
  | h :: rest => do
    let (p, side) ← m.serving? h
    let rate := rate * p.snapshot.rate side
    let rate := if feesIncluded then rate * (1.0 - p.snapshot.fees.total.fraction) else rate
    m.rateAlong? rate feesIncluded rest

/-- The rate between two assets, to be shown only; not a number where there is no route. -/
def rate (m : Market) (source target : Denom) (feesIncluded : Bool) : Float :=
  match m.route? source target with
  | none => Double.ofNat 0 / Double.ofNat 0
  | some r => (m.rateAlong? 1.0 feesIncluded r.hops).getD (Double.ofNat 0 / Double.ofNat 0)

/-! ### Trades -/

/-- An offer has to be of another asset than is asked for, and not empty. -/
def checkOffer (offer : Coin) (ask : Denom) : Outcome Unit :=
  if offer.denom = ask then .error (.sameAsset ask.text)
  else if offer.amount.isZero then .error (.invalidAmount .emptyOffer)
  else .ok ()

/-- The call that trades an offer for another asset through the router, if there is a route. -/
def swapCall (m : Market) (offer : Coin) (ask : Denom) (receiver : Option Addr)
    (tolerance : Option BasisPoints) (expectation : Option Expectation) :
    Outcome (Option Instruction) := do
  let tolerance := tolerance.getD m.defaultSlippage
  tolerance.checkTolerance
  checkOffer offer ask
  match m.route? offer.denom ask with
  | none => return none
  | some r =>
    let swappers ← m.swappers r.hops
    let call := RouterCall.swaps swappers (some tolerance) expectation none receiver
    return some (← Instruction.handOver m.router call.toJson offer)

/-- The question to the router what an offer would bring along a route. -/
def previewRoute (m : Market) (offer : Coin) (r : Route) : Outcome (Inquiry RoutedResult) := do
  if offer.amount.isZero then .error (.invalidAmount .emptyOffer)
  let swappers ← m.swappers r.hops
  return .previewSwaps m.router offer swappers

/-- The question what an offer would bring of another asset, if there is a route. -/
def previewSwap (m : Market) (offer : Coin) (ask : Denom) :
    Outcome (Option (Inquiry RoutedResult)) := do
  checkOffer offer ask
  match m.route? offer.denom ask with
  | none => return none
  | some r => return some (← m.previewRoute offer r)

end Market

end PoolMarket
