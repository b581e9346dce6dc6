import PoolMarket.Market.Trade

/-!
# Quotes

A quote prices an offer on one route: what the router expects it to bring, against what it would be
worth at the current rates with fees. The route, the worth and the question to the router are all
fixed before the router is asked.
-/

namespace PoolMarket

/-- What an offer would bring along a route, against what it would be worth there. -/
structure Quote where
  route : Route
  /-- What the router expects. -/
  amount : Amount
  /-- The worth at the rates before the trade. -/
  naive : Amount
  /-- By how much the one falls short of the other. -/
  slippage : BasisPoints
  /-- The shortfall is above the threshold. -/
  warn : Bool
  deriving DecidableEq, Repr

namespace Quote

/-- By what share `actual` falls short of `naive`, rounded up. -/
def shortfall (actual naive : Amount) : Outcome BasisPoints :=
  if naive.isZero || naive.val ≤ actual.val then .ok .zero
  else do
    let missing ← naive.minus actual
    let share ← missing.mulDiv BasisPoints.wholeAmount naive .up
    match BasisPoints.ofNat? share.val with
    | some b => .ok b
    | none => .error (.overflow .slippage)

/-- A quote that waits for the router. -/
structure Pending where
  route : Route
  naive : Amount
  inquiry : Inquiry RoutedResult

/-- What a quote needs of the market, and the question to the router; nothing if there is no
route. -/
def begin (m : Market) (offer : Coin) (ask : Denom) : Outcome (Option Pending) := do
  Market.checkOffer offer ask
  match m.route? offer.denom ask with
  | none => return none
  | some route =>
    let naive ← m.valueAlong offer.amount true route.hops
    let inquiry ← m.previewRoute offer route
    return some { route, naive, inquiry }

/-- The quote from the router's reply. -/
def Pending.finish (p : Pending) (warning : BasisPoints) (reply : Outcome Json) :
    Outcome Quote := do
  let result ← p.inquiry.conclude reply
  let slippage ← shortfall result.amount p.naive
  return {
    route := p.route
    amount := result.amount
    naive := p.naive
    slippage
    warn := warning.val < slippage.val }

end Quote

end PoolMarket
