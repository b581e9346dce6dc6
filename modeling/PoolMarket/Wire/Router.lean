import PoolMarket.Wire.Scalar

/-!
# Messages of the router

The router swaps through several pairs in a row.
-/

namespace PoolMarket

open Json (Form)

/-- What a trade through the router has to bring. -/
structure Expectation where
  amount : Amount
  tolerance : BasisPoints
  deriving DecidableEq, Repr

namespace Expectation

def toJson (e : Expectation) : Json :=
  .obj [("expected_amount", e.amount.toJson), ("slippage_tolerance", e.tolerance.toDecimalJson)]

def ofJson? (j : Json) : Option Expectation := do
  let r ← j.record? ["expected_amount", "slippage_tolerance"]
  let amount ← r.required "expected_amount" Amount.ofJson?
  let tolerance ← r.required "slippage_tolerance" BasisPoints.ofDecimalJson?
  return { amount, tolerance }

end Expectation

/-- What the router can be told to do: a trade through several pairs in a row. -/
inductive RouterCall where
  | swaps (swappers : List Addr) (tolerance : Option BasisPoints)
      (expectation : Option Expectation) (unwrapper receiver : Option Addr)
  deriving DecidableEq, Repr

namespace RouterCall

def toJson : RouterCall → Json
  | swaps swappers tolerance expectation unwrapper receiver =>
    .ofVariant "execute_swaps"
      [("swappers", .ofList Addr.toJson swappers),
        ("intermediate_slippage_tolerance", .ofOption BasisPoints.toDecimalJson tolerance),
        ("expectation", .ofOption Expectation.toJson expectation),
        ("unwrapper", .ofOption Addr.toJson unwrapper),
        ("receiver", .ofOption Addr.toJson receiver)]

def ofJson? (form : Form) (j : Json) : Option RouterCall := do
  let v ← j.variant?
  match v.name with
  | "execute_swaps" =>
    let r ← v.record? form
      ["swappers", "intermediate_slippage_tolerance", "expectation", "unwrapper", "receiver"]
    let swappers ← r.required "swappers" (Json.list? Addr.ofJson?)
    let tolerance ← r.optional "intermediate_slippage_tolerance" BasisPoints.ofDecimalJson?
    let expectation ← r.optional "expectation" Expectation.ofJson?
    let unwrapper ← r.optional "unwrapper" Addr.ofJson?
    let receiver ← r.optional "receiver" Addr.ofJson?
    return swaps swappers tolerance expectation unwrapper receiver
  | _ => none

end RouterCall

/-- A question to the router: what an offer would bring through some pairs in a row. -/
inductive RouterQuery where
  | preview (offer : Coin) (swappers : List Addr)
  deriving DecidableEq, Repr

namespace RouterQuery

def toJson : RouterQuery → Json
  | preview offer swappers =>
    .ofVariant "simulate_swaps"
      [("offer", offer.toJson), ("swappers", .ofList Addr.toJson swappers)]

def ofJson? (form : Form) (j : Json) : Option RouterQuery := do
  let v ← j.variant?
  match v.name with
  | "simulate_swaps" =>
    let r ← v.record? form ["offer", "swappers"]
    let offer ← r.required "offer" Coin.ofJson?
    let swappers ← r.required "swappers" (Json.list? Addr.ofJson?)
    return preview offer swappers
  | _ => none

end RouterQuery

/-- What an offer would bring through some pairs in a row. -/
structure RoutedResult where
  denom : Denom
  amount : Amount
  slip : Amount
  deriving DecidableEq, Repr

namespace RoutedResult

def toJson (s : RoutedResult) : Json :=
  .obj [("result_denom", s.denom.toJson), ("result_amount", s.amount.toJson),
    ("slip_amount", s.slip.toJson)]

def ofJson? (j : Json) : Option RoutedResult := do
  let r ← j.record? ["result_denom", "result_amount", "slip_amount"]
  let denom ← r.required "result_denom" Denom.ofJson?
  let amount ← r.required "result_amount" Amount.ofJson?
  let slip ← r.required "slip_amount" Amount.ofJson?
  return { denom, amount, slip }

end RoutedResult

end PoolMarket
