import PoolMarket.Fees
import PoolMarket.Wire.Scalar
import PoolMarket.Wire.Token

/-!
# Messages of a pair contract

What a pair contract can be asked and told, and what it replies.
-/

namespace PoolMarket

open Json (Form)

/-- What a pair contract can be asked. -/
inductive PairQuery where
  | denoms
  | canonicalDenoms
  | config
  | totalShares
  | shareValue (shares : Amount)
  | previewDeposit (offer : Both Coin)
  | previewSwap (offer : Coin)
  | previewNaiveSwap (offer : Coin)
  deriving DecidableEq, Repr

namespace PairQuery

def toJson : PairQuery → Json
  | denoms => .str "pair_denoms"
  | canonicalDenoms => .str "canonical_pair_denoms"
  | config => .str "config"
  | totalShares => .str "total_shares"
  | shareValue shares => .ofVariant "share_value" [("amount", shares.toJson)]
  | previewDeposit offer =>
    .ofVariant "simulate_provide_liquidity" [("offer", .ofBoth Coin.toJson offer)]
  | previewSwap offer => .ofVariant "simulate_swap" [("offer", offer.toJson)]
  | previewNaiveSwap offer => .ofVariant "simulate_naive_swap" [("offer", offer.toJson)]

def ofJson? (form : Form) (j : Json) : Option PairQuery := do
  let v ← j.variant?
  match v.name with
  | "pair_denoms" => if v.isUnit then some denoms else none
  | "canonical_pair_denoms" => if v.isUnit then some canonicalDenoms else none
  | "config" => if v.isUnit then some config else none
  | "total_shares" => if v.isUnit then some totalShares else none
  | "share_value" =>
    let r ← v.record? form ["amount"]
    return shareValue (← r.required "amount" Amount.ofJson?)
  | "simulate_provide_liquidity" =>
    let r ← v.record? form ["offer"]
    return previewDeposit (← r.required "offer" (Json.both? Coin.ofJson?))
  | "simulate_swap" =>
    let r ← v.record? form ["offer"]
    return previewSwap (← r.required "offer" Coin.ofJson?)
  | "simulate_naive_swap" =>
    let r ← v.record? form ["offer"]
    return previewNaiveSwap (← r.required "offer" Coin.ofJson?)
  | _ => none

end PairQuery

/-- What a pair contract can be told to do. -/
inductive PairCall where
  | provide (tolerance : Option BasisPoints) (receiver : Option Addr) (payload : Option Payload)
  | withdraw (receiver : Option Addr) (payload : Option Payload)
  | swap (expected : Option Amount) (tolerance : Option BasisPoints) (receiver : Option Addr)
      (payload : Option Payload)
  deriving DecidableEq, Repr

namespace PairCall

def toJson : PairCall → Json
  | provide tolerance receiver payload =>
    .ofVariant "provide_liquidity"
      [("slippage_tolerance", .ofOption BasisPoints.toDecimalJson tolerance),
        ("receiver", .ofOption Addr.toJson receiver),
        ("receiver_payload", .ofOption Payload.toJson payload)]
  | withdraw receiver payload =>
    .ofVariant "withdraw_liquidity"
      [("receiver", .ofOption Addr.toJson receiver),
        ("receiver_payload", .ofOption Payload.toJson payload)]
  | swap expected tolerance receiver payload =>
    .ofVariant "swap"
      [("expected_result", .ofOption Amount.toJson expected),
        ("slippage_tolerance", .ofOption BasisPoints.toDecimalJson tolerance),
        ("receiver", .ofOption Addr.toJson receiver),
        ("receiver_payload", .ofOption Payload.toJson payload)]

def ofJson? (form : Form) (j : Json) : Option PairCall := do
  let v ← j.variant?
  match v.name with
  | "provide_liquidity" =>
    let r ← v.record? form ["slippage_tolerance", "receiver", "receiver_payload"]
    let tolerance ← r.optional "slippage_tolerance" BasisPoints.ofDecimalJson?
    let receiver ← r.optional "receiver" Addr.ofJson?
    let payload ← r.optional "receiver_payload" Payload.ofJson?
    return provide tolerance receiver payload
  | "withdraw_liquidity" =>
    let r ← v.record? form ["receiver", "receiver_payload"]
    let receiver ← r.optional "receiver" Addr.ofJson?
    let payload ← r.optional "receiver_payload" Payload.ofJson?
    return withdraw receiver payload
  | "swap" =>
    let r ← v.record? form ["expected_result", "slippage_tolerance", "receiver", "receiver_payload"]
    let expected ← r.optional "expected_result" Amount.ofJson?
    let tolerance ← r.optional "slippage_tolerance" BasisPoints.ofDecimalJson?
    let receiver ← r.optional "receiver" Addr.ofJson?
    let payload ← r.optional "receiver_payload" Payload.ofJson?
    return swap expected tolerance receiver payload
  | _ => none

end PairCall

/-- What a pair contract reports of itself. -/
structure PairConfig where
  admin : Addr
  feeReceiver : Addr
  totalFee : UInt16
  makerFee : UInt16
  endorsed : Bool
  deriving DecidableEq, Repr

namespace PairConfig

/-- The fees that the contract reports, which need not be any: the sum may be above the whole or
below the maker's share. -/
def fees (c : PairConfig) : Outcome Fees :=
  Fees.ofTotal (.ofUInt16 c.totalFee) (.ofUInt16 c.makerFee)

def toJson (c : PairConfig) : Json :=
  .obj [("admin", c.admin.toJson), ("fee_receiver", c.feeReceiver.toJson),
    ("total_fee_bps", .nat c.totalFee.toNat), ("maker_fee_bps", .nat c.makerFee.toNat),
    ("endorsed", .bool c.endorsed)]

def ofJson? (j : Json) : Option PairConfig := do
  let r ← j.record? ["admin", "fee_receiver", "total_fee_bps", "maker_fee_bps", "endorsed"]
  let admin ← r.required "admin" Addr.ofJson?
  let feeReceiver ← r.required "fee_receiver" Addr.ofJson?
  let totalFee ← r.required "total_fee_bps" Json.uint16?
  let makerFee ← r.required "maker_fee_bps" Json.uint16?
  let endorsed ← r.required "endorsed" Json.bool?
  return { admin, feeReceiver, totalFee, makerFee, endorsed }

end PairConfig

/-- What a swap pays out and what it is charged. -/
structure SwapResult where
  paid : Amount
  /-- What the size of the trade costs against the rate before it. -/
  spread : Amount
  totalFee : Amount
  makerFee : Amount
  deriving DecidableEq, Repr

namespace SwapResult

def toJson (s : SwapResult) : Json :=
  .obj [("result_amount", s.paid.toJson), ("spread_amount", s.spread.toJson),
    ("total_fee_amount", s.totalFee.toJson), ("maker_fee_amount", s.makerFee.toJson)]

def ofJson? (j : Json) : Option SwapResult := do
  let r ← j.record? ["result_amount", "spread_amount", "total_fee_amount", "maker_fee_amount"]
  let paid ← r.required "result_amount" Amount.ofJson?
  let spread ← r.required "spread_amount" Amount.ofJson?
  let totalFee ← r.required "total_fee_amount" Amount.ofJson?
  let makerFee ← r.required "maker_fee_amount" Amount.ofJson?
  return { paid, spread, totalFee, makerFee }

end SwapResult

/-- What a swap would pay at the rate before it. -/
structure NaiveResult where
  paid : Amount
  totalFee : Amount
  makerFee : Amount
  deriving DecidableEq, Repr

namespace NaiveResult

def toJson (s : NaiveResult) : Json :=
  .obj [("result_amount", s.paid.toJson), ("total_fee_amount", s.totalFee.toJson),
    ("maker_fee_amount", s.makerFee.toJson)]

def ofJson? (j : Json) : Option NaiveResult := do
  let r ← j.record? ["result_amount", "total_fee_amount", "maker_fee_amount"]
  let paid ← r.required "result_amount" Amount.ofJson?
  let totalFee ← r.required "total_fee_amount" Amount.ofJson?
  let makerFee ← r.required "maker_fee_amount" Amount.ofJson?
  return { paid, totalFee, makerFee }

end NaiveResult

/-- The shares a deposit would be given, and their value after it. -/
structure DepositPreview where
  shares : Amount
  value : Both Coin
  deriving DecidableEq, Repr

namespace DepositPreview

def toJson (d : DepositPreview) : Json :=
  .obj [("share_amount", d.shares.toJson), ("share_value", .ofBoth Coin.toJson d.value)]

def ofJson? (j : Json) : Option DepositPreview := do
  let r ← j.record? ["share_amount", "share_value"]
  let shares ← r.required "share_amount" Amount.ofJson?
  let value ← r.required "share_value" (Json.both? Coin.ofJson?)
  return { shares, value }

end DepositPreview

end PoolMarket
