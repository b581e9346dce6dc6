import PoolMarket.Inquiry
import PoolMarket.Pool.Snapshot
import PoolMarket.Wire.Instruction
import PoolMarket.Wire.PairContract

/-!
# Pairs

A pool as a trader sees it: its contract, its two assets, a name, and the last snapshot. From these
come estimates, and the instructions that deposit, withdraw and swap. The pool itself can be asked,
too, what it expects of a trade.
-/

namespace PoolMarket

/-- A pool as a trader sees it. -/
structure Pair where
  contract : Addr
  assets : DenomPair
  name : String
  snapshot : Snapshot
  deriving DecidableEq, Repr

namespace Pair

/-- The denom of the shares, made of the address of the contract. -/
def sharesDenom (p : Pair) : Denom := Denom.sharesOf p.contract

/-! ### Estimates -/

/-- The shares a deposit would be given, and what they would be worth. -/
def provide (p : Pair) (amounts : Both Amount) : Outcome DepositPreview := do
  let (shares, value) ← p.snapshot.provide amounts
  return { shares, value := Coin.forPair p.assets value }

/-- What some shares are worth, as coins in listing order. -/
def shareValue (p : Pair) (shares : Amount) : Outcome (Both Coin) := do
  let value ← p.snapshot.shareValue shares
  return Coin.forPair p.assets value

/-- Two coins the pool reports, in listing order. -/
def align (assets : DenomPair) (contract : Addr) (coins : Both Coin) : Outcome (Both Amount) :=
  match Coin.align? assets coins with
  | some amounts => .ok amounts
  | none => .error (.pairMismatch contract.text)

/-- An offer has to be one of the two assets, and not empty. -/
def checkOffer (p : Pair) (offer : Coin) : Outcome Unit :=
  if !p.assets.contains offer.denom then .error (p.assets.unexpected offer.denom)
  else if offer.amount.isZero then .error (.invalidAmount .emptyOffer)
  else .ok ()

/-! ### Instructions -/

/-- A tolerance that is given must not be too high. -/
def checkTolerance : Option BasisPoints → Outcome Unit
  | some tolerance => tolerance.checkTolerance
  | none => .ok ()

/-- The call that lets the pool take an amount of a token; nothing for a native coin, which is
attached instead, or for an empty amount. -/
def allowance (p : Pair) (coin : Coin) : Outcome (List Instruction) :=
  match coin.denom with
  | .native _ => .ok []
  | .token token =>
    if coin.amount.isZero then .ok []
    else do
      let call ← Instruction.ofMessage token (TokenCall.allow p.contract coin.amount).toJson []
      return [call]

/-- The calls of a deposit: what tokens the pool may take, then the deposit itself. -/
def depositCalls (p : Pair) (amounts : Both Amount) (tolerance : Option BasisPoints)
    (receiver : Option Addr) : Outcome (List Instruction) := do
  if amounts.first.isZero && amounts.second.isZero then .error (.invalidAmount .emptyDeposit)
  checkTolerance tolerance
  let coins := Coin.forPair p.assets amounts
  let first ← p.allowance coins.first
  let second ← p.allowance coins.second
  let deposit ← Instruction.ofMessage p.contract (PairCall.provide tolerance receiver none).toJson
    (coins.toList.filter fun c => c.denom.isNative)
  return first ++ second ++ [deposit]

/-- The call of a withdrawal, with the shares attached to it. -/
def withdrawCalls (p : Pair) (shares : Amount) (receiver : Option Addr) :
    Outcome (List Instruction) := do
  if shares.isZero then .error (.invalidAmount .emptyWithdrawal)
  let call ← Instruction.ofMessage p.contract (PairCall.withdraw receiver none).toJson
    [⟨shares, p.sharesDenom⟩]
  return [call]

/-- The call of a swap, which hands the offer over to the pool with its message. -/
def swapCall (p : Pair) (offer : Coin) (tolerance : Option BasisPoints) (expected : Option Amount)
    (receiver : Option Addr) : Outcome Instruction := do
  p.checkOffer offer
  checkTolerance tolerance
  Instruction.handOver p.contract (PairCall.swap expected tolerance receiver none).toJson offer

/-! ### Previews by the pool

An offer is checked before the pool is asked, and the coins of its reply are put into listing
order. -/

/-- The question what a swap of an offer would pay. -/
def previewSwap (p : Pair) (offer : Coin) : Outcome (Inquiry SwapResult) := do
  p.checkOffer offer
  return .previewSwap p.contract offer

/-- The question what a swap of an offer would pay at the rate before it. -/
def previewNaiveSwap (p : Pair) (offer : Coin) : Outcome (Inquiry NaiveResult) := do
  p.checkOffer offer
  return .previewNaiveSwap p.contract offer

/-- The question what shares a deposit would be given. -/
def previewDeposit (p : Pair) (amounts : Both Amount) : Inquiry DepositPreview :=
  .previewDeposit p.contract (Coin.forPair p.assets amounts)

/-- A preview of a deposit with its coins in listing order; they have to be of the two assets. -/
def arrange (p : Pair) (preview : DepositPreview) : Outcome DepositPreview := do
  let value ← align p.assets p.contract preview.value
  return { preview with value := Coin.forPair p.assets value }

end Pair

end PoolMarket
