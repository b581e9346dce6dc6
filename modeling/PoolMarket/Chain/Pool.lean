import PoolMarket.Amount
import PoolMarket.Wire.PairContract

/-!
# Pools on the chain

The accounting of a pair contract. A pool holds two reserves whose product a swap keeps, and issues
shares of them.
-/

namespace PoolMarket.Chain

/-- A pool: its two assets, what it holds of them, how many shares are issued, and its fees. -/
structure Pool where
  assets : DenomPair
  reserves : Both Amount
  shares : Amount
  fees : Fees
  deriving DecidableEq, Repr

namespace Pool

/-- A pool just listed: nothing in it, no shares issued. -/
def new (assets : DenomPair) (fees : Fees) : Pool :=
  { assets, reserves := .same .zero, shares := .zero, fees }

/-- The least number of shares the first deposit may mint. -/
def minimumShares : Amount := .ofUInt32 1000

/-- The side on which an asset stands, refused with the two that would do. -/
def side (p : Pool) (d : Denom) : Outcome Side :=
  match p.assets.side? d with
  | some s => .ok s
  | none => .error (p.assets.unexpected d)

/-- Both reserves hold something, so there is a rate. -/
def checkReserves (p : Pool) : Outcome Unit :=
  if p.reserves.first.isZero || p.reserves.second.isZero then .error .zeroReserve else .ok ()

/-- So many shares have been issued. -/
def checkSupply (p : Pool) (shares : Amount) : Outcome Unit :=
  if p.shares < shares then .error (.invalidAmount .overSupply) else .ok ()

/-- What a swap of an offer pays and is charged. -/
def quoteSwap (p : Pool) (offer : Coin) : Outcome SwapResult := do
  let side ← p.side offer.denom
  p.checkReserves
  let poolIn := p.reserves.get side
  let poolOut := p.reserves.get side.opposite
  let naive ← offer.amount.mulDiv poolOut poolIn .down
  let after ← poolIn.plus offer.amount
  -- what has to be left for the product of the reserves to stay
  let remaining ← poolIn.mulDiv poolOut after .down
  let actual ← poolOut.minus remaining
  let (totalFee, makerFee) ← p.fees.charged actual
  let paid ← actual.minus totalFee
  return { paid, spread := naive.monus actual, totalFee, makerFee }

/-- What a swap of an offer would pay at the rate before it. -/
def quoteNaive (p : Pool) (offer : Coin) : Outcome NaiveResult := do
  let side ← p.side offer.denom
  p.checkReserves
  let naive ← offer.amount.mulDiv (p.reserves.get side.opposite) (p.reserves.get side) .down
  let (totalFee, makerFee) ← p.fees.charged naive
  let paid ← naive.minus totalFee
  return { paid, totalFee, makerFee }

/-- The shares a deposit mints. The first one mints the root of the product of its amounts, a later
one as many as keep every share's part of both reserves. -/
def sharesFor (p : Pool) (amounts : Both Amount) : Outcome Amount := do
  if p.shares.isZero then
    let root := amounts.first.rootOfProduct amounts.second
    if root < minimumShares then .error (.invalidAmount .firstDepositTooSmall)
    return root
  p.checkReserves
  let first ← amounts.first.mulDiv p.shares p.reserves.first .down
  let second ← amounts.second.mulDiv p.shares p.reserves.second .down
  return first.least second

/-- What shares are worth: their part of each reserve, and nothing where none are issued. The pool's
own code for it agrees with that of a snapshot (`worth_eq_shareValue`). -/
def worth (p : Pool) (shares : Amount) : Outcome (Both Amount) := do
  if p.shares.isZero then return .same .zero
  let first ← p.reserves.first.mulDiv shares p.shares .down
  let second ← p.reserves.second.mulDiv shares p.shares .down
  return ⟨first, second⟩

/-- The worth of shares as coins of the two assets, in listing order. -/
def shareValue (p : Pool) (shares : Amount) : Outcome (Both Coin) := do
  let amounts ← p.worth shares
  return Coin.forPair p.assets amounts

/-- Adds a coin to the amounts on its side. Two coins of one asset add up, which is what makes them
no deposit of both. -/
def addCoin (p : Pool) (amounts : Both Amount) (coin : Coin) : Outcome (Both Amount) := do
  let side ← p.side coin.denom
  let sum ← (amounts.get side).plus coin.amount
  return amounts.set side sum

/-- The amounts of two coins by side, whatever their order. -/
def align (p : Pool) (offer : Both Coin) : Outcome (Both Amount) := do
  let amounts ← p.addCoin (.same .zero) offer.first
  p.addCoin amounts offer.second

/-- The pool with a deposit and the shares minted for it. -/
def grow (p : Pool) (amounts : Both Amount) (minted : Amount) : Outcome Pool := do
  let first ← p.reserves.first.plus amounts.first
  let second ← p.reserves.second.plus amounts.second
  let shares ← p.shares.plus minted
  return { p with reserves := ⟨first, second⟩, shares }

/-- What a deposit would mint and what that would be worth, reckoned on the pool after it. -/
def previewDeposit (p : Pool) (offer : Both Coin) : Outcome DepositPreview := do
  let amounts ← p.align offer
  let minted ← p.sharesFor amounts
  let after ← p.grow amounts minted
  let value ← after.shareValue minted
  return { shares := minted, value }

/-- A fee as the pool reports it, in 16 bits. -/
def reportedFee (b : BasisPoints) : Outcome UInt16 :=
  if b.val < UInt16.size then .ok (UInt16.ofNat b.val) else .error (.invalidFee .tooWide)

/-- What the pool reports of itself. Fees are at most the whole, so `reportedFee` never fails on
them. -/
def config (p : Pool) (admin : Addr) : Outcome PairConfig := do
  let totalFee ← reportedFee p.fees.total
  let makerFee ← reportedFee p.fees.maker
  return { admin, feeReceiver := admin, totalFee, makerFee, endorsed := true }

/-! ### Transactions -/

/-- An operation that changes a pool step by step. One that fails leaves what it has changed until
then, so it is for the chain to run it on a copy. -/
abbrev Transaction (α : Type) := ExceptT Fault (StateM Pool) α

/-- What comes of a transaction, and the pool as it leaves it. -/
def Transaction.on {α : Type} (t : Transaction α) (p : Pool) : Outcome α × Pool :=
  StateT.run (ExceptT.run t) p

/-- Mints shares for two amounts and takes them in. The reserves are set before the shares are added
up, so an overflow there leaves a pool half changed: hence the copy that the chain works on. -/
def deposit (amounts : Both Amount) : Transaction Amount := do
  let p ← get
  let minted ← p.sharesFor amounts
  let first ← p.reserves.first.plus amounts.first
  let second ← p.reserves.second.plus amounts.second
  set { p with reserves := ⟨first, second⟩ }
  let shares ← p.shares.plus minted
  modify fun q => { q with shares }
  return minted

/-- Pays out what shares are worth and takes them back. -/
def withdraw (shares : Amount) : Transaction (Both Coin) := do
  let p ← get
  p.checkSupply shares
  let value ← p.shareValue shares
  let first ← p.reserves.first.minus value.first.amount
  let second ← p.reserves.second.minus value.second.amount
  set { p with reserves := ⟨first, second⟩ }
  let left ← p.shares.minus shares
  modify fun q => { q with shares := left }
  return value

/-- The maker's fee leaves the pool together with what is paid. -/
def swap (offer : Coin) : Transaction SwapResult := do
  let p ← get
  let result ← p.quoteSwap offer
  let side ← p.side offer.denom
  let out ← result.paid.plus result.makerFee
  let poolIn ← (p.reserves.get side).plus offer.amount
  set { p with reserves := p.reserves.set side poolIn }
  let poolOut ← (p.reserves.get side.opposite).minus out
  modify fun q => { q with reserves := q.reserves.set side.opposite poolOut }
  return result

/-- Sets other fees; they are fees already, so there is nothing to check. -/
def setFees (fees : Fees) : Transaction Unit := modify fun p => { p with fees }

end Pool

end PoolMarket.Chain
