import PoolMarket.Asset.DenomPair
import PoolMarket.Double.Rounded
import PoolMarket.Fees
import PoolMarket.Side

/-!
# Snapshots of a pool

A copy of a pool's deposits, shares and fees, and the accounting that can be done on it. Every
division rounds down, and products are exact until they are divided.
-/

namespace PoolMarket

/-- What is known of a pool at one moment. -/
structure Snapshot where
  deposits : Both Amount
  shares : Amount
  fees : Fees
  deriving DecidableEq, Repr

namespace Snapshot

/-- Shares shown for a deposit into an empty pool, of which the depositor owns all. -/
def bootstrapShares : Amount := .ofUInt32 1000

/-- Whether nothing of either asset is there; what is deposited then opens the pool. -/
def isEmpty (s : Snapshot) : Bool := s.deposits.first.isZero && s.deposits.second.isZero

/-- How much of the other asset one unit of the asset on `side` is worth, to be shown only. -/
def rate (s : Snapshot) (side : Side) : Float :=
  Double.ofNat (s.deposits.get side.opposite).val / Double.ofNat (s.deposits.get side).val

/-- The worth of an amount of the asset on `side` in the other asset at the current rate, with or
without the fees taken off first. -/
def value (s : Snapshot) (side : Side) (a : Amount) (feesIncluded : Bool) : Outcome Amount := do
  let here := s.deposits.get side
  if here.isZero then .error .zeroReserve
  let a ← if feesIncluded then s.fees.after a else .ok a
  a.mulDiv (s.deposits.get side.opposite) here .down

/-- The shares minted for a deposit and what they are worth right after it. -/
def provide (s : Snapshot) (amounts : Both Amount) : Outcome (Amount × Both Amount) := do
  if s.isEmpty then return (bootstrapShares, amounts)
  -- a pool that holds one asset only has no rate to mint at
  if s.deposits.first.isZero || s.deposits.second.isZero || s.shares.isZero then
    .error .zeroReserve
  let first ← amounts.first.mulDiv s.shares s.deposits.first .down
  let second ← amounts.second.mulDiv s.shares s.deposits.second .down
  let minted := first.least second
  let supply ← s.shares.plus minted
  -- the minted shares have a part in the deposit, too
  let value (side : Side) : Outcome Amount := do
    let deposit ← (s.deposits.get side).plus (amounts.get side)
    deposit.mulDiv minted supply .down
  let first ← value .first
  let second ← value .second
  return (minted, ⟨first, second⟩)

/-- What some shares are worth: their part of each reserve, and nothing of either where no shares
are issued. `shareValue_eq_ok` puts both cases into one equation. -/
def shareValue (s : Snapshot) (shares : Amount) : Outcome (Both Amount) := do
  if s.shares.isZero then return Both.same .zero
  let first ← s.deposits.first.mulDiv shares s.shares .down
  let second ← s.deposits.second.mulDiv shares s.shares .down
  return ⟨first, second⟩

end Snapshot

end PoolMarket
