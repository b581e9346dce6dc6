import PoolMarket.Amount
import PoolMarket.Double.Rounded
import PoolMarket.Text

/-!
# Basis points

Shares of a whole in units of one hundredth of a percent. `10000` of them are the whole.

As a decimal fraction, `50` basis points are written `0.005`. Reading takes digits, optionally a point
and more digits; digits past the fourth place have to be zero.
-/

namespace PoolMarket

/-- How many numbers of basis points there are: they fit 32 bits. -/
abbrev BasisPoints.size : Nat := 4294967296

/-- A share in basis points. Values above the whole are representable. -/
structure BasisPoints where
  val : Nat
  lt : val < BasisPoints.size
  deriving DecidableEq, Repr

namespace BasisPoints

abbrev whole : Nat := 10000

@[ext] theorem ext {a b : BasisPoints} (h : a.val = b.val) : a = b := by
  cases a; cases b; simp_all

/-- A number of basis points, `none` if it does not fit their 32 bits. -/
def ofNat? (n : Nat) : Option BasisPoints :=
  if h : n < size then some ⟨n, h⟩ else none

def zero : BasisPoints := ⟨0, by decide⟩

instance : Inhabited BasisPoints := ⟨zero⟩

def ofUInt16 (n : UInt16) : BasisPoints := ⟨n.toNat, Nat.lt_trans n.toNat_lt (by decide)⟩

/-- Whether the share is at most the whole, which fees have to be. -/
def isPercent (b : BasisPoints) : Bool := b.val ≤ whole

/-- What is left of the whole, `none` for a share that exceeds it. -/
def complement? (b : BasisPoints) : Option BasisPoints :=
  if b.val ≤ whole then ofNat? (whole - b.val) else none

/-- The sum of two shares, `none` if it leaves the 32 bits. -/
def add? (a b : BasisPoints) : Option BasisPoints := ofNat? (a.val + b.val)

/-- A share as an amount, to be multiplied with one in `apply`. -/
def toAmount (b : BasisPoints) : Amount := ⟨b.val, Nat.lt_trans b.lt (by decide)⟩

/-- The divisor of `apply`. -/
def wholeAmount : Amount := ⟨whole, by decide⟩

/-- This share of an amount. The product with the amount has to fit an amount itself. -/
def apply (b : BasisPoints) (a : Amount) (r : Rounding) : Outcome Amount :=
  match a.mul? b.toAmount with
  | none => .error (.overflow .basisPointsProduct)
  | some p => p.dividedBy wholeAmount r

/-- The largest slippage a trade may be asked to tolerate. -/
def maxTolerance : BasisPoints := ⟨5000, by decide⟩

/-- Refuses a tolerance above `maxTolerance`; every trade and every configuration goes through
it. -/
def checkTolerance (b : BasisPoints) : Outcome Unit :=
  if b.val ≤ maxTolerance.val then .ok () else .error (.invalidSetting .toleranceTooHigh)

/-! ### Decimal fractions -/

/-- Decimal places of one basis point. -/
abbrev places : Nat := 4

/-- The share as a decimal fraction, as short as it can be written: no trailing zeros, no bare
point. -/
def decimal (b : BasisPoints) : String := String.ofList (Digits.fixed places b.val)

/-- The share as a number of basis points, for people to read; no reader takes it back. -/
def text (b : BasisPoints) : String := String.ofList (Digits.ofNat b.val) ++ "bp"

/-- The share as a double, to be shown only. -/
def fraction (b : BasisPoints) : Float := Double.ofNat b.val / Double.ofNat whole

/-- The digits before the point and, where there is a point, those after it. -/
def splitPoint (cs : List Char) : List Char × Option (List Char) :=
  match cs.dropWhile (· != '.') with
  | [] => (cs, none)
  | _ :: frac => (cs.takeWhile (· != '.'), some frac)

/-- The basis points in the digits after the point, `none` if they are finer than that. -/
def ofPlaces? (frac : List Char) : Option Nat :=
  if (frac.drop places).all (· == '0') then
    some (Nat.ofDigitChars 10 (frac.take places) 0 * Nat.pow 10 (places - frac.length))
  else none

/-- Puts the two parts together; either step can leave the range. -/
def assemble (wholePart fraction : Nat) : Outcome BasisPoints :=
  if wholePart < size then
    match ofNat? (wholePart * whole + fraction) with
    | some b => .ok b
    | none => .error (.overflow .decimalTotal)
  else .error (.overflow .decimalWhole)

/-- Reads a decimal fraction. Which parts are malformed, too fine or too large is told apart in this
order: the digits of both parts first, then the places past the fourth, then the two bounds of
`assemble`. -/
def ofDecimal (s : String) : Outcome BasisPoints :=
  match splitPoint s.toList with
  | (front, none) =>
    match Digits.value? front with
    | some w => assemble w 0
    | none => .error (.invalidSetting .malformedDecimal)
  | (front, some frac) =>
    match Digits.value? front, Digits.value? frac with
    | some w, some _ =>
      match ofPlaces? frac with
      | some f => assemble w f
      | none => .error (.invalidSetting .decimalTooFine)
    | _, _ => .error (.invalidSetting .malformedDecimal)

end BasisPoints

end PoolMarket
