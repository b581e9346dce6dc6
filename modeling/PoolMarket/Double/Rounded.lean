/-!
# Natural numbers as doubles

A natural number becomes the nearest double, halves going to the even neighbour. A decimal literal
becomes its leading digits, as many as fit 64 bits, scaled once by a power of ten; this is how the
readers of JSON numbers on the chain's side take them, and it can differ from the nearest double in
the last bit.
-/

namespace PoolMarket.Double

/-- Bits of a significand after the leading one. -/
abbrev fractionBits : Nat := 52

/-- `n / 2 ^ k` to the nearest, halves to even. -/
def shiftRound (n k : Nat) : Nat :=
  let unit := Nat.pow 2 k
  let q := n / unit
  let twice := 2 * (n % unit)
  if twice < unit then q
  else if unit < twice then q + 1
  else q + q % 2

/-- Significand and exponent of the double nearest to `n`: `n` is about `m * 2 ^ e`, where
`2 ^ 52 ≤ m ≤ 2 ^ 53` unless `n` is smaller than that. -/
def nearest (n : Nat) : Nat × Nat :=
  let e := n.log2 - fractionBits
  (shiftRound n e, e)

def bitsOfNat (n : Nat) : Nat :=
  if n = 0 then 0
  else
    let (m, e) := nearest n
    -- `m` has `log2 m` bits after its leading one; they move up to the full width
    let top := m.log2
    let field := e + top + 1023
    let unit := Nat.pow 2 fractionBits
    if 2047 ≤ field then 2047 * unit
    else field * unit + (m * (2 * unit) / Nat.pow 2 (top + 1) - unit)

/-- The double nearest to `n`; infinite past the largest one. -/
def ofNat (n : Nat) : Float := Float.ofBits (UInt64.ofNat (bitsOfNat n))

/-- The largest power of ten that is a double. -/
abbrev maxPower : Nat := 308

def powerOfTen (k : Nat) : Float := ofNat (Nat.pow 10 k)

/-- `f` divided by `10 ^ k`, in steps no larger than the largest power. -/
def scaleDown (f : Float) (k : Nat) : Float :=
  if k ≤ maxPower then f / powerOfTen k
  else if f == 0 then f
  else scaleDown (f / powerOfTen maxPower) (k - maxPower)
termination_by k
decreasing_by unfold maxPower at *; omega

/-- `significand * 10 ^ exponent` with one scaling, `none` past the largest double. -/
def scaled? (significand : Nat) (exponent : Int) : Option Float :=
  let f := ofNat significand
  if 0 ≤ exponent then
    if exponent.toNat ≤ maxPower then
      let scaled := f * powerOfTen exponent.toNat
      if scaled.isInf then none else some scaled
    else if f == 0 then some f
    else none
  else some (scaleDown f exponent.natAbs)

def hexBits (f : Float) : String :=
  let digits := Nat.toDigits 16 f.toBits.toNat
  String.ofList (List.replicate (16 - digits.length) '0' ++ digits)

end PoolMarket.Double
