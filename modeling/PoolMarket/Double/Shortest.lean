/-!
# The shortest decimal of a double

A double is written with the fewest digits that read back as it, and of those the nearest. The
doubles that round to it form an interval around it; a decimal with so many digits reads back
exactly if it lies in that interval, so the two neighbours of the double on each decimal grid are
tried, the coarsest grid first.
-/

namespace PoolMarket.Double

/-- A positive double as `mantissa * 2 ^ exponent`. -/
structure Binary where
  mantissa : Nat
  exponent : Int
  /-- Whether the next smaller double is only half as far away as the next larger one. -/
  narrowBelow : Bool
  deriving Repr

def Binary.ofBits (bits : Nat) : Binary :=
  let field : Nat := bits / Nat.pow 2 52 % 2048
  let fraction : Nat := bits % Nat.pow 2 52
  if field = 0 then ⟨fraction, -1074, false⟩
  else ⟨Nat.pow 2 52 + fraction, (field : Int) - 1075, fraction = 0 ∧ 1 < field⟩

/-- A number `digits * 10 ^ exponent`. -/
structure Decimal where
  digits : Nat
  exponent : Int
  deriving Repr, DecidableEq

/-- Four times the double and the ends of its interval, over the common denominator `den`:
`low ≤ point ≤ high`, all to be divided by `den`. -/
structure Interval where
  low : Nat
  point : Nat
  high : Nat
  den : Nat
  closed : Bool

def Binary.interval (b : Binary) : Interval :=
  let num := Nat.pow 2 b.exponent.toNat
  let den := Nat.pow 2 (-b.exponent).toNat
  -- a number halfway between two doubles rounds to the one with the even mantissa
  { low := (4 * b.mantissa - if b.narrowBelow then 1 else 2) * num
    point := 4 * b.mantissa * num
    high := (4 * b.mantissa + 2) * num
    den := 4 * den
    closed := b.mantissa % 2 = 0 }

/-- Whether `digits * 10 ^ exponent` rounds to the double of the interval. -/
def Interval.holds (i : Interval) (d : Decimal) : Bool :=
  let value := d.digits * Nat.pow 10 d.exponent.toNat * i.den
  let unit := Nat.pow 10 (-d.exponent).toNat
  if i.closed then i.low * unit ≤ value && value ≤ i.high * unit
  else i.low * unit < value && value < i.high * unit

/-- The neighbour of the double on the grid of `10 ^ exponent` that reads back as it, the nearer
one if both do; the even one of two equally near. -/
def Interval.onGrid? (i : Interval) (exponent : Int) : Option Decimal :=
  let num := i.point * Nat.pow 10 (-exponent).toNat
  let den := i.den * Nat.pow 10 exponent.toNat
  let below : Decimal := ⟨num / den, exponent⟩
  let above : Decimal := ⟨num / den + 1, exponent⟩
  let twice := 2 * (num % den)
  let belowFirst := twice < den || (twice == den && below.digits % 2 == 0)
  let (near, far) := if belowFirst then (below, above) else (above, below)
  if i.holds near then some near
  else if i.holds far then some far
  else none

/-- The power of ten of the leading digit of `num / den`, found from an estimate by steps. -/
def leadingPower (num den : Nat) : Int :=
  let size := (num.log2 : Int) - (den.log2 : Int)
  -- 1233 / 4096 is a little less than the decimal logarithm of two
  let guess := size * 1233 / 4096 - 1
  let reaches (e : Int) : Bool := Nat.pow 10 e.toNat * den ≤ num * Nat.pow 10 (-e).toNat
  if reaches (guess + 2) then guess + 2
  else if reaches (guess + 1) then guess + 1
  else if reaches guess then guess
  else guess - 1

/-- Tries grids of ever more digits. -/
def Interval.search (i : Interval) (lead : Int) : Nat → Nat → Decimal
  | 0, n => ⟨0, n⟩
  | tries + 1, n =>
    match i.onGrid? (lead - n) with
    | some d => d
    | none => i.search lead tries (n + 1)

def Decimal.trim (d : Decimal) : Nat → Decimal
  | 0 => d
  | n + 1 => if d.digits % 10 = 0 ∧ d.digits ≠ 0 then
      Decimal.trim ⟨d.digits / 10, d.exponent + 1⟩ n else d

/-- The shortest decimal that reads back as a positive double. -/
def shortest (b : Binary) : Decimal :=
  let i := b.interval
  -- seventeen digits tell any two doubles apart
  (i.search (leadingPower i.point i.den) 18 0).trim 20

/-- Positional where the leading digit stands within sixteen places before the point or five
behind it, else with an exponent and its sign; a whole number keeps `.0` behind it. -/
def Decimal.text (d : Decimal) : String :=
  let ds := Nat.toDigits 10 d.digits
  let n : Int := ds.length
  let point := n + d.exponent
  let zeros (k : Int) : List Char := List.replicate k.toNat '0'
  if 0 ≤ d.exponent ∧ point ≤ 16 then String.ofList (ds ++ zeros d.exponent ++ ['.', '0'])
  else if 0 < point ∧ point ≤ 16 then
    String.ofList (ds.take point.toNat ++ '.' :: ds.drop point.toNat)
  else if -5 < point ∧ point ≤ 0 then String.ofList ('0' :: '.' :: zeros (-point) ++ ds)
  else
    let fraction := if ds.length = 1 then [] else '.' :: ds.drop 1
    let mark := if 0 < point then "e+" else "e"
    String.ofList (ds.take 1 ++ fraction) ++ mark ++ toString (point - 1)

def text (f : Float) : String :=
  let bits := f.toBits.toNat
  let sign := if Nat.pow 2 63 ≤ bits then "-" else ""
  let magnitude := bits % Nat.pow 2 63
  if magnitude = 0 then sign ++ "0.0" else sign ++ (shortest (.ofBits magnitude)).text

end PoolMarket.Double
