/-!
# Digits and base64

The two ways in which plain data are written as ASCII characters: natural numbers as decimal digits,
with a fixed count of decimal places where that is asked for, and bytes as base64. Both stand on lists
of characters; `String` comes in only where a message is written.
-/

namespace PoolMarket

/-! ## Decimal digits -/

namespace Digits

/-- The number a non-empty run of ASCII digits stands for; leading zeros are allowed. -/
def value? (cs : List Char) : Option Nat :=
  if cs ≠ [] ∧ cs.all Char.isDigit then some (Nat.ofDigitChars 10 cs 0) else none

/-- The digits of `n`, without leading zeros; `value?` reads them back (`value?_ofNat`). -/
def ofNat (n : Nat) : List Char :=
  Nat.toDigits 10 n

/-- The digits of `n`, filled up with zeros on the left to at least `width`. -/
def padded (width n : Nat) : List Char :=
  List.replicate (width - (ofNat n).length) '0' ++ ofNat n

/-- The digits without the zeros at the end. `getLast?_trimZeros` says that none is left there, and
`ofDigitChars_trimZeros` what those that are gone were worth. -/
def trimZeros (cs : List Char) : List Char :=
  (cs.reverse.dropWhile (· == '0')).reverse

/-- `n` units of the last of `places` decimal places, without trailing zeros and without a point
that nothing follows. Both forms are taken apart by `fixed_of_mod_eq_zero` and
`fixed_of_mod_ne_zero`. -/
def fixed (places n : Nat) : List Char :=
  let unit := Nat.pow 10 places
  if n % unit = 0 then ofNat (n / unit)
  else ofNat (n / unit) ++ '.' :: trimZeros (padded places (n % unit))

/-- Reading undoes writing: the digits of `n` are a run that `value?` accepts, and stand for `n`.
Every round trip of a number (amounts, basis points, decimals) ends in this one. -/
theorem value?_ofNat (n : Nat) : value? (ofNat n) = some n := by
  have digits : (ofNat n).all Char.isDigit = true := by
    simp only [List.all_eq_true]
    intro c hc
    exact Nat.isDigit_of_mem_toDigits (by omega) (by omega) hc
  have nonempty : ofNat n ≠ [] := Nat.toDigits_ne_nil
  rw [value?, if_pos ⟨nonempty, digits⟩]
  simp [ofNat, Nat.ofDigitChars_toDigits]

end Digits

/-! ## Base64

The standard alphabet with padding. Reading is strict: whole groups of four, padding only in the
last group, and no bits set that the padding leaves unused. -/

namespace Base64


/-- The sixty-four characters in the order of their values. -/
def alphabet : List Char :=
  "ABCDEFGHIJKLMNOPQRSTUVWXYZabcdefghijklmnopqrstuvwxyz0123456789+/".toList

/-- The character for six bits. Only `n < 64` is ever asked for; past the end the pad stands in, so
that no proof has to carry the bound. -/
def symbol (n : Nat) : Char := alphabet.getD n '='

/-- The six bits that a character stands for, `none` for a character outside `alphabet`. -/
def value? (c : Char) : Option Nat := alphabet.findIdx? (· == c)

def pad : Char := '='

/-- Three bytes become four symbols. What is left over at the end, one byte or two, fills its last
symbol up with zero bits and is padded. -/
def encode : List UInt8 → List Char
  | [] => []
  | [a] =>
    let n := a.toNat
    [symbol (n / 4), symbol (n % 4 * 16), pad, pad]
  | [a, b] =>
    let n := a.toNat * 256 + b.toNat
    [symbol (n / 1024), symbol (n / 16 % 64), symbol (n % 16 * 4), pad]
  | a :: b :: c :: rest =>
    let n := (a.toNat * 256 + b.toNat) * 256 + c.toNat
    symbol (n / 262144) :: symbol (n / 4096 % 64) :: symbol (n / 64 % 64) :: symbol (n % 64) ::
      encode rest

/-- Reads groups of four symbols. The padded forms come first, so a group with `=` in it is never
taken as a whole one, and the bits that padding leaves unused have to be zero. -/
def decode? : List Char → Option (List UInt8)
  | [] => some []
  | [a, b, '=', '='] => do
    let a ← value? a
    let b ← value? b
    if b % 16 = 0 then some [UInt8.ofNat (a * 4 + b / 16)] else none
  | [a, b, c, '='] => do
    let a ← value? a
    let b ← value? b
    let c ← value? c
    if c % 4 = 0 then
      some [UInt8.ofNat (a * 4 + b / 16), UInt8.ofNat (b % 16 * 16 + c / 4)]
    else none
  | a :: b :: c :: d :: rest => do
    let a ← value? a
    let b ← value? b
    let c ← value? c
    let d ← value? d
    let more ← decode? rest
    some (UInt8.ofNat (a * 4 + b / 16) :: UInt8.ofNat (b % 16 * 16 + c / 4) ::
      UInt8.ofNat (c % 4 * 64 + d) :: more)
  | _ => none

end Base64

end PoolMarket
