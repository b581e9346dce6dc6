import PoolMarket.Double.Rounded
import PoolMarket.Json.Basic
import PoolMarket.Text

/-!
# Reading JSON

Strict reading over lists of characters. Each reader returns what it read and the rest. A value is
read with a bound on its nested parts, which the length of the text provides.
-/

namespace PoolMarket.Json

/-- The four characters that may stand between the parts of a value. -/
def isBlank (c : Char) : Bool := c == ' ' || c == '\n' || c == '\t' || c == '\r'

def skipBlanks (cs : List Char) : List Char := cs.dropWhile isBlank

/-! ### Strings -/

/-- The value of a hexadecimal digit in either case. -/
def hexDigit? (c : Char) : Option Nat :=
  if c.isDigit then some (c.toNat - '0'.toNat)
  else if 'a' ≤ c ∧ c ≤ 'f' then some (c.toNat - 'a'.toNat + 10)
  else if 'A' ≤ c ∧ c ≤ 'F' then some (c.toNat - 'A'.toNat + 10)
  else none

/-- Four hexadecimal digits, the most significant first. -/
def hex4? (a b c d : Char) : Option Nat := do
  let a ← hexDigit? a
  let b ← hexDigit? b
  let c ← hexDigit? c
  let d ← hexDigit? d
  return ((a * 16 + b) * 16 + c) * 16 + d

/-- The character behind a backslash that stands for one character. -/
def shortEscape? : Char → Option Char
  | '"' => some '"'
  | '\\' => some '\\'
  | '/' => some '/'
  | 'b' => some '\x08'
  | 'f' => some '\x0c'
  | 'n' => some '\n'
  | 'r' => some '\r'
  | 't' => some '\t'
  | _ => none

def isHighSurrogate (n : Nat) : Bool := 0xD800 ≤ n && n < 0xDC00

def isLowSurrogate (n : Nat) : Bool := 0xDC00 ≤ n && n < 0xE000

/-- One part of a string: a character, the end, or a surrogate without its other half. -/
inductive StringPart where
  | char (c : Char)
  | lone
  | close

/-- The part behind `\u` and four digits of value `n`. -/
def afterUnicode (n : Nat) (rest : List Char) : StringPart × List Char :=
  if isHighSurrogate n then
    match rest with
    -- two halves make one character beyond the first 65536
    | '\\' :: 'u' :: a :: b :: c :: d :: more =>
      match hex4? a b c d with
      | some low =>
        if isLowSurrogate low then
          (.char (Char.ofNat (0x10000 + (n - 0xD800) * 0x400 + (low - 0xDC00))), more)
        else (.lone, rest)
      | none => (.lone, rest)
    | _ => (.lone, rest)
  else if isLowSurrogate n then (.lone, rest)
  else (.char (Char.ofNat n), rest)

/-- The next part of a string. -/
def stringPart? : List Char → Option (StringPart × List Char)
  | [] => none
  | '"' :: rest => some (.close, rest)
  | '\\' :: 'u' :: a :: b :: c :: d :: rest =>
    (hex4? a b c d).map fun n => afterUnicode n rest
  | '\\' :: c :: rest => (shortEscape? c).map fun c => (.char c, rest)
  | c :: rest => if c.toNat < 0x20 ∨ c = '\\' then none else some (.char c, rest)

/-- A string up to its closing quote; its characters are absent if one is half a pair. -/
def readString? : Nat → List Char → Option (Option (List Char) × List Char)
  | 0, _ => none
  | bound + 1, cs =>
    match stringPart? cs with
    | none => none
    | some (.close, rest) => some (some [], rest)
    | some (.char c, rest) =>
      (readString? bound rest).map fun (s, rest) => (s.map (c :: ·), rest)
    | some (.lone, rest) => (readString? bound rest).map fun (_, rest) => (none, rest)

/-! ### Numbers -/

/-- Takes digits into the significand while it fits 64 bits; what is left over comes back. -/
def absorb (significand : Nat) : List Char → Nat × List Char
  | [] => (significand, [])
  | c :: rest =>
    let more := significand * 10 + (c.toNat - '0'.toNat)
    if more < UInt64.size then absorb more rest else (significand, c :: rest)

/-- The double of a literal from its digits before and behind the point and its exponent. -/
def double? (negative : Bool) (whole frac : List Char) (exponent : Int) : Option Float :=
  let (s, excess) := absorb 0 whole
  let (s, left) := absorb s frac
  -- digits before the point that did not fit count upwards, those behind it that did downwards
  let taken := frac.length - left.length
  (Double.scaled? s (excess.length - taken + exponent)).map fun f => if negative then -f else f

/-- The number of a literal: an integer if it has neither point nor exponent and fits 64 bits. -/
def Number.ofLiteral? (negative : Bool) (whole : List Char) (frac : Option (List Char))
    (exponent : Option Int) : Option Number :=
  let n := Nat.ofDigitChars 10 whole 0
  if frac.isNone && exponent.isNone && !negative && n < UInt64.size then some (.int n)
  -- minus zero is a double
  else if frac.isNone && exponent.isNone && negative && 0 < n && 2 * n ≤ UInt64.size then
    some (.int (-n))
  else (double? negative whole (frac.getD []) (exponent.getD 0)).map .double

/-- One or more digits, as many as there are. -/
def readDigits? (cs : List Char) : Option (List Char × List Char) :=
  match cs.takeWhile Char.isDigit with
  | [] => none
  | ds => some (ds, cs.dropWhile Char.isDigit)

/-- The digits in front of the point: no zero in front of others. -/
def readWhole? (cs : List Char) : Option (List Char × List Char) := do
  let (ds, rest) ← readDigits? cs
  if ds.head? = some '0' ∧ 1 < ds.length then none else some (ds, rest)

/-- The digits behind the point, if a point follows. -/
def readFrac? : List Char → Option (Option (List Char) × List Char)
  | '.' :: rest => (readDigits? rest).map fun (ds, rest) => (some ds, rest)
  | rest => some (none, rest)

/-- The exponent with its sign, if an `e` follows. -/
def readExponent? : List Char → Option (Option Int × List Char)
  | c :: rest =>
    if c = 'e' ∨ c = 'E' then
      match rest with
      | '-' :: rest =>
        (readDigits? rest).map fun (ds, rest) => (some (-(Nat.ofDigitChars 10 ds 0 : Int)), rest)
      | '+' :: rest =>
        (readDigits? rest).map fun (ds, rest) => (some (Nat.ofDigitChars 10 ds 0 : Int), rest)
      | rest =>
        (readDigits? rest).map fun (ds, rest) => (some (Nat.ofDigitChars 10 ds 0 : Int), rest)
    else some (none, c :: rest)
  | [] => some (none, [])

/-- A number behind its sign, if it had one. A literal past the largest double is well formed and
yet `unusable`. -/
def readUnsigned? (negative : Bool) (cs : List Char) : Option (Json × List Char) := do
  let (whole, rest) ← readWhole? cs
  let (frac, rest) ← readFrac? rest
  let (exponent, rest) ← readExponent? rest
  match Number.ofLiteral? negative whole frac exponent with
  | some n => return (.num n, rest)
  | none => return (.unusable, rest)

/-! ### Values -/

/-- The value of a string that may hold half a surrogate pair. -/
def ofStringParts : Option (List Char) → Json
  | some cs => .str (String.ofList cs)
  | none => .unusable

/-- The value of an object, some of whose names may hold half a surrogate pair. -/
def ofMembers (members : List (Option (List Char) × Json)) : Json :=
  match members.mapM fun (name, j) => name.map fun cs => (String.ofList cs, j) with
  | some members => .obj members
  | none => .unusable

mutual

/-- One value, with blanks in front of it. -/
def readValue? : Nat → List Char → Option (Json × List Char)
  | 0, _ => none
  | bound + 1, cs =>
    match skipBlanks cs with
    | 'n' :: 'u' :: 'l' :: 'l' :: rest => some (.null, rest)
    | 't' :: 'r' :: 'u' :: 'e' :: rest => some (.bool true, rest)
    | 'f' :: 'a' :: 'l' :: 's' :: 'e' :: rest => some (.bool false, rest)
    | '"' :: rest => (readString? bound rest).map fun (s, rest) => (ofStringParts s, rest)
    | '[' :: rest =>
      match skipBlanks rest with
      | ']' :: rest => some (.arr [], rest)
      | rest => (readItems? bound rest).map fun (items, rest) => (.arr items, rest)
    | '\x7b' :: rest =>
      match skipBlanks rest with
      | '\x7d' :: rest => some (.obj [], rest)
      | rest => (readMembers? bound rest).map fun (members, rest) => (ofMembers members, rest)
    | '-' :: rest => readUnsigned? true rest
    | cs => readUnsigned? false cs

/-- Items up to the closing bracket, at least one. -/
def readItems? : Nat → List Char → Option (List Json × List Char)
  | 0, _ => none
  | bound + 1, cs => do
    let (j, rest) ← readValue? bound cs
    match skipBlanks rest with
    | ',' :: rest =>
      let (items, rest) ← readItems? bound rest
      return (j :: items, rest)
    | ']' :: rest => return ([j], rest)
    | _ => none

/-- Members up to the closing brace, at least one. -/
def readMembers? : Nat → List Char → Option (List (Option (List Char) × Json) × List Char)
  | 0, _ => none
  | bound + 1, cs => do
    let (name, rest) ← match skipBlanks cs with
      | '"' :: rest => readString? bound rest
      | _ => none
    let (j, rest) ← match skipBlanks rest with
      | ':' :: rest => readValue? bound rest
      | _ => none
    match skipBlanks rest with
    | ',' :: rest =>
      let (members, rest) ← readMembers? bound rest
      return ((name, j) :: members, rest)
    | '\x7d' :: rest => return ([(name, j)], rest)
    | _ => none

end

/-- The value of a whole text. The bound suffices for every value that the text could hold, since
each reader uses up at least one character for each unit of it. -/
def ofText? (s : String) : Option Json := do
  let cs := s.toList
  let (j, rest) ← readValue? (2 * cs.length + 2) cs
  if (skipBlanks rest).isEmpty then some j else none

end PoolMarket.Json
