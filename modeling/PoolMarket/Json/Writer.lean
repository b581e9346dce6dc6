import PoolMarket.Double.Shortest
import PoolMarket.Json.Basic
import PoolMarket.Text

/-!
# Writing JSON

The compact text: no blanks, members in their order, and in strings only the quote, the backslash
and the control characters escaped.
-/

namespace PoolMarket.Json

/-- Four hexadecimal digits, filled up with zeros; only control characters are written with them. -/
def hex4 (n : Nat) : List Char :=
  let digits := Nat.toDigits 16 n
  List.replicate (4 - digits.length) '0' ++ digits

/-- A character as it stands in a string. `stringPart?_escape` reads every one of them back. -/
def escape (c : Char) : List Char :=
  match c with
  | '"' => ['\\', '"']
  | '\\' => ['\\', '\\']
  | '\x08' => ['\\', 'b']
  | '\t' => ['\\', 't']
  | '\n' => ['\\', 'n']
  | '\x0c' => ['\\', 'f']
  | '\r' => ['\\', 'r']
  | c => if c.toNat < 0x20 then '\\' :: 'u' :: hex4 c.toNat else [c]

/-- A string with its quotes. -/
def quoted (s : String) : List Char := '"' :: s.toList.flatMap escape ++ ['"']

/-- A number: the digits of an integer, or the shortest decimal of a double. -/
def Number.chars : Number → List Char
  | .int (.ofNat n) => Digits.ofNat n
  | .int (.negSucc n) => '-' :: Digits.ofNat (n + 1)
  | .double x => (Double.text x).toList

mutual

/-- The characters of a value's text. -/
def chars : Json → List Char
  | .null => "null".toList
  | .bool b => if b then "true".toList else "false".toList
  | .num n => n.chars
  | .str s => quoted s
  | .arr items => '[' :: charsItems items
  | .obj members => '\x7b' :: charsMembers members
  | .unusable => "null".toList

/-- Items with commas between them, up to the bracket behind the last. -/
def charsItems : List Json → List Char
  | [] => [']']
  | j :: rest => j.chars ++ charsMoreItems rest

def charsMoreItems : List Json → List Char
  | [] => [']']
  | j :: rest => ',' :: j.chars ++ charsMoreItems rest

/-- Members with commas between them, up to the brace behind the last. -/
def charsMembers : List (String × Json) → List Char
  | [] => ['\x7d']
  | (name, j) :: rest => quoted name ++ ':' :: j.chars ++ charsMoreMembers rest

def charsMoreMembers : List (String × Json) → List Char
  | [] => ['\x7d']
  | (name, j) :: rest => ',' :: quoted name ++ ':' :: j.chars ++ charsMoreMembers rest

end

/-- The compact text of a value. `ofText?_text` reads it back where the value is `exact`. -/
def text (j : Json) : String := String.ofList j.chars

end PoolMarket.Json
