/-!
# JSON values

A value as its text gives it: members in their order, repeated names kept. Some text is well formed
and yet denotes no value, such as a string with half of a surrogate pair or a number past the
largest double; it stands as `unusable`, which may be skipped but not read.

A value that is kept as it is, not read into a type, has its members sorted by name; of a repeated
name the last member counts. Such free-form values are compared and written as `Json.canonical`.
-/

namespace PoolMarket

/-- A number: an integer of up to 64 bits, or a double. -/
inductive Json.Number where
  | int (value : Int)
  | double (value : Float)
  deriving BEq, Repr

inductive Json where
  | null
  | bool (value : Bool)
  | num (value : Json.Number)
  | str (value : String)
  | arr (items : List Json)
  | obj (members : List (String × Json))
  | unusable
  deriving BEq, Repr

instance : Inhabited Json := ⟨.null⟩

namespace Json

/-- A natural number as JSON. Those beyond 64 bits have no number of their own kind (`exact`). -/
def nat (n : Nat) : Json := .num (.int n)

/-- The string that a value is, if it is one. -/
def string? : Json → Option String
  | .str s => some s
  | _ => none

/-- The truth value that a value is, if it is one. -/
def bool? : Json → Option Bool
  | .bool b => some b
  | _ => none

/-- A natural number below a bound; a double is not one, whatever its value. -/
def natBelow? (bound : Nat) : Json → Option Nat
  | .num (.int (.ofNat n)) => if n < bound then some n else none
  | _ => none

/-- An array, its items read alike. -/
def list? {α : Type} (read : Json → Option α) : Json → Option (List α)
  | .arr items => items.mapM read
  | _ => none

/-- Absent as `null`. -/
def ofOption {α : Type} (write : α → Json) : Option α → Json
  | none => .null
  | some a => write a

mutual

/-- Every part of the value can be read. -/
def usable : Json → Bool
  | .arr items => usableItems items
  | .obj members => usableMembers members
  | .unusable => false
  | _ => true

def usableItems : List Json → Bool
  | [] => true
  | j :: rest => j.usable && usableItems rest

def usableMembers : List (String × Json) → Bool
  | [] => true
  | (_, j) :: rest => j.usable && usableMembers rest

end

mutual

/-- How many containers are nested in each other. -/
def depth : Json → Nat
  | .arr items => depthItems items + 1
  | .obj members => depthMembers members + 1
  | _ => 0

def depthItems : List Json → Nat
  | [] => 0
  | j :: rest => max j.depth (depthItems rest)

def depthMembers : List (String × Json) → Nat
  | [] => 0
  | (_, j) :: rest => max j.depth (depthMembers rest)

end

/-- How many containers a kept value may have nested in each other. -/
abbrev maxDepth : Nat := 127

/-! ### Free-form values -/

/-- Puts a member in front of the first larger name, in place of a member of its own name. -/
def insertMember (name : String) (value : Json) : List (String × Json) → List (String × Json)
  | [] => [(name, value)]
  | (n, v) :: rest =>
    if name < n then (name, value) :: (n, v) :: rest
    else if name = n then (name, value) :: rest
    else (n, v) :: insertMember name value rest

mutual

/-- The value with its members sorted at every level. -/
def canonical : Json → Json
  | .arr items => .arr (canonicalItems items)
  | .obj members => .obj (canonicalMembers members [])
  | j => j

def canonicalItems : List Json → List Json
  | [] => []
  | j :: rest => j.canonical :: canonicalItems rest

/-- Adds members one after the other to those that are there. -/
def canonicalMembers : List (String × Json) → List (String × Json) → List (String × Json)
  | [], sorted => sorted
  | (name, j) :: rest, sorted => canonicalMembers rest (insertMember name j.canonical sorted)

end

/-- The value as a free-form one, with at most `room` containers nested in each other. -/
def freeForm? (room : Nat) (j : Json) : Option Json :=
  if j.usable && j.depth ≤ room then some j.canonical else none

end Json

end PoolMarket
