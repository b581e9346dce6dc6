import PoolMarket.Json.Basic
import PoolMarket.Side

/-!
# Records and variants in JSON

A record is read from an object by the names of its fields, or from an array by their order. Names
that are not its own are skipped; one of its own that is repeated is refused. A variant is one name
with its content, or the name alone. In a value that is already free-form, the content of a variant
has to name its fields.
-/

namespace PoolMarket.Json

/-- What is being read: text, or a free-form value. -/
inductive Form where
  | text
  | value
  deriving DecidableEq, Repr

/-- The fields found in a record. -/
structure Record where
  fields : List (String × Json)
  /-- Whether the fields were given by name, so that one without a value may be left out. -/
  named : Bool

/-- The fields of a record with the given names. -/
def record? (names : List String) : Json → Option Record
  | .obj members =>
    let fields := members.filter fun m => names.contains m.1
    if (fields.map Prod.fst).Nodup then some ⟨fields, true⟩ else none
  | .arr items => if items.length ≤ names.length then some ⟨names.zip items, false⟩ else none
  | _ => none

namespace Record

variable {α : Type}

/-- The field with a given name. -/
def find? (r : Record) (name : String) : Option Json := r.fields.lookup name

/-- A field that has to be there. -/
def required (r : Record) (name : String) (read : Json → Option α) : Option α :=
  (r.find? name).bind read

/-- A field that may be `null`, or left out of an object. -/
def optional (r : Record) (name : String) (read : Json → Option α) : Option (Option α) :=
  match r.find? name with
  | some .null => some none
  | some j => (read j).map some
  | none => if r.named then some none else none

/-- A field that has a value when it is left out. -/
def defaulted (r : Record) (name : String) (value : α) (read : Json → Option α) : Option α :=
  match r.find? name with
  | some j => read j
  | none => some value

end Record

/-- A field with a `null` for no value. -/
def nullable? {α : Type} (read : Json → Option α) : Json → Option (Option α)
  | .null => some none
  | j => (read j).map some

/-- A name and its content. -/
structure Variant where
  name : String
  content : Option Json

/-- The variant of a value: a string, or an object with one member. -/
def variant? : Json → Option Variant
  | .str name => some ⟨name, none⟩
  | .obj [(name, content)] => some ⟨name, some content⟩
  | _ => none

namespace Variant

/-- Whether the variant has no content to speak of. -/
def isUnit (v : Variant) : Bool :=
  match v.content with
  | none | some .null => true
  | _ => false

/-- The fields of the variant's content. Text may give them by order; in a free-form value they have
to be named. -/
def record? (form : Form) (names : List String) (v : Variant) : Option Record :=
  match form, v.content with
  | .text, some content => content.record? names
  | .value, some (.obj members) => (Json.obj members).record? names
  | _, _ => none

end Variant

/-- A variant with fields. -/
def ofVariant (name : String) (fields : List (String × Json)) : Json := .obj [(name, .obj fields)]

/-- Two values of one kind, as an array of just two. -/
def both? {α : Type} (read : Json → Option α) : Json → Option (Both α)
  | .arr [x, y] => do
    let first ← read x
    let second ← read y
    return ⟨first, second⟩
  | _ => none

/-- Two values of one kind as an array. -/
def ofBoth {α : Type} (write : α → Json) (b : Both α) : Json := .arr [write b.first, write b.second]

/-- A list as an array. -/
def ofList {α : Type} (write : α → Json) (xs : List α) : Json := .arr (xs.map write)

end PoolMarket.Json
