import PoolMarket.Wire.Scalar

/-!
# Messages of the factory

The factory lists the pairs, one page at a time.
-/

namespace PoolMarket

open Json (Form)

/-- A question to the factory: the listings behind a pair, at most so many. -/
inductive FactoryQuery where
  | pairs (startAfter : Option (Both String)) (limit : Option UInt32)
  deriving DecidableEq, Repr

namespace FactoryQuery

def toJson : FactoryQuery → Json
  | pairs startAfter limit =>
    .ofVariant "pairs"
      [("start_after", .ofOption (.ofBoth .str) startAfter),
        ("limit", .ofOption (fun n : UInt32 => .nat n.toNat) limit)]

def ofJson? (form : Form) (j : Json) : Option FactoryQuery := do
  let v ← j.variant?
  match v.name with
  | "pairs" =>
    let r ← v.record? form ["start_after", "limit"]
    let startAfter ← r.optional "start_after" (Json.both? Json.string?)
    let limit ← r.optional "limit" Json.uint32?
    return pairs startAfter limit
  | _ => none

end FactoryQuery

/-- A pair as the factory lists it, its denoms still unread. -/
structure Listing where
  pair : Both String
  contract : Addr
  deriving DecidableEq, Repr

namespace Listing

def toJson (l : Listing) : Json :=
  .obj [("pair", .ofBoth .str l.pair), ("address", l.contract.toJson)]

def ofJson? (j : Json) : Option Listing := do
  let r ← j.record? ["pair", "address"]
  let pair ← r.required "pair" (Json.both? Json.string?)
  let contract ← r.required "address" Addr.ofJson?
  return { pair, contract }

end Listing

end PoolMarket
