import PoolMarket.Asset.DenomPair
import PoolMarket.BasisPoints
import PoolMarket.Json.Record

/-!
# Plain values on the wire

Amounts, denoms and addresses are strings. Basis points are a number in settings and a decimal
string in messages to contracts. Each writer stands beside its reader; that one undoes the other is
`reads_amount`, `reads_denom` and so on, for both forms in which a value can be sent.
-/

namespace PoolMarket

open Json (Record)

namespace Amount

def toJson (a : Amount) : Json := .str a.text

def ofJson? (j : Json) : Option Amount := do (← j.string?) |> ofString |>.toOption

end Amount

namespace Addr

def toJson (a : Addr) : Json := .str a.text

def ofJson? (j : Json) : Option Addr := do ofString? (← j.string?)

end Addr

namespace Denom

def toJson (d : Denom) : Json := .str d.text

def ofJson? (j : Json) : Option Denom := do (← j.string?) |> ofString |>.toOption

end Denom

namespace BasisPoints

def toJson (b : BasisPoints) : Json := .nat b.val

def ofJson? (j : Json) : Option BasisPoints := do ofNat? (← j.natBelow? size)

def toDecimalJson (b : BasisPoints) : Json := .str b.decimal

def ofDecimalJson? (j : Json) : Option BasisPoints := do (← j.string?) |> ofDecimal |>.toOption

end BasisPoints

namespace Coin

def toJson (c : Coin) : Json := .obj [("denom", c.denom.toJson), ("amount", c.amount.toJson)]

def ofJson? (j : Json) : Option Coin := do
  let r ← j.record? ["denom", "amount"]
  let denom ← r.required "denom" Denom.ofJson?
  let amount ← r.required "amount" Amount.ofJson?
  return { denom, amount }

end Coin

namespace Json

def uint16? (j : Json) : Option UInt16 := (j.natBelow? UInt16.size).map UInt16.ofNat

def uint32? (j : Json) : Option UInt32 := (j.natBelow? UInt32.size).map UInt32.ofNat

def uint64? (j : Json) : Option UInt64 := (j.natBelow? UInt64.size).map UInt64.ofNat

def uint8? (j : Json) : Option UInt8 := (j.natBelow? UInt8.size).map UInt8.ofNat

end Json

end PoolMarket
