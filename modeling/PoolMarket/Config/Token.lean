import PoolMarket.Wire.Scalar
import Std.Data.TreeMap

/-!
# Tokens and their symbols

What is known about an asset apart from its denom: a symbol to show and the number of decimals of
its amounts.
-/

namespace PoolMarket

/-- What is known about an asset apart from its denom. -/
structure TokenInfo where
  denom : Denom
  symbol : String
  decimals : UInt8
  deriving DecidableEq, Repr

namespace TokenInfo

abbrev maxDecimals : UInt8 := 18

/-- A symbol names an asset in the name of a pair, whose two symbols a hyphen divides. -/
def check (t : TokenInfo) : Outcome Unit :=
  if t.symbol.isEmpty ∨ t.symbol.toList.contains '-' then .error (.invalidSetting .tokenSymbol)
  else if maxDecimals < t.decimals then .error (.invalidSetting .tokenDecimals)
  else .ok ()

/-- What is known about a token, if it keeps the rules of `check`. -/
def ofParts (denom : Denom) (symbol : String) (decimals : UInt8) : Outcome TokenInfo := do
  let info : TokenInfo := { denom, symbol, decimals }
  info.check
  return info

/-- An amount in whole tokens, with the token's decimals behind the point. -/
def formatAmount (t : TokenInfo) (a : Amount) : String := a.fixed t.decimals.toNat

def toJson (t : TokenInfo) : Json :=
  .obj [("denom", t.denom.toJson), ("symbol", .str t.symbol), ("decimals", .nat t.decimals.toNat)]

def ofJson? (j : Json) : Option TokenInfo := do
  let r ← j.record? ["denom", "symbol", "decimals"]
  let denom ← r.required "denom" Denom.ofJson?
  let symbol ← r.required "symbol" Json.string?
  let decimals ← r.required "decimals" Json.uint8?
  return { denom, symbol, decimals }

end TokenInfo

/-- The tokens that are known, by denom. -/
structure TokenDirectory where
  tokens : Std.TreeMap Denom TokenInfo

namespace TokenDirectory

/-- A directory of some tokens; of two with one denom the later counts. -/
def ofList (tokens : List TokenInfo) : TokenDirectory :=
  ⟨tokens.foldl (fun known t => known.insert t.denom t) ∅⟩

/-- What is known about an asset, if anything is. -/
def get? (d : TokenDirectory) (denom : Denom) : Option TokenInfo := d.tokens[denom]?

/-- The symbol of an asset; the text of its denom stands in for an unknown one. -/
def symbol (d : TokenDirectory) (denom : Denom) : String :=
  match d.get? denom with
  | some t => t.symbol
  | none => denom.text

/-- How many tokens are known. -/
def size (d : TokenDirectory) : Nat := d.tokens.size

/-- The name of a pair: its two symbols with a hyphen between them. -/
def pairName (d : TokenDirectory) (assets : DenomPair) : String :=
  d.symbol assets.first ++ "-" ++ d.symbol assets.second

end TokenDirectory

end PoolMarket
