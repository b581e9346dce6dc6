import PoolMarket.Amount
import PoolMarket.Asset.Denom
import PoolMarket.Side

/-!
# Pairs of denoms, and coins

Two different assets in the order in which they are listed, and the key under which the pair is
kept. The key is the two texts with a NUL between them, a character that no text of a denom holds.
A coin is an amount of an asset; shares of a pool are worth one coin of each asset of its pair.
-/

namespace PoolMarket

/-- What a pair is filed under. -/
structure PairKey where
  text : String
  deriving DecidableEq, Repr

namespace PairKey

@[ext] theorem ext {a b : PairKey} (h : a.text = b.text) : a = b := by
  cases a; cases b; simp_all

instance : Ord PairKey := ⟨compareOn text⟩

instance : Std.TransOrd PairKey := inferInstanceAs (Std.TransCmp (compareOn text))

instance : Std.LawfulEqOrd PairKey where
  compare_self {a} := (Std.ReflCmp.compare_self : compareOn text a a = .eq)
  eq_of_compare h := ext (Std.LawfulEqOrd.eq_of_compare (α := String) h)

def separator : Char := '\x00'

/-- The key as it is shown: its two parts with an arrow each way between them. -/
def shown (k : PairKey) : String :=
  let cs := k.text.toList
  String.ofList (cs.takeWhile (· != separator)) ++ " <> " ++
    String.ofList ((cs.dropWhile (· != separator)).drop 1)

end PairKey

/-- Two different assets in listing order. -/
structure DenomPair where
  first : Denom
  second : Denom
  distinct : first ≠ second
  deriving DecidableEq, Repr

namespace DenomPair

@[ext] theorem ext {a b : DenomPair} (h₁ : a.first = b.first) (h₂ : a.second = b.second) :
    a = b := by
  cases a; cases b; simp_all

/-- The pair of two denoms, refused if they are one asset. -/
def ofDenoms (first second : Denom) : Outcome DenomPair :=
  if h : first = second then .error (.sameAsset first.text) else .ok ⟨first, second, h⟩

/-- The pair of two texts, read one after the other. -/
def ofStrings (raw : Both String) : Outcome DenomPair := do
  let first ← Denom.ofString raw.first
  let second ← Denom.ofString raw.second
  ofDenoms first second

def get (p : DenomPair) : Side → Denom
  | .first => p.first
  | .second => p.second

def toBoth (p : DenomPair) : Both Denom := ⟨p.first, p.second⟩

def toStrings (p : DenomPair) : Both String := p.toBoth.map Denom.text

def inverse (p : DenomPair) : DenomPair := ⟨p.second, p.first, p.distinct.symm⟩

/-- The side on which an asset stands, if it is one of the two. -/
def side? (p : DenomPair) (d : Denom) : Option Side :=
  if p.first = d then some .first
  else if p.second = d then some .second
  else none

def contains (p : DenomPair) (d : Denom) : Bool := (p.side? d).isSome

/-- The asset across from `d`. -/
def other? (p : DenomPair) (d : Denom) : Option Denom :=
  (p.side? d).map fun s => p.get s.opposite

def key (p : DenomPair) : PairKey :=
  ⟨p.first.text ++ String.singleton PairKey.separator ++ p.second.text⟩

def text (p : DenomPair) : String := p.first.text ++ " <> " ++ p.second.text

def unexpected (p : DenomPair) (d : Denom) : Fault :=
  .invalidDenom d.text p.toStrings.toList

/-- The side found for an asset is one on which it stands: the inverse of `side?_get`. -/
theorem get_of_side? {p : DenomPair} {d : Denom} {s : Side} (h : p.side? d = some s) :
    p.get s = d := by
  unfold side? at h
  split at h
  · cases h; assumption
  · split at h
    · cases h; assumption
    · cases h

/-- The asset on a side is found on that side and on no other, because the two are different
(`DenomPair.distinct`). -/
theorem side?_get (p : DenomPair) (s : Side) : p.side? (p.get s) = some s := by
  cases s
  · simp [side?, get]
  · simp [side?, get, p.distinct]

/-- A pair contains an asset on one side or the other. This is how `contains` is used in proofs, as
a disjunction of equations. -/
theorem contains_iff {p : DenomPair} {d : Denom} :
    p.contains d = true ↔ p.first = d ∨ p.second = d := by
  unfold contains side?
  by_cases hfirst : p.first = d
  · simp [hfirst]
  · by_cases hsecond : p.second = d
    · simp [hfirst, hsecond]
    · simp [hfirst, hsecond]

/-- What stands across from an asset: the two orders in which a pair can hold both. Routes step from
one asset to the next by this (`TradeMap`). -/
theorem other?_eq_some_iff {p : DenomPair} {a b : Denom} :
    p.other? a = some b ↔ (p.first = a ∧ p.second = b) ∨ (p.second = a ∧ p.first = b) := by
  rw [other?, Option.map_eq_some_iff]
  constructor
  · rintro ⟨side, hside, hb⟩
    have ha := get_of_side? hside
    cases side with
    | first => exact Or.inl ⟨ha, hb⟩
    | second => exact Or.inr ⟨ha, hb⟩
  · rintro (⟨rfl, rfl⟩ | ⟨rfl, rfl⟩)
    · exact ⟨.first, p.side?_get .first, rfl⟩
    · exact ⟨.second, p.side?_get .second, rfl⟩

end DenomPair

/-! ## Coins -/

structure Coin where
  amount : Amount
  denom : Denom
  deriving DecidableEq, Repr

namespace Coin

def zero (d : Denom) : Coin := ⟨.zero, d⟩

def text (c : Coin) : String := c.amount.text ++ c.denom.text

/-- One coin for each asset of a pair. -/
def forPair (assets : DenomPair) (amounts : Both Amount) : Both Coin :=
  ⟨⟨amounts.first, assets.first⟩, ⟨amounts.second, assets.second⟩⟩

/-- The amount of the first of two coins that is of the given asset. -/
def amountOf? (coins : Both Coin) (d : Denom) : Option Amount :=
  if coins.first.denom = d then some coins.first.amount
  else if coins.second.denom = d then some coins.second.amount
  else none

/-- The amounts of two coins in the listing order of a pair, if both its assets are there. -/
def align? (assets : DenomPair) (coins : Both Coin) : Option (Both Amount) := do
  let first ← amountOf? coins assets.first
  let second ← amountOf? coins assets.second
  return ⟨first, second⟩

end Coin

end PoolMarket
