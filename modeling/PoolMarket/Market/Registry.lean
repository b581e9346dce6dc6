import PoolMarket.Config.Token
import PoolMarket.Pool.Pair
import PoolMarket.Route
import Std.Data.TreeMap

/-!
# The registry of pairs

The pairs a market knows, by the key of their assets and by name. A key keeps the pair that was
registered first under it, and so does a name; only the snapshot of a registered pair changes.
-/

namespace PoolMarket

/-- A loaded pair and the number of its load, which tells it from every other load. -/
structure Loaded where
  id : Nat
  pair : Pair
  deriving DecidableEq, Repr

/-- The pairs of a market, by key and by name. A name leads to a key and not to a pair, so that the
snapshot is kept in one place. -/
structure Registry where
  byKey : Std.TreeMap PairKey Loaded
  byName : Std.TreeMap String PairKey

namespace Registry

def empty : Registry := ⟨∅, ∅⟩

/-- The pair under a key. -/
def get? (r : Registry) (key : PairKey) : Option Loaded := r.byKey[key]?

/-- Registers a pair unless its key is taken, and its name unless that is. Gives the pair that
stands under the key then. -/
def register (r : Registry) (p : Loaded) : Registry × Loaded :=
  match r.get? p.pair.assets.key with
  | some known => (r, known)
  | none =>
    ({ byKey := r.byKey.insert p.pair.assets.key p
       byName := r.byName.insertIfNew p.pair.name p.pair.assets.key }, p)

/-- Replaces the snapshot of the pair under a key. -/
def record (r : Registry) (key : PairKey) (snapshot : Snapshot) : Registry :=
  match r.get? key with
  | some p => { r with byKey := r.byKey.insert key { p with pair := { p.pair with snapshot } } }
  | none => r

/-- Replaces the snapshot of a pair; that shows where it is the pair under the key. -/
def update (r : Registry) (key : PairKey) (p : Loaded) (snapshot : Snapshot) : Registry :=
  if (r.get? key).map Loaded.id = some p.id then r.record key snapshot else r

/-- The pair of two assets as listed, or else in the other order if that is asked for. -/
def find? (r : Registry) (assets : DenomPair) (tryInverse : Bool) : Option Loaded :=
  match r.get? assets.key with
  | some p => some p
  | none => if tryInverse then r.get? assets.inverse.key else none

/-- The pair of a name. -/
def named? (r : Registry) (name : String) : Option Loaded := r.byName[name]?.bind r.get?

/-- All pairs in the order of their keys. -/
def all (r : Registry) : List Loaded := r.byKey.toList.map Prod.snd

end Registry

/-- Adds an asset to the neighbours of another, behind those that are there. -/
def TradeMap.link (map : TradeMap) (a b : Denom) : TradeMap :=
  let known := map.getD a []
  map.insert a (if b ∈ known then known else known ++ [b])

namespace Registry

/-- What each asset trades against, pair after pair in key order. -/
def tradeMap (r : Registry) : TradeMap :=
  r.all.foldl (fun map p =>
    (map.link p.pair.assets.first p.pair.assets.second).link
      p.pair.assets.second p.pair.assets.first) ∅

/-- Some pair has the asset. -/
def trades (r : Registry) (d : Denom) : Bool := r.all.any fun p => p.pair.assets.contains d

/-- Every one of the assets is one of a registered pair. -/
def hasAssets (r : Registry) (ds : List Denom) : Bool := ds.all r.trades

end Registry

end PoolMarket
