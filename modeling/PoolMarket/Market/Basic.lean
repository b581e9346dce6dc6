import PoolMarket.Config.Settings
import PoolMarket.Market.Registry

/-!
# Markets

A market is a registry of pairs together with the loads that are under way for pairs it does not
know yet. Whoever needs such a pair joins the one load of its key: a cell that one refresh at a time
may fill, and that hands its pair to all who wait for it.
-/

namespace PoolMarket

/-- A load that refreshes share: the pair once it is there, and whether one of them is at it. -/
structure LoadCell where
  result : Option Loaded
  busy : Bool
  deriving DecidableEq, Repr

/-- A market: its contracts and how it trades, the pairs it knows, and the loads under way. -/
structure Market where
  factory : Addr
  router : Addr
  defaultSlippage : BasisPoints
  pageSize : UInt32
  registry : Registry
  /-- The cell of each key that is being loaded, as a place in `cells`. -/
  inFlight : Std.TreeMap PairKey Nat
  cells : Array LoadCell
  /-- The pairs that were ever loaded, the newest in front. -/
  loaded : List Loaded

namespace Market

/-- A market that knows no pair yet. -/
def ofSettings (s : Settings) : Market :=
  { factory := s.factory
    router := s.router
    defaultSlippage := s.defaultSlippage
    pageSize := s.pageSize
    registry := .empty
    inFlight := ∅
    cells := #[]
    loaded := [] }

def ofContracts (factory router : Addr) : Outcome Market := do
  let s ← Settings.ofContracts factory router
  return ofSettings s

/-! ### Lookup -/

/-- What is known of the pair of two assets. -/
def find? (m : Market) (assets : DenomPair) (tryInverse : Bool) : Option Pair :=
  (m.registry.find? assets tryInverse).map Loaded.pair

/-- The pair of two assets in either order, which has to be known. -/
def requireLoaded (m : Market) (assets : DenomPair) : Outcome Loaded :=
  match m.registry.find? assets true with
  | some p => .ok p
  | none => .error (.pairNotFound assets.first.text assets.second.text)

/-! ### Shared loads -/

/-- The cell at a place; a free one if there is none. -/
def cell (m : Market) (i : Nat) : LoadCell := m.cells.getD i ⟨none, false⟩

/-- Changes the cell at a place; nothing where there is none. -/
def setCell (m : Market) (i : Nat) (c : LoadCell) : Market :=
  { m with cells := m.cells.setIfInBounds i c }

/-- The cell of a key, a new one if no load of it is under way. -/
def join (m : Market) (key : PairKey) : Market × Nat :=
  match m.inFlight[key]? with
  | some i => (m, i)
  | none =>
    ({ m with inFlight := m.inFlight.insert key m.cells.size
              cells := m.cells.push ⟨none, false⟩ }, m.cells.size)

/-- A refresh starts to load into a cell. -/
def occupy (m : Market) (i : Nat) : Market := m.setCell i { m.cell i with busy := true }

/-- A load has failed; the next refresh may try. -/
def release (m : Market) (i : Nat) : Market := m.setCell i { m.cell i with busy := false }

/-- A load has succeeded; its pair gets the next number and fills the cell. -/
def fill (m : Market) (i : Nat) (pair : Pair) : Market × Loaded :=
  let p : Loaded := ⟨m.loaded.length, pair⟩
  ({ m.setCell i ⟨some p, false⟩ with loaded := p :: m.loaded }, p)

/-- A pair out of a cell is registered. The cell is given up if it is still the one of its key.
Gives the pair that is registered then. -/
def arrive (m : Market) (i : Nat) (key : PairKey) (p : Loaded) : Market × Loaded :=
  let (registry, kept) := m.registry.register p
  ({ m with
     registry
     inFlight := if m.inFlight[key]? = some i then m.inFlight.erase key else m.inFlight }, kept)

end Market

end PoolMarket
