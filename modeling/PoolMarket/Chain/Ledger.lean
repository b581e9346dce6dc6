import PoolMarket.Chain.Pool
import Std.Data.TreeMap
import Std.Data.TreeSet

/-!
# The chain

The contracts of one market: a factory that lists pairs, a router, and the pools. A transaction
either succeeds, with a result and the chain after it, or fails and changes nothing.
-/

namespace PoolMarket.Chain

/-- A chain with the contracts of one market. -/
structure Ledger where
  factory : Addr
  router : Addr
  pools : Std.TreeMap Addr Pool
  /-- The listed pairs and their contracts. -/
  listing : Std.TreeMap PairKey (DenomPair × Addr)
  /-- Contracts that answer no query. -/
  failing : Std.TreeSet Addr
  /-- How often each contract was queried. -/
  queries : Std.TreeMap Addr Nat

namespace Ledger

/-- A chain with its two contracts and no pairs. -/
def new (factory router : Addr) : Ledger :=
  { factory, router, pools := ∅, listing := ∅, failing := ∅, queries := ∅ }

/-- The fault of asking where there is no contract. -/
def missing (contract : Addr) : Fault := .query contract.text .noContract

/-- The pool at an address. -/
def pool (l : Ledger) (contract : Addr) : Outcome Pool :=
  match l.pools[contract]? with
  | some p => .ok p
  | none => .error (missing contract)

/-- Whether a contract is at the address already: a pool, or one of the two of the chain itself. -/
def taken (l : Ledger) (contract : Addr) : Bool :=
  contract == l.factory || contract == l.router || l.pools.contains contract

/-- The assets are listed, in this order or the other. -/
def listed (l : Ledger) (assets : DenomPair) : Bool :=
  l.listing.contains assets.key || l.listing.contains assets.inverse.key

/-- Lists a pair with a new pool at an address that is free. Neither order of its assets may be
listed. -/
def addPair (l : Ledger) (contract : Addr) (assets : DenomPair) (fees : Fees) : Outcome Ledger :=
  if l.taken contract then .error (.invalidSetting .addressTaken)
  else if l.listed assets then .error (.invalidSetting .alreadyListed)
  else .ok { l with
    listing := l.listing.insert assets.key (assets, contract)
    pools := l.pools.insert contract (.new assets fees) }

/-- Runs a transaction of one pool on a copy of it, which takes its place if the transaction
succeeds. -/
def transact {α : Type} (l : Ledger) (contract : Addr) (t : Pool.Transaction α) :
    Outcome α × Ledger :=
  match l.pool contract with
  | .error fault => (.error fault, l)
  | .ok p =>
    match t.on p with
    | (.ok result, p) => (.ok result, { l with pools := l.pools.insert contract p })
    | (.error fault, _) => (.error fault, l)

/-- The result of a transaction and the chain after it, if it succeeds. -/
def update {α : Type} (l : Ledger) (contract : Addr) (t : Pool.Transaction α) :
    Outcome (α × Ledger) :=
  match l.transact contract t with
  | (.ok result, l) => .ok (result, l)
  | (.error fault, _) => .error fault

def deposit (l : Ledger) (contract : Addr) (amounts : Both Amount) : Outcome (Amount × Ledger) :=
  l.update contract (Pool.deposit amounts)

def withdraw (l : Ledger) (contract : Addr) (shares : Amount) : Outcome (Both Coin × Ledger) :=
  l.update contract (Pool.withdraw shares)

def swap (l : Ledger) (contract : Addr) (offer : Coin) : Outcome (SwapResult × Ledger) :=
  l.update contract (Pool.swap offer)

def setFees (l : Ledger) (contract : Addr) (fees : Fees) : Outcome (Unit × Ledger) :=
  l.update contract (Pool.setFees fees)

/-- Lets a contract fail to answer, or answer again. -/
def setFailing (l : Ledger) (contract : Addr) (failing : Bool) : Ledger :=
  { l with failing := if failing then l.failing.insert contract else l.failing.erase contract }

def reserves? (l : Ledger) (contract : Addr) : Option (Both Amount) :=
  l.pools[contract]?.map Pool.reserves

def queryCount (l : Ledger) (contract : Addr) : Nat := l.queries.getD contract 0

end Ledger

end PoolMarket.Chain
