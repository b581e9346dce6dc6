import PoolMarket.Chain.Ledger
import PoolMarket.Wire.Factory
import PoolMarket.Wire.Router

/-!
# Answers of the chain, and calls to it

What the factory, the router and the pools reply to a query. A query never changes the chain; it is
only counted. A `Call` is anything that can be done to the chain: its transactions, queries, and
letting a contract fail. It gives a result or a fault, and leaves a chain behind either way.
-/

namespace PoolMarket.Chain

namespace Ledger

/-- The most listings the factory puts on a page. -/
abbrev maxPage : Nat := 100

/-- The listings behind a key, in key order. -/
def listingsAfter (l : Ledger) (after : Option PairKey) : List Listing :=
  let entries := match after with
    | none => l.listing.toList
    | some k => l.listing.toList.filter fun e => (compare k e.1).isLT
  entries.map fun (_, assets, contract) => ⟨assets.toStrings, contract⟩

/-- How many listings a page holds at most. -/
def pageLength : Option UInt32 → Nat
  | some n => min n.toNat maxPage
  | none => maxPage

/-- The key of the pair behind which a page begins. -/
def cursor : Option (Both String) → Outcome (Option PairKey)
  | some raw => do
    let assets ← DenomPair.ofStrings raw
    return some assets.key
  | none => .ok none

/-- A page of the listing: at most so many, behind a pair that has to read as one. -/
def page (l : Ledger) (startAfter : Option (Both String)) (limit : Option UInt32) :
    Outcome (List Listing) := do
  let after ← cursor startAfter
  return (l.listingsAfter after).take (pageLength limit)

/-- Swaps through some pools in a row, each as it is now. The slip is that of the last. -/
def routed (l : Ledger) (offer : Coin) (slip : Amount) : List Addr → Outcome RoutedResult
  | [] => .ok { denom := offer.denom, amount := offer.amount, slip }
  | contract :: rest => do
    let p ← l.pool contract
    let actual ← p.quoteSwap offer
    let naive ← p.quoteNaive offer
    match p.assets.other? offer.denom with
    | some next => l.routed ⟨actual.paid, next⟩ (naive.paid.monus actual.paid) rest
    | none => .error (p.assets.unexpected offer.denom)

/-- The router's preview of swaps through some pools in a row, of which there has to be one. -/
def previewSwaps (l : Ledger) (offer : Coin) (swappers : List Addr) : Outcome RoutedResult :=
  if swappers.isEmpty then .error (.invalidAmount .noSwappers)
  else l.routed offer .zero swappers

/-- The reply of a pool to a question that it understands. -/
def poolReply (l : Ledger) (p : Pool) : PairQuery → Outcome Json
  | .denoms => .ok (.ofBoth .str p.assets.toStrings)
  | .canonicalDenoms =>
    let s := p.assets.toStrings
    .ok (.ofBoth .str (if (compare s.second s.first).isLT then s.swap else s))
  | .config => do return (← p.config l.factory).toJson
  | .totalShares => .ok p.shares.toJson
  | .shareValue shares => do return .ofBoth Coin.toJson (← p.shareValue shares)
  | .previewDeposit offer => do return (← p.previewDeposit offer).toJson
  | .previewSwap offer => do return (← p.quoteSwap offer).toJson
  | .previewNaiveSwap offer => do return (← p.quoteNaive offer).toJson

/-- The query in a message, which the contract has to know. -/
def understand {α : Type} (contract : Addr) (query : Option α) : Outcome α :=
  match query with
  | some q => .ok q
  | none => .error (.query contract.text .unsupportedQuery)

/-- The reply of a contract to a message, from its own code. -/
def reply (l : Ledger) (contract : Addr) (msg : Json) : Outcome Json :=
  if contract = l.factory then do
    let .pairs startAfter limit ← understand contract (FactoryQuery.ofJson? .value msg)
    return .ofList Listing.toJson (← l.page startAfter limit)
  else if contract = l.router then do
    let .preview offer swappers ← understand contract (RouterQuery.ofJson? .value msg)
    return (← l.previewSwaps offer swappers).toJson
  else do
    let p ← l.pool contract
    let query ← understand contract (PairQuery.ofJson? .value msg)
    l.poolReply p query

/-- A fault that a contract meets reaches the asker as a failed query with its message. -/
def asQueryFault (contract : Addr) : Fault → Fault
  | .query c refusal => .query c refusal
  | fault => .query contract.text (.because fault.message)

/-- The answer of the node: refused while the contract is failing, else the contract's reply as a
free-form value. -/
def answer (l : Ledger) (contract : Addr) (msg : Json) : Outcome Json :=
  if contract ∈ l.failing then .error (.query contract.text .unavailable)
  else
    match l.reply contract msg with
    | .ok j => .ok j.canonical
    | .error fault => .error (asQueryFault contract fault)

/-- Counts a query to a contract. -/
def count (l : Ledger) (contract : Addr) : Ledger :=
  { l with queries := l.queries.insert contract (l.queryCount contract + 1) }

end Ledger

/-! ## Calls -/

/-- What can be called on a chain, from outside and by a node. -/
inductive Call where
  | addPair (contract : Addr) (assets : DenomPair) (fees : Fees)
  | deposit (contract : Addr) (amounts : Both Amount)
  | withdraw (contract : Addr) (shares : Amount)
  | swap (contract : Addr) (offer : Coin)
  | setFees (contract : Addr) (fees : Fees)
  | setFailing (contract : Addr) (failing : Bool)
  | query (contract : Addr) (msg : Json)

/-- What a call gives if it succeeds. -/
abbrev Call.Result : Call → Type
  | .addPair .. => Unit
  | .deposit .. => Amount
  | .withdraw .. => Both Coin
  | .swap .. => SwapResult
  | .setFees .. => Unit
  | .setFailing .. => Unit
  | .query .. => Json

namespace Ledger

/-- Makes a call. A query is counted even if it is not answered. -/
def execute (l : Ledger) : (call : Call) → Outcome call.Result × Ledger
  | .addPair contract assets fees =>
    match l.addPair contract assets fees with
    | .ok l => (.ok (), l)
    | .error fault => (.error fault, l)
  | .deposit contract amounts => l.transact contract (Pool.deposit amounts)
  | .withdraw contract shares => l.transact contract (Pool.withdraw shares)
  | .swap contract offer => l.transact contract (Pool.swap offer)
  | .setFees contract fees => l.transact contract (Pool.setFees fees)
  | .setFailing contract failing => (.ok (), l.setFailing contract failing)
  | .query contract msg => (l.answer contract msg, l.count contract)

/-- The chain after some calls, whether or not they succeed. -/
def run (l : Ledger) (calls : List Call) : Ledger :=
  calls.foldl (fun l call => (l.execute call).2) l

end Ledger

end PoolMarket.Chain
