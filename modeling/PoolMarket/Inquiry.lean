import PoolMarket.Json.Basic
import PoolMarket.Wire.Factory
import PoolMarket.Wire.PairContract
import PoolMarket.Wire.Router

/-!
# Inquiries

An inquiry is a message to a contract together with the way its reply is read. A reply that does
not read as what was asked for is a failed query.
-/

namespace PoolMarket

/-- A question to a contract and how its reply is read. -/
structure Inquiry (α : Type) where
  contract : Addr
  /-- The question in free form. -/
  msg : Json
  read : Json → Option α

namespace Inquiry

/-- What an inquiry comes to when it is replied to: a failed reply fails it, and so does one that
does not read. -/
def conclude {α : Type} (q : Inquiry α) (reply : Outcome Json) : Outcome α := do
  let j ← reply
  match q.read j with
  | some a => .ok a
  | none => .error (.query q.contract.text .unexpectedReply)

/-- A page of the factory's listing, behind a pair. -/
def page (factory : Addr) (startAfter : Option (Both String)) (limit : UInt32) :
    Inquiry (List Listing) :=
  ⟨factory, (FactoryQuery.pairs startAfter (some limit)).toJson.canonical,
    Json.list? Listing.ofJson?⟩

/-- A question to a pair contract, in free form as every inquiry is sent. -/
def ofPair {α : Type} (pair : Addr) (query : PairQuery) (read : Json → Option α) : Inquiry α :=
  ⟨pair, query.toJson.canonical, read⟩

def config (pair : Addr) : Inquiry PairConfig := ofPair pair .config PairConfig.ofJson?

def totalShares (pair : Addr) : Inquiry Amount := ofPair pair .totalShares Amount.ofJson?

def denoms (pair : Addr) : Inquiry (Both String) :=
  ofPair pair .denoms (Json.both? Json.string?)

def shareValue (pair : Addr) (shares : Amount) : Inquiry (Both Coin) :=
  ofPair pair (.shareValue shares) (Json.both? Coin.ofJson?)

def previewSwap (pair : Addr) (offer : Coin) : Inquiry SwapResult :=
  ofPair pair (.previewSwap offer) SwapResult.ofJson?

def previewNaiveSwap (pair : Addr) (offer : Coin) : Inquiry NaiveResult :=
  ofPair pair (.previewNaiveSwap offer) NaiveResult.ofJson?

def previewDeposit (pair : Addr) (offer : Both Coin) : Inquiry DepositPreview :=
  ofPair pair (.previewDeposit offer) DepositPreview.ofJson?

/-- What an offer would bring through some pairs in a row. -/
def previewSwaps (router : Addr) (offer : Coin) (swappers : List Addr) : Inquiry RoutedResult :=
  ⟨router, (RouterQuery.preview offer swappers).toJson.canonical, RoutedResult.ofJson?⟩

end Inquiry

end PoolMarket
