import PoolMarket.Fault
import PoolMarket.Json.Basic
import PoolMarket.Wire.Scalar
import PoolMarket.Wire.Token

/-!
# Instructions and receipts

An instruction is one call of a contract, ready to be signed: the message and the coins attached to
it. Only native coins can be attached; an offer of tokens is sent by the token contract instead, the
message riding along. A receipt is what the chain reports of a transaction. Code zero is success.
-/

namespace PoolMarket

/-- One call of a contract, ready to be signed. -/
structure Instruction where
  contract : Addr
  /-- The message in free form. -/
  msg : Json
  funds : List Coin
  deriving Repr

namespace Instruction

/-- What is attached to a call: no empty coins, in the order of their denoms' texts. -/
def arrange (funds : List Coin) : List Coin :=
  (funds.filter fun c => !c.amount.isZero).mergeSort fun a b =>
    (compare a.denom.text b.denom.text).isLE

/-- The call of a contract with a message and coins, which have to be native. -/
def ofMessage (contract : Addr) (msg : Json) (funds : List Coin) : Outcome Instruction :=
  match funds.find? fun c => !c.denom.isNative with
  | some c => .error (Denom.invalid c.denom.text)
  | none => .ok { contract, msg := msg.canonical, funds := arrange funds }

/-- Hands an offer to a contract along with a message. -/
def handOver (contract : Addr) (msg : Json) (offer : Coin) : Outcome Instruction :=
  match offer.denom with
  | .native _ => ofMessage contract msg [offer]
  | .token token =>
    ofMessage token (TokenCall.send contract offer.amount (.ofMessage msg)).toJson []

def toJson (i : Instruction) : Json :=
  let funds := if i.funds.isEmpty then [] else [("funds", Json.ofList Coin.toJson i.funds)]
  .obj ([("contract_address", i.contract.toJson), ("msg", i.msg)] ++ funds)

/-- The instruction of a text. Its own braces count among the containers around the message. -/
def ofJson? (j : Json) : Option Instruction := do
  let r ← j.record? ["contract_address", "msg", "funds"]
  let contract ← r.required "contract_address" Addr.ofJson?
  let msg ← r.required "msg" (Json.freeForm? (Json.maxDepth - 1))
  let funds ← r.defaulted "funds" [] (Json.list? Coin.ofJson?)
  return { contract, msg, funds }

end Instruction

/-! ## Receipts -/

/-- What the chain reports of a transaction. -/
structure Receipt where
  code : UInt32
  txHash : Option String
  log : String
  gasUsed : UInt64
  deriving DecidableEq, Repr

namespace Receipt

/-- Code zero is success, and every other code a failure. -/
def succeeded (r : Receipt) : Bool := r.code == 0

/-- The receipt itself, or the failure it reports. -/
def outcome (r : Receipt) : Outcome Receipt :=
  if r.succeeded then .ok r else .error (.executionFailed r.code r.txHash r.log)

def toJson (r : Receipt) : Json :=
  .obj [("code", .nat r.code.toNat), ("tx_hash", .ofOption .str r.txHash), ("raw_log", .str r.log),
    ("gas_used", .nat r.gasUsed.toNat)]

def ofJson? (j : Json) : Option Receipt := do
  let r ← j.record? ["code", "tx_hash", "raw_log", "gas_used"]
  let code ← r.required "code" Json.uint32?
  let txHash ← r.defaulted "tx_hash" none (Json.nullable? Json.string?)
  let log ← r.defaulted "raw_log" "" Json.string?
  let gasUsed ← r.defaulted "gas_used" 0 Json.uint64?
  return { code, txHash, log, gasUsed }

end Receipt

end PoolMarket
