import PoolMarket.Json.Basic
import PoolMarket.Json.Reader
import PoolMarket.Json.Writer
import PoolMarket.Text
import PoolMarket.Wire.Scalar

/-!
# Payloads and messages of a token contract

A payload is opaque bytes that travel inside a message as base64. A message to be handed on travels
as the UTF-8 bytes of its compact text. Tokens are moved by the contract that keeps them: sent along
with such a message, or made available.
-/

namespace PoolMarket

structure Payload where
  bytes : List UInt8
  deriving DecidableEq, Repr

namespace Payload

def ofString (s : String) : Payload := ⟨s.toUTF8.data.toList⟩

/-- The text that the bytes are in UTF-8, if they are. -/
def string? (p : Payload) : Option String := String.fromUTF8? ⟨p.bytes.toArray⟩

/-- A message as the bytes of its compact text, to be handed on by a token contract. `message?`
reads it back. -/
def ofMessage (j : Json) : Payload := ofString j.text

/-- The value whose text the bytes are. -/
def message? (p : Payload) : Option Json := p.string?.bind Json.ofText?

/-- The free-form value whose text the bytes are. -/
def freeForm? (p : Payload) : Option Json := p.message?.bind (Json.freeForm? Json.maxDepth)

def base64 (p : Payload) : String := String.ofList (Base64.encode p.bytes)

def ofBase64? (s : String) : Option Payload := (Base64.decode? s.toList).map Payload.mk

/-- Bytes travel as base64. -/
def toJson (p : Payload) : Json := .str p.base64

def ofJson? (j : Json) : Option Payload := do ofBase64? (← j.string?)

def shown (p : Payload) : String := "Binary(" ++ p.base64 ++ ")"

end Payload

/-! ## Calls of a token contract -/

open Json (Form)

inductive TokenCall where
  | send (contract : Addr) (amount : Amount) (message : Payload)
  | allow (spender : Addr) (amount : Amount)
  deriving DecidableEq, Repr

namespace TokenCall

def toJson : TokenCall → Json
  | send contract amount message =>
    .ofVariant "send"
      [("contract", contract.toJson), ("amount", amount.toJson), ("msg", message.toJson)]
  | allow spender amount =>
    .ofVariant "increase_allowance" [("spender", spender.toJson), ("amount", amount.toJson)]

def ofJson? (form : Form) (j : Json) : Option TokenCall := do
  let v ← j.variant?
  match v.name with
  | "send" =>
    let r ← v.record? form ["contract", "amount", "msg"]
    let contract ← r.required "contract" Addr.ofJson?
    let amount ← r.required "amount" Amount.ofJson?
    let message ← r.required "msg" Payload.ofJson?
    return send contract amount message
  | "increase_allowance" =>
    let r ← v.record? form ["spender", "amount"]
    let spender ← r.required "spender" Addr.ofJson?
    let amount ← r.required "amount" Amount.ofJson?
    return allow spender amount
  | _ => none

end TokenCall

end PoolMarket
