import PoolMarket.Chain.Answer
import PoolMarket.Inquiry

/-!
# Nodes

A node stands between the askers and the chain. It writes down every question, may be told what to
reply to some of them instead of the chain, and may be slow for some contracts.
-/

namespace PoolMarket

/-- What a node was told to reply to a message. -/
structure Script where
  contract : Addr
  msg : Json
  reply : Outcome Json

/-- A node in front of the chain. -/
structure Node where
  ledger : Chain.Ledger
  /-- The scripts, the newest in front. -/
  scripts : List Script
  /-- The questions asked, the newest in front. -/
  asked : List (Addr × Json)
  /-- For how many milliseconds a contract's reply is held back. -/
  delays : Std.TreeMap Addr Nat

namespace Node

def new (ledger : Chain.Ledger) : Node := { ledger, scripts := [], asked := [], delays := ∅ }

def script (n : Node) (s : Script) : Node := { n with scripts := s :: n.scripts }

def clearScripts (n : Node) : Node := { n with scripts := [] }

def setDelay (n : Node) (contract : Addr) (milliseconds : Nat) : Node :=
  { n with delays := n.delays.insert contract milliseconds }

/-- How long a contract's reply is held back; not at all unless it was set. -/
def delay (n : Node) (contract : Addr) : Nat := n.delays.getD contract 0

/-- The questions asked since the log was last taken, in order. -/
def log (n : Node) : List (Addr × Json) := n.asked.reverse

def clearLog (n : Node) : Node := { n with asked := [] }

/-- Writes a question down, in front of those asked before it. -/
def note (n : Node) (contract : Addr) (msg : Json) : Node :=
  { n with asked := (contract, msg) :: n.asked }

/-- The newest script for a question, if there is one. -/
def script? (n : Node) (contract : Addr) (msg : Json) : Option Script :=
  n.scripts.find? fun s => s.contract == contract && s.msg == msg

/-- Answers a question that has been written down. Only a question that reaches the chain is
counted there. -/
def answer (n : Node) (contract : Addr) (msg : Json) : Outcome Json × Node :=
  match n.script? contract msg with
  | some s => (s.reply, n)
  | none => (n.ledger.answer contract msg, { n with ledger := n.ledger.count contract })

/-- Asks a question and waits for its answer. -/
def ask (n : Node) (contract : Addr) (msg : Json) : Outcome Json × Node :=
  (n.note contract msg).answer contract msg

/-- Asks what an inquiry is about and concludes it with the answer. -/
def inquire {α : Type} (n : Node) (q : Inquiry α) : Outcome α × Node :=
  let (reply, n) := n.ask q.contract q.msg
  (q.conclude reply, n)

end Node

end PoolMarket
