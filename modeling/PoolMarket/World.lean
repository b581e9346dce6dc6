import PoolMarket.Config.Token
import PoolMarket.Market.Basic
import PoolMarket.Market.Reading
import PoolMarket.Market.Refresh
import PoolMarket.Node
import PoolMarket.Quote.Basic
import PoolMarket.Quote.Timeline

/-!
# A market at work

A market, the node through which it reads the chain, and the names of its tokens. Questions that
belong together are asked in one round, and their replies are taken in a fixed order. Refreshes that
run together take turns; quotes are asked for one by one, while a refresh runs, and in bursts of
which only the newest counts.

What a market does with a reply is said elsewhere, one step at a time (`Reading.receive`,
`Market.receive`, `Quote.Pending.finish`). Here the steps are put in one order out of the many that
are possible, by `readRounds`, `turns` and `quoteBurst`.
-/

namespace PoolMarket

/-- A market with the node that it asks. -/
structure World where
  market : Market
  node : Node
  tokens : TokenDirectory

namespace World

/-- Asks the node and takes its reply at once. -/
def inquire {α : Type} (w : World) (q : Inquiry α) : Outcome α × World :=
  let (result, node) := w.node.inquire q
  (result, { w with node })

/-! ### Rounds of questions -/

/-- Writes questions down at the node as asked, without taking the replies. -/
def pose (w : World) (questions : List (Addr × Json)) : World :=
  { w with node := questions.foldl (fun n q => n.note q.1 q.2) w.node }

/-- The turn in which the replies to a round come: the next one, or the one behind it if the
contract's replies are held back. -/
def replyTurn (w : World) (contract : Addr) : Nat :=
  if w.node.delay contract = 0 then 1 else 2

/-- The order in which the replies of a round are taken if they come in a turn. The questions are
asked from the first on, and each turn begins one question further on than the turn before. -/
def replyOrder {α : Type} (turn : Nat) (questions : List α) : List α :=
  questions.rotateLeft turn

/-! ### Readings -/

/-- Gives a reading the replies of its round. A failure ends the round, so the questions behind it
reach no one. -/
def deliverReading (w : World) (r : Reading) : List PairQuery → Outcome Reading.Progress × World
  | [] => (.ok (.waiting r), w)
  | q :: rest =>
    let (reply, node) := w.node.answer r.contract q.toJson.canonical
    let w := { w with node }
    match r.receive q reply with
    | .ok (.waiting r) => w.deliverReading r rest
    | other => (other, w)

/-- One round of a reading: its questions, then their replies. -/
def readRound (w : World) (r : Reading) : Outcome Reading.Progress × World :=
  let w := w.pose (r.questions.map fun q => (r.contract, q.toJson.canonical))
  w.deliverReading r (replyOrder (w.replyTurn r.contract) r.questions)

/-- Round after round, at most so many, until the reading has a result. -/
def readRounds (w : World) : Nat → Reading → Option (Outcome Snapshot) × World
  | 0, _ => (none, w)
  | n + 1, r =>
    match w.readRound r with
    | (.error fault, w) => (some (.error fault), w)
    | (.ok (.complete s), w) => (some (.ok s), w)
    | (.ok (.waiting r), w) => w.readRounds n r

/-- Reads a pool in the two rounds that it takes. -/
def read (w : World) (r : Reading) : Option (Outcome Snapshot) × World := w.readRounds 2 r

/-! ### Refreshes that run together

In its turn a refresh gets the replies to the questions it has asked, goes on as far as they carry
it, and asks its next ones. -/

/-- Gives a refresh the replies to the questions it waits for. A failure ends the round, so the
questions behind it reach no one. -/
def deliver (w : World) (r : Refresh) : List Question → World × Refresh
  | [] => (w, r)
  | q :: rest =>
    if q ∈ Market.questions r then
      let contract := w.market.addressee q
      let (reply, node) := w.node.answer contract (w.market.message q)
      let (market, r) := w.market.receive w.tokens r q reply
      deliver { w with market, node } r rest
    else (w, r)

/-- Asks what a refresh has newly come to wait for. -/
def poseQuestions (w : World) (r : Refresh) : World :=
  w.pose ((Market.questions r).map fun q => (w.market.addressee q, w.market.message q))

/-- The turn of one refresh. One without an open question waits for a cell, so it looks again. -/
def turn (w : World) (r : Refresh) : World × Refresh :=
  match Market.questions r with
  | [] =>
    let (market, r) := w.market.wake r
    let w := { w with market }
    (w.poseQuestions r, r)
  | q :: rest =>
    let order := replyOrder (w.replyTurn (w.market.addressee q)) (q :: rest)
    let (w, r) := w.deliver r order
    (w.poseQuestions r, r)

/-- One turn of each refresh, from the first to the last. -/
def turns (w : World) : List Refresh → World × List Refresh
  | [] => (w, [])
  | r :: rest =>
    let (w, r) := w.turn r
    let (w, rest) := turns w rest
    (w, r :: rest)

/-- Turn after turn until every refresh has finished, at most so many turns. -/
def runRefreshes (w : World) : Nat → List Refresh → World × List Refresh
  | 0, rs => (w, rs)
  | n + 1, rs =>
    if rs.all fun r => r.result?.isSome then (w, rs)
    else
      let (w, rs) := w.turns rs
      w.runRefreshes n rs

/-- Some refreshes started together, with a bound on their turns. The results are in the order of
the starts; one that is not there within the bound is missing. -/
def refreshTogether (w : World) (bound count : Nat) : World × List (Option (Outcome Nat)) :=
  let rs := List.replicate count Refresh.start
  let (w, rs) := (rs.foldl poseQuestions w).runRefreshes bound rs
  (w, rs.map Refresh.result?)

/-- One refresh by itself. -/
def refresh (w : World) (bound : Nat) : World × Option (Outcome Nat) :=
  let (w, results) := w.refreshTogether bound 1
  (w, results.head?.join)

/-! ### Quotes -/

/-- Begins a quote and writes its question to the router down. -/
def beginQuote (w : World) (offer : Coin) (ask : Denom) :
    Outcome (Option Quote.Pending) × World :=
  match Quote.begin w.market offer ask with
  | .ok (some p) => (.ok (some p), w.pose [(p.inquiry.contract, p.inquiry.msg)])
  | other => (other, w)

/-- Ends a quote with the router's reply. -/
def finishQuote (w : World) (warning : BasisPoints) :
    Outcome (Option Quote.Pending) → Outcome (Option Quote) × World
  | .ok (some p) =>
    let (reply, node) := w.node.answer p.inquiry.contract p.inquiry.msg
    ((p.finish warning reply).map some, { w with node })
  | .ok none => (.ok none, w)
  | .error fault => (.error fault, w)

/-- A quote whose reply is taken at once. -/
def quote (w : World) (warning : BasisPoints) (offer : Coin) (ask : Denom) :
    Outcome (Option Quote) × World :=
  let (begun, w) := w.beginQuote offer ask
  w.finishQuote warning begun

/-- A quote that waits for the router while a refresh runs to its end. -/
def quoteDuringRefresh (w : World) (warning : BasisPoints) (bound : Nat) (offer : Coin)
    (ask : Denom) : Outcome (Option Quote) × Option (Outcome Nat) × World :=
  let (begun, w) := w.beginQuote offer ask
  let (w, refreshed) := w.refresh bound
  let (quoted, w) := w.finishQuote warning begun
  (quoted, refreshed, w)

/-- The job of quoting the newest input, which takes as long as the router's reply is held back. -/
def quoteJob (warning : BasisPoints) :
    Debounce.Job World (Coin × Denom) (Outcome (Option Quote.Pending))
      (Outcome (Option Quote)) where
  begin w input :=
    match input with
    | none => (w, .ok none, 0)
    | some (offer, ask) =>
      let (begun, w) := w.beginQuote offer ask
      let time := match begun with
        | .ok (some p) => w.node.delay p.inquiry.contract
        | _ => 0
      (w, begun, time)
  finish w begun :=
    let (quoted, w) := w.finishQuote warning begun
    (w, quoted, false)

/-- Requests for quotes, each at its time. -/
def quoteBurst (w : World) (warning : BasisPoints) (debounce : Nat)
    (requests : List (Nat × Coin × Denom)) :
    Debounce.Timeline World (Coin × Denom) (Outcome (Option Quote.Pending))
      (Outcome (Option Quote)) :=
  .play debounce (quoteJob warning) w requests

end World

end PoolMarket
