import PoolMarket.Market.Basic
import PoolMarket.Market.Reading

/-!
# Refreshing a market

A refresh reads the factory's listing page by page until a page is empty, then goes through the
listed pairs in order: a known pair is read again, an unknown one is loaded, or waited for while
another refresh loads it. A refresh is a state between two of its replies, and every function here
is one step that nothing can come between, so any number of refreshes may run in turn.
-/

namespace PoolMarket

/-- What a refresh is doing. -/
inductive Refresh.Stage where
  /-- A page of the listing has been asked for, behind the given pair. -/
  | listing (after : Option (Both String))
  /-- A known pair is being read. -/
  | updating (key : PairKey) (known : Loaded) (reading : Reading)
  /-- An unknown pair is being loaded into a cell. -/
  | loading (cell : Nat) (reading : Reading)
  /-- An unknown pair is being loaded by another refresh. -/
  | queued (cell : Nat) (assets : DenomPair) (contract : Addr)
  | finished (result : Outcome Nat)

/-- A refresh between two of its steps. -/
structure Refresh where
  /-- The listings read so far. -/
  found : List (DenomPair × Addr)
  /-- The listings that have not been gone into. -/
  todo : List (DenomPair × Addr)
  /-- The listings that are done with, the newest in front: their keys, and the numbers of the
  pairs that were found or loaded for them. -/
  ensured : List (PairKey × Nat)
  stage : Refresh.Stage

namespace Refresh

/-- A refresh that has asked for the first page. -/
def start : Refresh := { found := [], todo := [], ensured := [], stage := .listing none }

/-- How the refresh ended, if it has. -/
def result? (r : Refresh) : Option (Outcome Nat) :=
  match r.stage with
  | .finished result => some result
  | _ => none

/-- Ends the refresh with a fault; what it has found stays. -/
def fail (r : Refresh) (fault : Fault) : Refresh := { r with stage := .finished (.error fault) }

/-- Notes that a listing is done with, and under which number its pair is registered. -/
def ensure (r : Refresh) (key : PairKey) (p : Loaded) : Refresh :=
  { r with ensured := (key, p.id) :: r.ensured }

end Refresh

/-- A question that a refresh waits for. -/
inductive Question where
  | page (after : Option (Both String))
  | pool (contract : Addr) (query : PairQuery)
  deriving DecidableEq, Repr

namespace Market

/-- The contract that a question is asked of. -/
def addressee (m : Market) : Question → Addr
  | .page _ => m.factory
  | .pool contract _ => contract

/-- The message that asks a question, in free form. -/
def message (m : Market) : Question → Json
  | .page after => (Inquiry.page m.factory after m.pageSize).msg
  | .pool _ query => query.toJson.canonical

/-- The questions that a refresh waits for. There are none while it waits for another refresh. -/
def questions (r : Refresh) : List Question :=
  match r.stage with
  | .listing after => [.page after]
  | .updating _ _ reading => reading.questions.map (.pool reading.contract)
  | .loading _ reading => reading.questions.map (.pool reading.contract)
  | .queued .. => []
  | .finished _ => []

/-- The pairs of a page with their contracts; one pair that does not read fails the page. -/
def readPage : List Listing → Outcome (List (DenomPair × Addr))
  | [] => .ok []
  | l :: rest => do
    let assets ← DenomPair.ofStrings l.pair
    let more ← readPage rest
    return (assets, l.contract) :: more

/-- Goes into the next listing that takes a reply or another refresh to go on, past those whose
load is already done. -/
def advance (m : Market) (r : Refresh) : List (DenomPair × Addr) → Market × Refresh
  | [] => (m, { r with todo := [], stage := .finished (.ok r.found.length) })
  | (assets, contract) :: rest =>
    match m.registry.get? assets.key with
    | some p => (m, { r with todo := rest, stage := .updating assets.key p (.again p.pair) })
    | none =>
      let (m, i) := m.join assets.key
      match (m.cell i).result, (m.cell i).busy with
      | some p, _ =>
        -- loaded already, but not registered yet
        let (m, kept) := m.arrive i assets.key p
        m.advance (r.ensure assets.key kept) rest
      | none, true => (m, { r with todo := rest, stage := .queued i assets contract })
      | none, false =>
        (m.occupy i, { r with todo := rest, stage := .loading i (.first contract assets) })

/-- Takes a page of the listing and asks for the next one, or begins to go through what was
found. -/
def receivePage (m : Market) (r : Refresh) (after : Option (Both String)) (reply : Outcome Json) :
    Market × Refresh :=
  match (Inquiry.page m.factory after m.pageSize).conclude reply with
  | .error fault => (m, r.fail fault)
  | .ok page =>
    match readPage page with
    | .error fault => (m, r.fail fault)
    | .ok listings =>
      -- only an empty page ends the listing, however short the last one was
      match page.getLast? with
      | some last =>
        (m, { r with found := r.found ++ listings, stage := .listing (some last.pair) })
      | none => m.advance r r.found

/-- The pair that a completed reading makes, named by the symbols that are known at that moment. -/
def loadedPair (tokens : TokenDirectory) (reading : Reading) (snapshot : Snapshot) : Pair :=
  { contract := reading.contract
    assets := reading.assets
    name := tokens.pairName reading.assets
    snapshot }

/-- Registers a pair out of a cell and goes on behind its listing. -/
def settle (m : Market) (r : Refresh) (i : Nat) (key : PairKey) (p : Loaded) : Market × Refresh :=
  let (m, kept) := m.arrive i key p
  m.advance (r.ensure key kept) r.todo

/-- Takes a reply to a question of the refresh: a page, or a reply about the pool that is being
read. A failure ends the refresh, and frees its cell if it had one. -/
def receive (m : Market) (tokens : TokenDirectory) (r : Refresh) (question : Question)
    (reply : Outcome Json) : Market × Refresh :=
  match r.stage, question with
  | .listing after, .page _ => m.receivePage r after reply
  | .updating key known reading, .pool _ query =>
    match reading.receive query reply with
    | .error fault => (m, r.fail fault)
    | .ok (.waiting reading) => (m, { r with stage := .updating key known reading })
    | .ok (.complete snapshot) =>
      { m with registry := m.registry.update key known snapshot }.advance
        (r.ensure key known) r.todo
  | .loading i reading, .pool _ query =>
    match reading.receive query reply with
    | .error fault => (m.release i, r.fail fault)
    | .ok (.waiting reading) => (m, { r with stage := .loading i reading })
    | .ok (.complete snapshot) =>
      let (m, p) := m.fill i (loadedPair tokens reading snapshot)
      m.settle r i reading.assets.key p
  | _, _ => (m, r)

/-- Lets a refresh that waits for another one look again: the pair may be there, or its load may
have failed, so that this refresh has to try itself. -/
def wake (m : Market) (r : Refresh) : Market × Refresh :=
  match r.stage with
  | .queued i assets contract =>
    match (m.cell i).result, (m.cell i).busy with
    | some p, _ => m.settle r i assets.key p
    | none, true => (m, r)
    | none, false => (m.occupy i, { r with stage := .loading i (.first contract assets) })
  | _ => (m, r)

end Market

end PoolMarket
