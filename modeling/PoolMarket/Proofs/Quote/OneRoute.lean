import PoolMarket.Chain.Answer
import PoolMarket.Proofs.Market.GivingUp
import PoolMarket.Proofs.Route.Shortest
import PoolMarket.World

/-!
# A quote is priced on one route

A quote waits once, for the router. Until the reply comes, refreshes may register pairs and change
snapshots, other quotes may be asked for, and the chain goes on. The quote is still one of the
market that it was asked of, and only its amount is what the router replies.

* `Desk` — a market at work with its refreshes and the quotes that were asked for. A quote is begun
  in one event and ended in another.
* `Quote.OnRoute` — what a quote is of: route, contracts and worth are those of one market.
* `exists_answer` — between the two events of a quote nothing touches what it holds.
-/

namespace PoolMarket

/-- Where a quote is that was asked for. -/
inductive QuoteCall.Stage where
  /-- The router has been asked. -/
  | waiting (pending : Quote.Pending)
  | returned (quoted : Outcome (Option Quote))

/-- A quote that was asked for. -/
structure QuoteCall where
  /-- What was asked of the node for the quote, in order. -/
  asked : List (Addr × Json)
  stage : QuoteCall.Stage

/-- A market at work, its refreshes and the quotes that were asked for. -/
structure Desk where
  world : World
  warning : BasisPoints
  refreshes : List Refresh
  quotes : List QuoteCall

/-- What has been asked of the node since. -/
def World.askedSince (w earlier : World) : List (Addr × Json) :=
  (w.node.asked.take (w.node.asked.length - earlier.node.asked.length)).reverse

namespace Desk

/-- What may come next. -/
inductive Event where
  | quote (offer : Coin) (ask : Denom)
  /-- The router's reply to a quote comes. -/
  | answer (call : Nat)
  | refresh (happening : Interleaving.Happening)
  /-- The chain goes on, what it is asked by others is written down, and the node may be told to
  answer anything. -/
  | node (node : Node)

/-- Begins a quote. It returns at once if there is nothing to ask. -/
def quote (s : Desk) (offer : Coin) (ask : Denom) : Desk :=
  let begun := s.world.beginQuote offer ask
  match begun.1 with
  | .ok (some pending) =>
    { s with world := begun.2
             quotes := s.quotes ++ [⟨begun.2.askedSince s.world, .waiting pending⟩] }
  | other =>
    let ended := begun.2.finishQuote s.warning other
    { s with world := ended.2
             quotes := s.quotes ++ [⟨ended.2.askedSince s.world, .returned ended.1⟩] }

/-- Ends a quote, unless it has returned already. -/
def answer (s : Desk) (call : Nat) : Desk :=
  match s.quotes[call]? with
  | some ⟨asked, .waiting pending⟩ =>
    let ended := s.world.finishQuote s.warning (.ok (some pending))
    { s with world := ended.2
             quotes := s.quotes.set call
               ⟨asked ++ ended.2.askedSince s.world, .returned ended.1⟩ }
  | _ => s

/-- Lets happen what an event says. What is replied to a quote is what the node says when the reply
comes. -/
def step (s : Desk) : Event → Desk
  | .quote offer ask => s.quote offer ask
  | .answer call => s.answer call
  | .refresh happening =>
    let t := (Interleaving.mk s.world.market s.refreshes).happen happening
    { s with world := { s.world with market := t.market }, refreshes := t.refreshes }
  | .node node => { s with world := { s.world with node } }

def run (s : Desk) (events : List Event) : Desk := events.foldl step s

/-- What a quote has returned, if it has. -/
def returned? (s : Desk) (call : Nat) : Option (Outcome (Option Quote)) :=
  s.quotes[call]?.bind fun c =>
    match c.stage with
    | .waiting _ => none
    | .returned quoted => some quoted

end Desk

/-! ## The price of an offer -/

/-- A quote of an offer on one route of a market, from the router's reply. -/
structure Quote.OnRoute (m : Market) (offer : Coin) (ask : Denom) (swappers : List Addr)
    (reply : Outcome Json) (q : Quote) : Prop where
  route : m.route? offer.denom ask = some q.route
  /-- No other way through the registered pairs takes fewer hops. -/
  fewest : Search.Shortest m.registry.tradeMap offer.denom ask q.route
  /-- The contracts serve the hops, in order. -/
  served : List.Forall₂ (fun h c => ∃ p side, m.serving h = .ok (p, side) ∧ p.contract = c)
    q.route.hops swappers
  naive : m.valueAlong offer.amount true q.route.hops = .ok q.naive
  amount : ∃ result, (Inquiry.previewSwaps m.router offer swappers).conclude reply = .ok result ∧
    q.amount = result.amount

namespace Market

variable {m : Market}

/-- The contracts that are named for some hops serve them, one by one. By induction on the hops. It
follows `Market.swappers`. -/
theorem forall₂_swappers {hops : List Hop} {swappers : List Addr}
    (h : m.swappers hops = .ok swappers) :
    List.Forall₂ (fun h c => ∃ p side, m.serving h = .ok (p, side) ∧ p.contract = c)
      hops swappers := by
  induction hops generalizing swappers with
  | nil =>
    cases h
    exact .nil
  | cons hop rest ih =>
    obtain ⟨⟨p, side⟩, hserving, h⟩ := Outcome.bind_eq_ok.1 h
    obtain ⟨more, hmore, h⟩ := Outcome.bind_eq_ok.1 h
    cases h
    exact .cons ⟨p, side, hserving, rfl⟩ (ih hmore)

end Market

namespace Quote

variable {m : Market} {offer : Coin} {ask : Denom} {pending : Pending}

/-- All but the amount is settled when a quote begins: the route, its worth, and the question to the
router. By the branches of `Quote.begin`. -/
theorem begin_eq_ok (h : begin m offer ask = .ok (some pending)) :
    ∃ swappers, m.route? offer.denom ask = some pending.route ∧
      m.valueAlong offer.amount true pending.route.hops = .ok pending.naive ∧
      m.swappers pending.route.hops = .ok swappers ∧
      pending.inquiry = .previewSwaps m.router offer swappers := by
  obtain ⟨_, -, h⟩ := Outcome.bind_eq_ok.1 h
  -- a quote that waits found a route, valued it and named its swappers
  cases hroute : m.route? offer.denom ask with
  | none =>
    rw [hroute] at h
    cases h
  | some route =>
    rw [hroute] at h
    obtain ⟨naive, hnaive, h⟩ := Outcome.bind_eq_ok.1 h
    obtain ⟨inquiry, hinquiry, h⟩ := Outcome.bind_eq_ok.1 h
    cases h
    obtain ⟨swappers, hswappers, hasks⟩ : ∃ swappers, m.swappers route.hops = .ok swappers ∧
        inquiry = .previewSwaps m.router offer swappers := by
      unfold Market.previewRoute at hinquiry
      split at hinquiry
      · cases hinquiry
      · obtain ⟨swappers, hswappers, hinquiry⟩ := Outcome.bind_eq_ok.1 hinquiry
        cases hinquiry
        exact ⟨swappers, hswappers, rfl⟩
    exact ⟨swappers, rfl, hnaive, hswappers, hasks⟩

/-- The reply brings the amount, and nothing else but what is reckoned from it. By the steps of
`Pending.finish`. -/
theorem Pending.finish_eq_ok {warning : BasisPoints} {reply : Outcome Json} {q : Quote}
    (h : pending.finish warning reply = .ok q) :
    q.route = pending.route ∧ q.naive = pending.naive ∧
      ∃ result, pending.inquiry.conclude reply = .ok result ∧ q.amount = result.amount := by
  obtain ⟨result, hresult, h⟩ := Outcome.bind_eq_ok.1 h
  obtain ⟨slippage, -, h⟩ := Outcome.bind_eq_ok.1 h
  cases h
  exact ⟨rfl, rfl, result, hresult, rfl⟩

end Quote

/-! ## One step

The node is only looked at for what it was asked. Beginning a quote asks once (`beginQuote_eq_ok`),
and ending it asks nothing (`askedSince_finishQuote`). -/

namespace World

variable {w : World} {offer : Coin} {ask : Denom} {pending : Quote.Pending}

theorem askedSince_of_asked {v : World} (more : List (Addr × Json))
    (h : v.node.asked = more ++ w.node.asked) : v.askedSince w = more.reverse := by
  rw [askedSince, h, List.length_append, Nat.add_sub_cancel, List.take_left]

/-- Beginning a quote asks the node once, the question that `Quote.begin` has made. -/
theorem beginQuote_eq_ok {v : World} (h : w.beginQuote offer ask = (.ok (some pending), v)) :
    Quote.begin w.market offer ask = .ok (some pending) ∧
      v.askedSince w = [(pending.inquiry.contract, pending.inquiry.msg)] := by
  unfold beginQuote at h
  split at h
  · next p hbegin =>
    cases h
    exact ⟨hbegin, askedSince_of_asked [_] rfl⟩
  · next hnone => exact absurd (congrArg Prod.fst h) (hnone pending)

/-- Ending a quote asks nothing: the answer that it takes was asked for before
(`askedSince_of_asked`). -/
theorem askedSince_finishQuote (w : World) (warning : BasisPoints)
    (begun : Outcome (Option Quote.Pending)) :
    (w.finishQuote warning begun).2.askedSince w = [] := by
  refine askedSince_of_asked [] ?_
  have hanswer (contract : Addr) (msg : Json) :
      (w.node.answer contract msg).2.asked = w.node.asked := by
    unfold Node.answer
    split <;> rfl
  rcases begun with fault | _ | pending
  · rfl
  · rfl
  · exact hanswer _ _

/-- A price comes of the reply to the question that the quote began with, by `Pending.finish`. -/
theorem finishQuote_eq_ok {warning : BasisPoints} {quoted : Option Quote}
    (h : (w.finishQuote warning (.ok (some pending))).1 = .ok quoted) :
    ∃ q, pending.finish warning
        (w.node.answer pending.inquiry.contract pending.inquiry.msg).1 = .ok q ∧
      quoted = some q := by
  have hmap : (pending.finish warning
      (w.node.answer pending.inquiry.contract pending.inquiry.msg).1).map some = .ok quoted := h
  cases hfinish : pending.finish warning
      (w.node.answer pending.inquiry.contract pending.inquiry.msg).1 with
  | error fault =>
    rw [hfinish] at hmap
    cases hmap
  | ok q =>
    rw [hfinish] at hmap
    cases hmap
    exact ⟨q, rfl, rfl⟩

end World

namespace Desk

variable {s : Desk} {i : Nat}

/-- A quote takes the next place. It waits for the router, or it has returned without a price. By
what `World.beginQuote` has begun. -/
theorem quote_cases (s : Desk) (offer : Coin) (ask : Denom) :
    (∃ pending w, s.world.beginQuote offer ask = (.ok (some pending), w) ∧
      s.quote offer ask = { s with
        world := w, quotes := s.quotes ++ [⟨w.askedSince s.world, .waiting pending⟩] }) ∨
    ∃ w asked quoted, (∀ q, quoted ≠ .ok (some q)) ∧
      s.quote offer ask = { s with
        world := w, quotes := s.quotes ++ [⟨asked, .returned quoted⟩] } := by
  unfold quote
  cases hbegun : s.world.beginQuote offer ask with
  | mk begun w =>
    rcases begun with fault | _ | pending
    · exact Or.inr ⟨_, _, .error fault, (fun q h => by cases h), rfl⟩
    · exact Or.inr ⟨_, _, .ok none, (fun q h => by cases h), rfl⟩
    · exact Or.inl ⟨pending, w, rfl, rfl⟩

/-- A quote stays as it is until it is answered. By the event; none but an answer to it writes there
(`quote_cases`). -/
theorem quotes_step_of_ne {call : QuoteCall} (hcall : s.quotes[i]? = some call) {e : Event}
    (he : e ≠ .answer i) : (s.step e).quotes[i]? = some call := by
  cases e with
  | quote offer ask =>
    have hi := (List.getElem?_eq_some_iff.1 hcall).1
    show (s.quote offer ask).quotes[i]? = _
    rcases s.quote_cases offer ask with ⟨pending, w, -, hquote⟩ | ⟨w, asked, quoted, -, hquote⟩
    · rw [hquote, List.getElem?_append_left hi, hcall]
    · rw [hquote, List.getElem?_append_left hi, hcall]
  | answer j =>
    have hne : j ≠ i := fun heq => he (congrArg Event.answer heq)
    show (s.answer j).quotes[i]? = _
    unfold answer
    split
    · rw [List.getElem?_set_ne hne, hcall]
    · exact hcall
  | refresh happening => exact hcall
  | node node => exact hcall

/-- A quote that waits returns when it is answered, and has asked nothing more
(`World.askedSince_finishQuote`). -/
theorem quotes_step_answer {asked : List (Addr × Json)} {pending : Quote.Pending}
    (hcall : s.quotes[i]? = some ⟨asked, .waiting pending⟩) :
    (s.step (.answer i)).quotes[i]? =
      some ⟨asked, .returned (s.world.finishQuote s.warning (.ok (some pending))).1⟩ := by
  show (s.answer i).quotes[i]? = _
  unfold answer
  simp only [hcall]
  rw [List.getElem?_set_self (List.getElem?_eq_some_iff.1 hcall).1, World.askedSince_finishQuote,
    List.append_nil]

theorem step_answer_of_returned {asked : List (Addr × Json)} {quoted : Outcome (Option Quote)}
    (hcall : s.quotes[i]? = some ⟨asked, .returned quoted⟩) : s.step (.answer i) = s := by
  show s.answer i = s
  unfold answer
  simp only [hcall]

/-- A quote that has returned stays as it is. By induction on the events, with
`quotes_step_of_ne`. -/
theorem quotes_run_of_returned {asked : List (Addr × Json)} {quoted : Outcome (Option Quote)}
    (hcall : s.quotes[i]? = some ⟨asked, .returned quoted⟩) (events : List Event) :
    (s.run events).quotes[i]? = some ⟨asked, .returned quoted⟩ := by
  induction events generalizing s with
  | nil => exact hcall
  | cons e rest ih =>
    refine ih ?_
    by_cases he : e = .answer i
    · rw [he, step_answer_of_returned hcall, hcall]
    · exact quotes_step_of_ne hcall he

theorem warning_step (s : Desk) (e : Event) : (s.step e).warning = s.warning := by
  cases e with
  | quote offer ask =>
    show (s.quote offer ask).warning = _
    rcases s.quote_cases offer ask with ⟨pending, w, -, hquote⟩ | ⟨w, asked, quoted, -, hquote⟩
    · rw [hquote]
    · rw [hquote]
  | answer j =>
    show (s.answer j).warning = _
    unfold answer
    split <;> rfl
  | refresh happening => rfl
  | node node => rfl

/-- A quote that waits and has returned later was answered in between, once. By induction on the
events: the first answer ends it (`quotes_step_answer`), and it stays so
(`quotes_run_of_returned`). -/
theorem exists_answer {asked later : List (Addr × Json)} {pending : Quote.Pending}
    {quoted : Outcome (Option Quote)} (hcall : s.quotes[i]? = some ⟨asked, .waiting pending⟩)
    {events : List Event} (hlater : (s.run events).quotes[i]? = some ⟨later, .returned quoted⟩) :
    later = asked ∧ ∃ before after, events = before ++ .answer i :: after ∧
      ((s.run before).world.finishQuote s.warning (.ok (some pending))).1 = quoted := by
  induction events generalizing s with
  | nil =>
    have heq := hcall.symm.trans hlater
    cases heq
  | cons e rest ih =>
    by_cases he : e = .answer i
    · subst he
      have hend := (quotes_run_of_returned (quotes_step_answer hcall) rest).symm.trans hlater
      rw [Option.some.injEq, QuoteCall.mk.injEq, QuoteCall.Stage.returned.injEq] at hend
      exact ⟨hend.1.symm, [], rest, rfl, hend.2⟩
    · obtain ⟨hasked, before, after, rfl, hquoted⟩ := ih (quotes_step_of_ne hcall he) hlater
      refine ⟨hasked, e :: before, after, rfl, ?_⟩
      rw [warning_step] at hquoted
      exact hquoted

/-- A quote that has begun is settled but for its amount (`Quote.begin_eq_ok`); it was answered in
between (`exists_answer`), and the answer brings the amount (`Quote.Pending.finish_eq_ok`). -/
theorem quote_onRoute (s : Desk) (offer : Coin) (ask : Denom) (later : List Event)
    (asked : List (Addr × Json)) (q : Quote)
    (hreturned : ((s.quote offer ask).run later).quotes[s.quotes.length]? =
      some ⟨asked, .returned (.ok (some q))⟩) :
    ∃ swappers before after,
      asked = [(s.world.market.router, (RouterQuery.preview offer swappers).toJson.canonical)] ∧
      later = before ++ .answer s.quotes.length :: after ∧
      q.OnRoute s.world.market offer ask swappers
        (((s.quote offer ask).run before).world.node.answer s.world.market.router
          (RouterQuery.preview offer swappers).toJson.canonical).1 := by
  -- a call that never waited has no quote to return
  rcases s.quote_cases offer ask with ⟨pending, w, hbegun, hquote⟩ | ⟨w, told, quoted, hnone, hquote⟩
  · have hcall : (s.quote offer ask).quotes[s.quotes.length]? =
        some ⟨w.askedSince s.world, .waiting pending⟩ := by
      rw [hquote]
      exact List.getElem?_concat_length
    obtain ⟨rfl, before, after, rfl, hquoted⟩ := exists_answer hcall hreturned
    obtain ⟨hbegin, hasked⟩ := World.beginQuote_eq_ok hbegun
    obtain ⟨swappers, hroute, hnaive, hswappers, hinquiry⟩ := Quote.begin_eq_ok hbegin
    obtain ⟨q', hfinish, hq⟩ := World.finishQuote_eq_ok hquoted
    cases hq
    obtain ⟨hsameRoute, hsameNaive, result, hresult, hamount⟩ := Quote.Pending.finish_eq_ok hfinish
    rw [hinquiry] at hasked hresult
    refine ⟨swappers, before, after, hasked, rfl, ?_, ?_, ?_, ?_, result, hresult, hamount⟩
    · rw [hsameRoute, hroute]
    · rw [hsameRoute]
      exact TradeMap.shortest_of_route? hroute
    · rw [hsameRoute]
      exact Market.forall₂_swappers hswappers
    · rw [hsameRoute, hsameNaive, hnaive]
  · have hcall : (s.quote offer ask).quotes[s.quotes.length]? = some ⟨told, .returned quoted⟩ := by
      rw [hquote]
      exact List.getElem?_concat_length
    have hend := (quotes_run_of_returned hcall later).symm.trans hreturned
    rw [Option.some.injEq, QuoteCall.mk.injEq, QuoteCall.Stage.returned.injEq] at hend
    exact absurd hend.2 (hnone q)

theorem exists_of_returned? {quoted : Outcome (Option Quote)} (h : s.returned? i = some quoted) :
    ∃ asked, s.quotes[i]? = some ⟨asked, .returned quoted⟩ := by
  obtain ⟨⟨asked, stage⟩, hcall, hstage⟩ := Option.bind_eq_some_iff.1 h
  cases stage with
  | waiting pending => cases hstage
  | returned other =>
    cases hstage
    exact ⟨asked, hcall⟩

/-! ### A pair is registered that would have been a shorter way -/

namespace Sample

open Chain (Ledger)
open Deployment (factory router)

def first : Addr := ⟨"first", by decide, by decide⟩

def second : Addr := ⟨"second", by decide, by decide⟩

def direct : Addr := ⟨"direct", by decide, by decide⟩

def sei : Denom := .native "usei"

def atom : Denom := .native "uatom"

def usdc : Denom := .native "uusdc"

def toAtom : DenomPair := ⟨sei, atom, by decide⟩

def toUsdc : DenomPair := ⟨atom, usdc, by decide⟩

def across : DenomPair := ⟨sei, usdc, by decide⟩

def reserves : Both Amount := ⟨.ofUInt32 4000, .ofUInt32 9000⟩

def load (id : Nat) (contract : Addr) (assets : DenomPair) : Loaded :=
  ⟨id, contract, assets, assets.text, ⟨reserves, .ofUInt32 6000, .zero⟩⟩

def market : Market :=
  { factory, router
    defaultSlippage := .ofUInt16 100
    pageSize := 10
    registry := ((Registry.empty.register (load 0 first toAtom)).1.register (load 1 second toUsdc)).1
    inFlight := ∅
    cells := #[]
    loaded := [load 1 second toUsdc, load 0 first toAtom] }

def chain : Ledger :=
  (Ledger.new factory router).run
    [.addPair first toAtom .zero, .deposit first reserves,
      .addPair second toUsdc .zero, .deposit second reserves]

/-- A chain that lists the pair of both ends only. -/
def shortcut : Ledger :=
  (Ledger.new factory router).run [.addPair direct across .zero, .deposit direct reserves]

def desk : Desk := ⟨⟨market, .new chain, .ofList []⟩, .ofUInt16 100, [], []⟩

def offer : Coin := ⟨.ofUInt32 100, sei⟩

def hops : List Hop := [⟨sei, atom⟩, ⟨atom, usdc⟩]

def pending : Quote.Pending :=
  ⟨⟨hops⟩, .ofUInt32 506, .previewSwaps router offer [first, second]⟩

/-- The quote that waits. -/
def waiting : Desk :=
  { desk with
    world := desk.world.pose [(pending.inquiry.contract, pending.inquiry.msg)]
    quotes := [⟨[(pending.inquiry.contract, pending.inquiry.msg)], .waiting pending⟩] }

/-- A refresh registers the pair, and then the router replies. -/
def later : List Event :=
  .refresh (.event .start) :: ([.page none, .page (some across.toStrings), .pool direct .config,
    .pool direct .totalShares, .pool direct .denoms,
    .pool direct (.shareValue (.ofUInt32 6000))] : List Question).map (fun question =>
      .refresh (.event (.reply 0 (.ofList []) question
        (shortcut.answer (market.addressee question) (market.message question))))) ++ [.answer 0]

def price : Quote := ⟨⟨hops⟩, .ofUInt32 470, .ofUInt32 506, .ofUInt16 712, true⟩

theorem route_sample : market.route? sei usdc = some ⟨hops⟩ := by
  have hsei : market.registry.tradeMap.neighbours sei = [atom] := by decide +kernel
  have hatom : market.registry.tradeMap.neighbours atom = [usdc, sei] := by decide +kernel
  rw [Market.route?, TradeMap.route?, if_neg (by decide),
    Search.run_of_waiting sei rfl (by rw [hsei]; rfl),
    Search.run_of_arrived atom rfl (by rw [hatom]; rfl)]
  rfl

theorem begin_sample : Quote.begin market offer usdc = .ok (some pending) := by
  have hnaive : market.valueAlong offer.amount true hops = .ok (.ofUInt32 506) := by decide +kernel
  have hswappers : market.swappers hops = .ok [first, second] := by decide +kernel
  have hpreview : market.previewRoute offer ⟨hops⟩ = .ok pending.inquiry := by
    unfold Market.previewRoute
    rw [hswappers]
    rfl
  unfold Quote.begin
  rw [show market.route? offer.denom usdc = some ⟨hops⟩ from route_sample]
  simp only [hnaive, hpreview]
  rfl

theorem beginQuote_sample :
    desk.world.beginQuote offer usdc = (.ok (some pending), waiting.world) := by
  unfold World.beginQuote
  rw [show Quote.begin desk.world.market offer usdc = _ from begin_sample]
  rfl

theorem quote_sample : desk.quote offer usdc = waiting := by
  unfold quote
  rw [beginQuote_sample]
  rfl

/-- The quote is of two hops, though one would do when it returns (`later`). -/
theorem quote_onRoute_despite_shortcut : ∃ asked,
    ((desk.quote offer usdc).run later).quotes[desk.quotes.length]? =
        some ⟨asked, .returned (.ok (some price))⟩ ∧
      ((desk.quote offer usdc).run later).world.market.find? across false ≠ none ∧
      ∃ swappers before after,
        asked = [(router, (RouterQuery.preview offer swappers).toJson.canonical)] ∧
        later = before ++ .answer desk.quotes.length :: after ∧
        price.OnRoute market offer usdc swappers
          (((desk.quote offer usdc).run before).world.node.answer router
            (RouterQuery.preview offer swappers).toJson.canonical).1 := by
  have hreturned : ((desk.quote offer usdc).run later).returned? 0 = some (.ok (some price)) := by
    rw [quote_sample]
    decide +kernel
  have hfound : ((desk.quote offer usdc).run later).world.market.find? across false ≠ none := by
    rw [quote_sample]
    decide +kernel
  obtain ⟨asked, hcall⟩ := exists_of_returned? hreturned
  exact ⟨asked, hcall, hfound, quote_onRoute desk offer usdc later asked price hcall⟩

end Sample

end Desk

end PoolMarket
