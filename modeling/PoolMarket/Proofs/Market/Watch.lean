import PoolMarket.Proofs.Chain.Replies
import PoolMarket.Proofs.Market.Knowledge
import PoolMarket.Proofs.Market.SingleFlight

/-!
# A market that watches a chain

The refreshes of a market ask one chain, which goes on while they wait: calls to the chain come
between the steps of the refreshes in any order. A market then knows nothing but what the chain
lists, since a listing is never taken back.

* `Watch` — a chain and the refreshes of a market; `Watch.step` lets one of them go on.
* `Effect.lists`, `Effect.validated` — what a call to the chain leaves of its listings.
* `Market.Follows` — `Market.Knows`, of the listings of a chain.
* `Grounded` — the invariant: the chain is coherent, the refreshes are sound, and what they know is
  listed. `Grounded.run` keeps it.
-/

namespace PoolMarket

open Chain (Ledger Call)

/-- A chain and the refreshes of a market that ask it. -/
structure Watch where
  chain : Ledger
  tasks : Interleaving

namespace Watch

/-- What comes next: a call to the chain, or a step of a refresh. The chain replies to a question as
it is at that moment. -/
inductive Event where
  | call (call : Call)
  | start
  | ask (task : Nat) (tokens : TokenDirectory) (question : Question)
  | wake (task : Nat)

/-- A new market, and a new chain with its factory. -/
def new (s : Settings) (router : Addr) : Watch := ⟨.new s.factory router, .new s⟩

/-- Lets the chain or a refresh go on. To be asked is counted by the chain, which may fail a
contract after so many questions (`Ledger.count`), and the reply is of the chain before that. -/
def step (w : Watch) : Event → Watch
  | .call call => { w with chain := (w.chain.execute call).2 }
  | .start => { w with tasks := w.tasks.step .start }
  | .ask task tokens question =>
    let contract := w.tasks.market.addressee question
    let reply := w.chain.answer contract (w.tasks.market.message question)
    ⟨w.chain.count contract, w.tasks.step (.reply task tokens question reply)⟩
  | .wake task => { w with tasks := w.tasks.step (.wake task) }

/-- Lets one after the other go on. -/
def run (w : Watch) (events : List Event) : Watch := events.foldl step w

end Watch

/-! ## What the chain lists stays listed

No call takes a listing back or changes one. By what a call may do to a chain (`Effect`), so this
says nothing about single calls. -/

namespace Chain.Ledger

variable {l n : Ledger}

/-- What was listed is listed still. A pool that is listed anew has a contract that no other has. By
the cases of `Effect`. -/
theorem Effect.lists (he : l.Effect n) {e : DenomPair × Addr} (h : l.Lists e) : n.Lists e := by
  unfold Lists at h ⊢
  cases he with
  | still factory router pools listing => rw [listing, h]
  | list contract assets fees free unlisted =>
    simp only [Std.TreeMap.getElem?_insert, Std.compare_eq_iff_eq]
    rw [if_neg, h]
    intro hkey
    rw [← hkey, (listed_eq_false.1 unlisted).1] at h
    cases h
  | change contract there assets backed => exact h

/-- Where all denoms are validated, they were so before, since no pool that there was has gone. By
the cases of `Effect`. -/
theorem Effect.validated (he : l.Effect n) (h : n.Validated) : l.Validated := by
  intro contract p hp
  cases he with
  | still factory router pools listing => exact h contract p (by rw [pools, hp])
  | list other assets fees free unlisted =>
    refine h contract p ?_
    simp only [Std.TreeMap.getElem?_insert, Std.compare_eq_iff_eq]
    -- a pool that is listed was not there before, so it is not the one that was asked about
    rw [if_neg, hp]
    rintro rfl
    rw [(taken_eq_false.1 free).2] at hp
    cases hp
  | @change other p' q there assets backed =>
    by_cases hother : other = contract
    · rw [hother, hp, Option.some.injEq] at there
      rw [there, ← assets]
      refine h contract q ?_
      simp only [Std.TreeMap.getElem?_insert, Std.compare_eq_iff_eq]
      exact if_pos hother
    · refine h contract p ?_
      simp only [Std.TreeMap.getElem?_insert, Std.compare_eq_iff_eq]
      rw [if_neg hother, hp]

end Chain.Ledger

/-! ## A market that follows a chain

Being listed by a chain is a property of listings, so `Interleaving.Knows` says it of a market with its
refreshes, and all that `Proofs/Market/Knowledge` shows of what is known holds of it. -/

/-- A pair is of a listing. -/
def Loaded.Listed (p : Loaded) (l : Ledger) : Prop := l.Lists (p.pair.assets, p.pair.contract)

/-- What a market knows is listed by the chain of its factory. -/
def Market.Follows (m : Market) (l : Ledger) : Prop := m.Knows l.factory l.Lists

/-! ## Every watch -/

namespace Watch

/-- What holds of every watch. That the denoms of the chain are validated is only asked of it as it
is now, since then they always were. -/
structure Grounded (w : Watch) : Prop where
  coherent : w.chain.Coherent
  sound : w.tasks.Sound
  knows : w.chain.Validated → w.tasks.Knows w.chain.factory w.chain.Lists

/-- A market just set up knows nothing (`Interleaving.knows_new`), and a new chain is coherent. -/
theorem grounded_new {s : Settings} (hpaged : s.pageSize ≠ 0) (router : Addr) :
    (new s router).Grounded where
  coherent := Chain.Ledger.coherent_new s.factory router
  sound := Interleaving.sound_new s
  knows _ := Interleaving.knows_new hpaged

/-- The chain goes on while the refreshes stand still. What they know was listed and is listed still
(`Effect.lists`). -/
theorem Grounded.call {w : Watch} (h : w.Grounded) (call : Call) :
    (w.step (.call call)).Grounded := by
  have he := w.chain.effect_execute call
  have hfactory : (w.chain.execute call).2.factory = w.chain.factory := he.factory_router.1
  refine ⟨h.coherent.effect he, h.sound, fun hvalid => ?_⟩
  show w.tasks.Knows (w.chain.execute call).2.factory (w.chain.execute call).2.Lists
  rw [hfactory]
  exact (h.knows (he.validated hvalid)).mono fun _ hl => he.lists hl

/-- To count a question changes nothing that a market could know: a chain that stands still
(`Effect.still`). -/
theorem Grounded.count {w : Watch} (h : w.Grounded) (contract : Addr) :
    Grounded ⟨w.chain.count contract, w.tasks⟩ :=
  ⟨h.coherent.effect (.still rfl rfl rfl rfl), h.sound, h.knows⟩

/-- A page that the chain replies is of listings: it sends those that it lists
(`Coherent.lists_of_conclude_page`), and they are read as they were sent (`readPage_sent`). -/
theorem Grounded.lists_of_page {w : Watch} (h : w.Grounded) (hvalid : w.chain.Validated)
    {after : Option (Both String)} {page : List Listing} {es : List (DenomPair × Addr)}
    (hpage : (Inquiry.page w.tasks.market.factory after w.tasks.market.pageSize).conclude
      (w.chain.answer (w.tasks.market.addressee (.page after))
        (w.tasks.market.message (.page after))) = .ok page)
    (hes : Market.readPage page = .ok es) : ∀ e ∈ es, w.chain.Lists e := by
  rw [Market.addressee, Market.message, (h.knows hvalid).market.factory] at hpage
  obtain ⟨listings, rfl, hlists⟩ := h.coherent.lists_of_conclude_page hpage
  rw [Chain.Ledger.readPage_sent fun e he => (hlists e he).validated h.coherent hvalid,
    Except.ok.injEq] at hes
  exact hes ▸ hlists

/-- Each step keeps a watch grounded. By the event: a call is `Grounded.call`, and a refresh that
hears a reply of the chain knows no more by it than a page tells (`Knows.hear`). -/
theorem Grounded.step {w : Watch} (h : w.Grounded) (e : Event) : (w.step e).Grounded := by
  cases e with
  | call call => exact h.call call
  | start => exact ⟨h.coherent, h.sound.step .start, fun hvalid => (h.knows hvalid).start⟩
  | ask task tokens question =>
    have hheard : Grounded ⟨w.chain, w.tasks.step (.reply task tokens question
        (w.chain.answer (w.tasks.market.addressee question) (w.tasks.market.message question)))⟩ := by
      refine ⟨h.coherent, h.sound.step (.reply ..), fun hvalid =>
        (h.knows hvalid).hear task tokens question _ ?_⟩
      intro after page es hquestion hpage hes
      subst hquestion
      exact h.lists_of_page hvalid hpage hes
    exact hheard.count (w.tasks.market.addressee question)
  | wake task =>
    exact ⟨h.coherent, h.sound.step (.wake task), fun hvalid => (h.knows hvalid).wake task⟩

/-- So does a run of steps. By induction on the events, with `Grounded.step`. -/
theorem Grounded.run {w : Watch} (h : w.Grounded) (events : List Event) :
    (w.run events).Grounded := by
  induction events generalizing w with
  | nil => exact h
  | cons e rest ih => exact ih (h.step e)

/-- All denoms that a market knows are validated, whatever those on the chain are: a market reads a
page by taking denoms from their texts, which validates them (`Knows.validated_step`). -/
theorem validated_step {w : Watch} {factory : Addr}
    (h : w.tasks.Knows factory fun e => e.1.Validated) (e : Event) :
    (w.step e).tasks.Knows factory fun e => e.1.Validated := by
  cases e with
  | call call => exact h
  | start => exact h.validated_step .start
  | ask task tokens question => exact h.validated_step (.reply task tokens question _)
  | wake task => exact h.validated_step (.wake task)

/-- They are over a run, by induction on the events (`validated_step`). -/
theorem validated_run {w : Watch} {factory : Addr}
    (h : w.tasks.Knows factory fun e => e.1.Validated) (events : List Event) :
    (w.run events).tasks.Knows factory fun e => e.1.Validated := by
  induction events generalizing w with
  | nil => exact h
  | cons e rest ih => exact ih (validated_step h e)

end Watch

end PoolMarket
