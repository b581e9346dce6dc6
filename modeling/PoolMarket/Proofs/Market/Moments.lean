import Mathlib.Data.List.Induction
import Mathlib.Data.List.Infix
import PoolMarket.Proofs.Chain.Product
import PoolMarket.Proofs.Market.Hearing
import PoolMarket.Proofs.Market.Mirror
import PoolMarket.Proofs.Market.Shown

/-!
# The moments of a reading

A pool goes on while it is read. The fees, the supply of shares and the worth of that supply are
each those of the moment at which they were asked for, and the worth is asked for last. So the
snapshot is of one moment if neither the fees nor the supply have changed until then. Otherwise it
may be of none: the reserves are then those of a part of the shares, or of more shares than there
were.

* `Rereading` — a chain, and one more reading that asks it; calls and questions come in any order.
* `Traced` — the log of a reading with the moment of each reply; `traced_run` says that a run has
  one.
* `Snapshot.Pieced` — what a snapshot is pieced together from; `pieces_of_complete` says that every
  snapshot is.
-/

namespace PoolMarket

open Chain (Ledger Pool Call)

/-- A chain, and one more reading of a known pair that asks it. -/
structure Rereading where
  chain : Ledger
  progress : Outcome Reading.Progress

namespace Rereading

/-- What comes next: a call to the chain, or a question to the pool. The chain replies to it as it
is at that moment. -/
inductive Event where
  | call (call : Call)
  | ask (query : PairQuery)

/-- A known pair is to be read again. -/
def start (l : Ledger) (pair : Pair) : Rereading := ⟨l, .ok (.waiting (.again pair))⟩

/-- A question that the reading does not wait for is not asked. -/
def ask (s : Rereading) (query : PairQuery) : Rereading :=
  match s.progress with
  | .ok (.waiting r) =>
    if query ∈ r.questions then
      ⟨s.chain.count r.contract,
        r.receive query (s.chain.answer r.contract query.toJson.canonical)⟩
    else s
  | _ => s

/-- Lets the chain go on, or the reading ask. -/
def step (s : Rereading) : Event → Rereading
  | .call call => { s with chain := (s.chain.execute call).2 }
  | .ask query => s.ask query

/-- One event after the other. -/
def run (s : Rereading) (events : List Event) : Rereading := events.foldl step s

/-- The reading waits for a reply to the question. -/
def Awaits (s : Rereading) (query : PairQuery) : Prop :=
  ∃ r, s.progress = .ok (.waiting r) ∧ query ∈ r.questions

/-- A question that the reading waited for was asked next after some of the events of a run. -/
structure AskedAfter (s : Rereading) (before events : List Event) (query : PairQuery) : Prop where
  next : before ++ [.ask query] <+: events
  awaited : (s.run before).Awaits query

/-- A moment of a run at which a pool was asked something, and the pool as it was then. -/
structure Moment (s : Rereading) (events : List Event) (contract : Addr) (query : PairQuery) where
  before : List Event
  asked : s.AskedAfter before events query
  pool : Pool
  there : (s.run before).chain.pools[contract]? = some pool

end Rereading

/-- The call is a deposit, a withdrawal or a change of the fees at a contract. -/
def Chain.Call.resetsAt (contract : Addr) : Call → Bool
  | .setFees other _ => other == contract
  | call => call.resizesAt contract

/-- A snapshot is pieced together from the moments at which a pool was asked for its fees, for its
supply of shares and for the worth of these. -/
structure Snapshot.Pieced {s : Rereading} {events : List Rereading.Event} {contract : Addr}
    (snapshot : Snapshot) (atFees : s.Moment events contract .config)
    (atSupply : s.Moment events contract .totalShares)
    (atWorth : s.Moment events contract (.shareValue snapshot.shares)) : Prop where
  /-- The worth is asked for behind the fees and the supply. -/
  last : atFees.before ++ [.ask .config] <+: atWorth.before ∧
    atSupply.before ++ [.ask .totalShares] <+: atWorth.before
  fees : snapshot.fees = atFees.pool.fees
  shares : snapshot.shares = atSupply.pool.shares
  deposits : atWorth.pool.worth snapshot.shares = .ok snapshot.deposits
  /-- With the fees and the supply still the same, it shows the pool at the last moment. -/
  same : atFees.pool.fees = atWorth.pool.fees → atSupply.pool.shares = atWorth.pool.shares →
    snapshot = atWorth.pool.snapshot
  /-- Swaps alone do not keep it from being of one moment. -/
  swaps : (∀ call, .call call ∈ events → call.resetsAt contract = false) →
    snapshot = atWorth.pool.snapshot

/-- A snapshot is pieced together from moments of a run. -/
def Rereading.Pieces (s : Rereading) (events : List Event) (contract : Addr)
    (snapshot : Snapshot) : Prop :=
  ∃ (atFees : s.Moment events contract .config) (atSupply : s.Moment events contract .totalShares)
    (atWorth : s.Moment events contract (.shareValue snapshot.shares)),
    snapshot.Pieced atFees atSupply atWorth

/-! ## The pool goes on

What a call may do to a pool is `Pool.Turns`. The fees and the supply are changed by three calls
only (`Call.resetsAt`), and by no swap. -/

/-- Any other call leaves the fees and the supply as they are; a swap moves the reserves alone
(`Pool.swap_ok`). -/
theorem Chain.Pool.Turns.steady {contract : Addr} {p q : Pool} {call : Call}
    (h : p.Turns contract q call) (hcall : call.resetsAt contract = false) :
    q.fees = p.fees ∧ q.shares = p.shares := by
  cases h with
  | deposit | withdraw | setFees =>
    have hcall : (contract == contract) = false := hcall
    rw [beq_self_eq_true] at hcall
    cases hcall
  | swap done =>
    obtain ⟨-, side, -, -, -, -, hshares, -, hfees⟩ := Pool.swap_ok done
    exact ⟨hfees, hshares⟩

namespace Rereading

section Run

variable {s : Rereading} {contract : Addr} {events : List Event}

theorem run_append (s : Rereading) (before after : List Event) :
    s.run (before ++ after) = (s.run before).run after :=
  List.foldl_append

/-- A question leaves the chain as it is, or is counted there. In the first case it was not asked,
as the reading does not wait for it. By the branches of `Rereading.ask`. -/
theorem ask_cases (s : Rereading) (query : PairQuery) :
    s.ask query = s ∨ ∃ r, s.progress = .ok (.waiting r) ∧ query ∈ r.questions ∧
      s.ask query = ⟨s.chain.count r.contract,
        r.receive query (s.chain.answer r.contract query.toJson.canonical)⟩ := by
  unfold ask
  split
  · next r hr =>
    split
    · next hasked => exact Or.inr ⟨r, hr, hasked, rfl⟩
    · exact Or.inl rfl
  · exact Or.inl rfl

/-- Whatever comes next, the chain is the outcome of an `Effect`: of the call, or of being asked. -/
theorem effect_step (s : Rereading) (e : Event) : s.chain.Effect (s.step e).chain := by
  cases e with
  | call call => exact s.chain.effect_execute call
  | ask query =>
    rcases s.ask_cases query with h | ⟨r, -, -, h⟩
    · rw [step, h]
      exact .refl s.chain
    · rw [step, h]
      exact .still rfl rfl rfl rfl

/-- What every call and question keeps of a chain holds until the end of a run. By induction on the
events, with `effect_step`. -/
theorem chain_run {P : Ledger → Prop} (hP : ∀ l n, l.Effect n → P l → P n) (h : P s.chain)
    (events : List Event) : P (s.run events).chain := by
  induction events generalizing s with
  | nil => exact h
  | cons e rest ih => exact ih (hP _ _ (s.effect_step e) h)

/-- A pool is turned into another by calls alone (`Ledger.execute_pool`). -/
theorem step_pool {p : Pool} (hp : s.chain.pools[contract]? = some p) (e : Event) :
    ∃ q, (s.step e).chain.pools[contract]? = some q ∧
      (q = p ∨ ∃ call, e = .call call ∧ p.Turns contract q call) := by
  cases e with
  | call call =>
    obtain ⟨q, hq, hturns⟩ := Ledger.execute_pool hp call
    exact ⟨q, hq, hturns.imp_right fun h => ⟨call, rfl, h⟩⟩
  | ask query =>
    refine ⟨p, ?_, Or.inl rfl⟩
    rcases s.ask_cases query with h | ⟨r, -, -, h⟩
    · rw [step, h, hp]
    · rw [step, h]
      exact hp

/-- Fees and supply stay the same over a run without such a call. By induction on the events, with
`step_pool` and `Turns.steady`. -/
theorem steady_run (hcalls : ∀ call, .call call ∈ events → call.resetsAt contract = false)
    {p q : Pool} (hp : s.chain.pools[contract]? = some p)
    (hq : (s.run events).chain.pools[contract]? = some q) :
    q.fees = p.fees ∧ q.shares = p.shares := by
  induction events generalizing s p with
  | nil =>
    have hq : s.chain.pools[contract]? = some q := hq
    rw [hp, Option.some.injEq] at hq
    rw [hq]
    exact ⟨rfl, rfl⟩
  | cons e rest ih =>
    obtain ⟨r, hr, hturns⟩ := step_pool hp e
    obtain ⟨hfees, hshares⟩ := ih (fun call hmem => hcalls call (List.mem_cons_of_mem e hmem)) hr hq
    rcases hturns with rfl | ⟨call, rfl, hturns⟩
    · exact ⟨hfees, hshares⟩
    · obtain ⟨hfees', hshares'⟩ := hturns.steady (hcalls call List.mem_cons_self)
      exact ⟨hfees.trans hfees', hshares.trans hshares'⟩

/-! ## The moments of the questions

Replies are put on the log as the chain answers, so each reply has a moment at which it is the
answer (`Traced.mem`), and the last one is behind all others (`Traced.last`). -/

/-- The replies of a chain during a run, each as the chain was when it was asked. -/
inductive Traced (s : Rereading) (contract : Addr) :
    List Event → List (PairQuery × Outcome Json) → Prop where
  | start : Traced s contract [] []
  | other {events : List Event} {log : List (PairQuery × Outcome Json)}
      (before : Traced s contract events log) (e : Event) : Traced s contract (events ++ [e]) log
  | asked {events : List Event} {log : List (PairQuery × Outcome Json)} {query : PairQuery}
      (before : Traced s contract events log) (awaited : (s.run events).Awaits query) :
      Traced s contract (events ++ [.ask query])
        (log ++ [(query, (s.run events).chain.answer contract query.toJson.canonical)])

variable {log : List (PairQuery × Outcome Json)} {query : PairQuery} {reply : Outcome Json}

theorem AskedAfter.earlier {before : List Event} (h : s.AskedAfter before events query) :
    before <+: events :=
  (List.prefix_append before _).trans h.next

theorem AskedAfter.longer {before more : List Event} (h : s.AskedAfter before events query)
    (hmore : events <+: more) : s.AskedAfter before more query :=
  ⟨h.next.trans hmore, h.awaited⟩

/-- The last reply has its moment, and all others came before. By induction on the trace: events
behind it that are no replies are passed over (`AskedAfter.longer`). -/
theorem Traced.last (h : s.Traced contract events (log ++ [(query, reply)])) :
    ∃ before, s.AskedAfter before events query ∧
      reply = (s.run before).chain.answer contract query.toJson.canonical ∧
      s.Traced contract before log := by
  generalize hall : log ++ [(query, reply)] = all at h
  induction h with
  | start => cases List.append_eq_nil_iff.1 hall |>.2
  | other before e ih =>
    obtain ⟨earlier, hasked, hreply, htraced⟩ := ih hall
    exact ⟨earlier, hasked.longer (List.prefix_append _ _), hreply, htraced⟩
  | @asked events log' query' before awaited ih =>
    obtain ⟨rfl, hentry⟩ := List.append_inj' hall rfl
    cases hentry
    exact ⟨events, ⟨List.prefix_rfl, awaited⟩, rfl, before⟩

/-- Every reply has its moment. By the same induction, for a reply anywhere in the log. Each moment
is good for a longer run (`AskedAfter.longer`). -/
theorem Traced.mem (h : s.Traced contract events log) (hmem : (query, reply) ∈ log) :
    ∃ before, s.AskedAfter before events query ∧
      reply = (s.run before).chain.answer contract query.toJson.canonical := by
  induction h with
  | start => cases hmem
  | other before e ih =>
    obtain ⟨earlier, hasked, hreply⟩ := ih hmem
    exact ⟨earlier, hasked.longer (List.prefix_append _ _), hreply⟩
  | @asked events log query' before awaited ih =>
    rcases List.mem_append.1 hmem with hmem | hmem
    · obtain ⟨earlier, hasked, hreply⟩ := ih hmem
      exact ⟨earlier, hasked.longer (List.prefix_append _ _), hreply⟩
    · cases List.mem_singleton.1 hmem
      exact ⟨events, ⟨List.prefix_rfl, awaited⟩, rfl⟩

/-- What a reading has been replied are the answers of the chain. By induction on the events from
the end; a question that is not waited for adds nothing to the log (`ask_cases`). -/
theorem traced_run (l : Ledger) (pair : Pair) (events : List Event) :
    ∃ log, (Reading.again pair).Hears log ((start l pair).run events).progress ∧
      (start l pair).Traced pair.contract events log := by
  -- from the last event, since the log lists what has been heard so far
  induction events using List.reverseRecOn with
  | nil => exact ⟨[], .start, .start⟩
  | append_singleton events e ih =>
    obtain ⟨log, hhears, htraced⟩ := ih
    rw [run_append]
    show ∃ log, (Reading.again pair).Hears log (((start l pair).run events).step e).progress ∧ _
    cases e with
    | call call => exact ⟨log, hhears, htraced.other _⟩
    | ask query =>
      rcases ((start l pair).run events).ask_cases query with h | ⟨r, hr, hasked, h⟩
      · rw [step, h]
        exact ⟨log, hhears, htraced.other _⟩
      · rw [step, h]
        rw [hr] at hhears
        have hsame := (hhears.behind rfl rfl).same
        refine ⟨_, hhears.reply hasked _, ?_⟩
        rw [hsame.contract]
        exact htraced.asked ⟨r, hr, hasked⟩

/-! ## What a reading comes to

What a completed reading gives is on its log (`Hears.gives`), and what is on the log has a moment.
The three moments of a snapshot are those of the three replies. -/

/-- What a reading was told, the chain has said at some moment (`Traced.mem`). -/
theorem Traced.asked_of_told {α : Type} {inquiry : Inquiry α} {a : α}
    (h : s.Traced contract events log) (htold : Reading.Told inquiry query log a)
    (hinquiry : (inquiry.contract, inquiry.msg) = (contract, query.toJson.canonical)) :
    ∃ before, s.AskedAfter before events query ∧ (s.run before).chain.asked inquiry = .ok a := by
  obtain ⟨reply, hmem, hconclude⟩ := htold
  obtain ⟨before, hasked, rfl⟩ := h.mem hmem
  obtain ⟨hcontract, hmsg⟩ := Prod.mk.inj hinquiry
  rw [← hcontract, ← hmsg] at hconclude
  exact ⟨before, hasked, hconclude⟩

/-- At every moment the pool is there, and its assets read like those of the pair. A chain goes on
to be coherent and to show what it has shown (`chain_run`). -/
theorem exists_moment {l : Ledger} {pair : Pair} (hcoherent : l.Coherent)
    (hshown : l.Shows (pair.assets, pair.contract)) {before : List Event}
    (hasked : (start l pair).AskedAfter before events query) :
    ∃ m : (start l pair).Moment events pair.contract query, m.before = before ∧
      ((start l pair).run m.before).chain.Coherent ∧
      m.pool.assets.toStrings = pair.assets.toStrings := by
  obtain ⟨hcoherent, hshown⟩ := chain_run
    (P := fun n => n.Coherent ∧ n.Shows (pair.assets, pair.contract)) (s := start l pair)
    (fun _ _ he h => ⟨h.1.effect he, he.shows h.2⟩) ⟨hcoherent, hshown⟩ before
  obtain ⟨p, hp, htexts⟩ := hcoherent.pool_of_shows hshown
  exact ⟨⟨before, hasked, p, hp⟩, rfl, hcoherent, htexts⟩

/-- Fees and supply are still the same at a later moment if no call at the pool is a deposit, a
withdrawal or a change of the fees: `steady_run`, over the events in between. -/
theorem Moment.steady {other : PairQuery} (m : s.Moment events contract query)
    (n : s.Moment events contract other) (hlater : m.before ++ [.ask query] <+: n.before)
    (hcalls : ∀ call, .call call ∈ events → call.resetsAt contract = false) :
    n.pool.fees = m.pool.fees ∧ n.pool.shares = m.pool.shares := by
  obtain ⟨rest, hrest⟩ := (List.prefix_append m.before [.ask query]).trans hlater
  have hthere := n.there
  rw [← hrest, run_append] at hthere
  refine steady_run (fun call hmem => hcalls call (n.asked.earlier.subset ?_)) m.there hthere
  rw [← hrest]
  exact List.mem_append_right m.before hmem

/-- A reading that is completed while its pool goes on gives a snapshot that is pieced together. The
worth was told last, so `Traced.last` puts the others before it. Where fees and supply are the same
then, the worth of the supply is that of the whole pool (`Backed.snapshot_eq`). -/
theorem pieces_of_complete {l : Ledger} {pair : Pair} (hcoherent : l.Coherent)
    (hshown : l.Shows (pair.assets, pair.contract)) {snapshot : Snapshot}
    (hdone : ((start l pair).run events).progress = .ok (.complete snapshot)) :
    (start l pair).Pieces events pair.contract snapshot := by
  obtain ⟨log, hhears, htraced⟩ := traced_run l pair events
  obtain ⟨-, ⟨config, hconfigTold, hfees⟩, hsupplyTold, -, earlier, reply, value, rfl, hvalue,
    hdeposits⟩ := hhears.gives rfl hdone
  -- the worth was told last, so fees and supply were told before it was asked for
  obtain ⟨_, hworthAsked, rfl, hearlier⟩ := htraced.last
  obtain ⟨_, hfeesAsked, hconfig⟩ :=
    hearlier.asked_of_told (hconfigTold.of_append (by rintro ⟨⟩)) rfl
  obtain ⟨_, hsupplyAsked, hsupply⟩ :=
    hearlier.asked_of_told (hsupplyTold.of_append (by rintro ⟨⟩)) rfl
  obtain ⟨atFees, rfl, hatFees, -⟩ :=
    exists_moment hcoherent hshown (hfeesAsked.longer hworthAsked.earlier)
  obtain ⟨atSupply, rfl, hatSupply, -⟩ :=
    exists_moment hcoherent hshown (hsupplyAsked.longer hworthAsked.earlier)
  obtain ⟨atWorth, rfl, hatWorth, htexts⟩ := exists_moment hcoherent hshown hworthAsked
  have hfeesEq : snapshot.fees = atFees.pool.fees := by
    have hfees' := hatFees.fees_of_asked atFees.there hconfig
    rw [hfees, Except.ok.injEq] at hfees'
    exact hfees'
  have hsharesEq := hatSupply.shares_of_asked atSupply.there hsupply
  have hworth : atWorth.pool.worth snapshot.shares = .ok snapshot.deposits := by
    obtain ⟨amounts, hworth, rfl⟩ :=
      hatWorth.worth_of_asked atWorth.there hshown.1 htexts hvalue
    have halign : Pair.align pair.assets pair.contract (Coin.forPair pair.assets amounts) =
        .ok snapshot.deposits := hdeposits
    rw [Pair.align, Coin.align?_forPair, Except.ok.injEq] at halign
    rw [hworth, halign]
  have hsame (hfees : atFees.pool.fees = atWorth.pool.fees)
      (hshares : atSupply.pool.shares = atWorth.pool.shares) : snapshot = atWorth.pool.snapshot :=
    (hatWorth.backed _ _ atWorth.there).snapshot_eq hworth (hfeesEq.trans hfees)
      (hsharesEq.trans hshares)
  refine ⟨atFees, atSupply, atWorth, ⟨hfeesAsked.next, hsupplyAsked.next⟩, hfeesEq, hsharesEq,
    hworth, hsame, fun hcalls => ?_⟩
  obtain ⟨hfees, -⟩ := atFees.steady atWorth hfeesAsked.next hcalls
  obtain ⟨-, hshares⟩ := atSupply.steady atWorth hsupplyAsked.next hcalls
  exact hsame hfees.symm hshares.symm

end Run

/-- However a market of valid settings and its chain have come about, and whatever is called on the
chain while a known pair is read again: a reading that is completed gives a snapshot that is pieced
together. What the market knows is shown by its chain (`Informed.shows`), and `pieces_of_complete`
needs no more. -/
theorem run_pieced {settings : Settings} (hsettings : settings.check = .ok ()) (router : Addr)
    (history : List Watch.Event) {key : PairKey} {known : Loaded}
    (hknown : ((Watch.new settings router).run history).tasks.market.registry.get? key = some known)
    (events : List Event) {snapshot : Snapshot}
    (hdone : ((start ((Watch.new settings router).run history).chain known.pair).run
      events).progress = .ok (.complete snapshot)) :
    (start ((Watch.new settings router).run history).chain known.pair).Pieces events
      known.pair.contract snapshot := by
  have hinformed :=
    (Watch.informed_new (Settings.pageSize_of_check hsettings) router).run history
  exact pieces_of_complete hinformed.coherent (hinformed.shows hknown) hdone

/-! ### A pool that is read while it goes on -/

namespace Sample

open Watch.Sample
open Deployment (router settings)

/-- A pool is listed and filled, and a market learns of it. -/
def history : List Watch.Event :=
  [.call (.addPair contract assets .zero), .call (.deposit contract reserves), .start] ++
    ([.page none, .page (some assets.toStrings), .pool contract .config,
      .pool contract .totalShares, .pool contract .denoms,
      .pool contract (.shareValue (.ofUInt32 6000))].map fun question =>
        .ask 0 (.ofList []) question)

/-- The pair as the market has learnt of it. -/
def known : Loaded :=
  ⟨0, { contract, assets, name := "ukuji-cw20/token"
        snapshot := ⟨reserves, .ofUInt32 6000, .zero⟩ }⟩

/-- The pair is to be read again. -/
def reading : Rereading := start ((Watch.new settings router).run history).chain known.pair

/-- A deposit that mints 1500 shares comes between the two rounds of the reading. -/
def events : List Event :=
  [.ask .config, .ask .totalShares, .call (.deposit contract ⟨.ofUInt32 1000, .ofUInt32 9000⟩),
    .ask (.shareValue (.ofUInt32 6000))]

/-- What 6000 of the 7500 shares are worth then. -/
def torn : Snapshot := ⟨⟨.ofUInt32 4000, .ofUInt32 14400⟩, .ofUInt32 6000, .zero⟩

theorem get?_known :
    ((Watch.new settings router).run history).tasks.market.registry.get? assets.key =
      some known := by
  decide +kernel

theorem progress_torn : (reading.run events).progress = .ok (.complete torn) := by decide +kernel

theorem pieced_torn :
    settings.check = .ok () ∧
      ((Watch.new settings router).run history).tasks.market.registry.get? assets.key =
        some known ∧
      (reading.run events).progress = .ok (.complete torn) ∧
      reading.Pieces events contract torn :=
  ⟨rfl, get?_known, progress_torn, run_pieced rfl router history get?_known events progress_torn⟩

/-- The pool never had these reserves, with this supply. All beginnings of the run are listed
(`List.inits`) and looked at. -/
theorem torn_of_no_moment :
    ((Watch.new settings router).run history).tasks.market.registry.get? assets.key =
        some known ∧
      (reading.run events).progress = .ok (.complete torn) ∧
      ¬ ∃ before, before <+: events ∧
        (reading.run before).chain.pools[contract]?.map Pool.snapshot = some torn := by
  refine ⟨get?_known, progress_torn, ?_⟩
  rintro ⟨before, hbefore, hsnapshot⟩
  have hnever : ∀ before ∈ events.inits,
      (reading.run before).chain.pools[contract]?.map Pool.snapshot ≠ some torn := by
    decide +kernel
  exact hnever before ((List.mem_inits before events).2 hbefore) hsnapshot

end Sample

end Rereading

end PoolMarket
