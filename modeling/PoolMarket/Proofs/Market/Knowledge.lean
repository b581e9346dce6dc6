import PoolMarket.Proofs.Asset.Validated
import PoolMarket.Proofs.Market.Interleaving

/-!
# What a market knows

Pairs come into a market by way of the listings that its refreshes read, and nothing but a listing
names the contract of a pair. So what holds of all listings that are read holds of every pair and
contract that a market or one of its refreshes goes by.

* `Market.Knows`, `Refresh.Knows` — the property of all listings, over everything that a market and
  a refresh hold. It is a parameter: denoms that are validated, and listings of a chain, are
  instances.
* `Knows.advance`, `Knows.receive`, `Knows.wake` — a step keeps it, if what is read of a page has
  it.
* `Interleaving.Knows` — over a run; `Knows.hear` asks for the property of a page and of nothing
  else.
-/

namespace PoolMarket

/-- What a refresh in some stage goes by has a property. -/
def Refresh.Stage.Knows (P : DenomPair × Addr → Prop) : Refresh.Stage → Prop
  | .loading _ reading => P (reading.assets, reading.contract)
  | .queued _ assets contract => P (assets, contract)
  | _ => True

/-- What a refresh has found has a property. -/
structure Refresh.Knows (r : Refresh) (P : DenomPair × Addr → Prop) : Prop where
  found : ∀ e ∈ r.found, P e
  todo : ∀ e ∈ r.todo, P e
  stage : r.stage.Knows P

/-- A market of a factory can page through its listing, and what it knows has a property. -/
structure Market.Knows (m : Market) (factory : Addr) (P : DenomPair × Addr → Prop) : Prop where
  factory : m.factory = factory
  paged : m.pageSize ≠ 0
  registered : ∀ key p, m.registry.get? key = some p → P (p.pair.assets, p.pair.contract)
  loaded : ∀ i p, (m.cell i).result = some p → P (p.pair.assets, p.pair.contract)

/-- What a refresh knows has every weaker property. By the stage of the refresh, for
`Knows.mono`. -/
theorem Refresh.Knows.mono {P Q : DenomPair × Addr → Prop} {r : Refresh} (h : r.Knows P)
    (hPQ : ∀ e, P e → Q e) : r.Knows Q := by
  refine ⟨fun e he => hPQ e (h.found e he), fun e he => hPQ e (h.todo e he), ?_⟩
  have hstage := h.stage
  cases hr : r.stage with
  | loading i reading =>
    rw [hr] at hstage
    exact hPQ _ hstage
  | queued i assets contract =>
    rw [hr] at hstage
    exact hPQ _ hstage
  | listing | updating | finished => trivial

namespace Market

variable {P : DenomPair × Addr → Prop} {factory : Addr} {m : Market} {r : Refresh}

theorem Knows.mono {Q : DenomPair × Addr → Prop} (h : m.Knows factory P) (hPQ : ∀ e, P e → Q e) :
    m.Knows factory Q :=
  ⟨h.factory, h.paged, fun key p hp => hPQ _ (h.registered key p hp),
    fun i p hp => hPQ _ (h.loaded i p hp)⟩

/-- A market just set up knows nothing that could lack the property (`cell_of_size_le`). -/
theorem knows_ofSettings {s : Settings} (hpaged : s.pageSize ≠ 0) :
    (ofSettings s).Knows s.factory P where
  factory := rfl
  paged := hpaged
  registered key p hp := by
    rw [ofSettings, Registry.get?_empty] at hp
    cases hp
  loaded i p hp := by
    rw [cell_of_size_le (Nat.zero_le i)] at hp
    cases hp

/-! ## Operations on the market

A cell may hold a pair, so cells count among what a market knows. Joining and taking cells bring no
pair, and the others bring one of which the property is asked. -/

/-- Joining a load brings no pair (`cell_join`). -/
theorem Knows.join (h : m.Knows factory P) (key : PairKey) : (m.join key).1.Knows factory P := by
  have hloaded (i : Nat) (p : Loaded) (hp : ((m.join key).1.cell i).result = some p) :
      P (p.pair.assets, p.pair.contract) := by
    rw [cell_join] at hp
    exact h.loaded i p hp
  unfold Market.join at hloaded ⊢
  cases hflight : m.inFlight[key]? with
  | some i => exact h
  | none =>
    rw [hflight] at hloaded
    exact ⟨h.factory, h.paged, h.registered, hloaded⟩

/-- Neither does taking a cell or giving it back (`cell_setBusy`). -/
theorem Knows.setBusy (h : m.Knows factory P) (i : Nat) (busy : Bool) :
    (m.setCell i { m.cell i with busy }).Knows factory P :=
  ⟨h.factory, h.paged, h.registered, fun j p hp => h.loaded j p (by rwa [cell_setBusy] at hp)⟩

/-- A pair that is registered has the property, if it had it in its cell
(`Registry.get?_register`). -/
theorem Knows.arrive (h : m.Knows factory P) {p : Loaded} (hp : P (p.pair.assets, p.pair.contract))
    (i : Nat) (key : PairKey) : (m.arrive i key p).1.Knows factory P := by
  refine ⟨h.factory, h.paged, fun k q hq => ?_, h.loaded⟩
  have hget : (m.registry.register p).1.get? k = some q := hq
  rw [Registry.get?_register] at hget
  split at hget
  · cases hget
    exact hp
  · exact h.registered k q hget

/-- A pair that fills a cell brings what is known of it (`cell_setCell`). -/
theorem Knows.fill (h : m.Knows factory P) (pair : Pair) (hp : P (pair.assets, pair.contract))
    (i : Nat) : (m.fill i pair).1.Knows factory P := by
  refine ⟨h.factory, h.paged, h.registered, fun j q hq => ?_⟩
  have hcell : (m.fill i pair).1.cell j =
      (m.setCell i ⟨some ⟨m.loaded.length, pair⟩, false⟩).cell j := rfl
  rw [hcell] at hq
  by_cases hi : i < m.cells.size
  · rw [cell_setCell _ hi] at hq
    split at hq
    · cases hq
      exact hp
    · exact h.loaded j q hq
  · rw [setCell, Array.setIfInBounds, dif_neg hi] at hq
    exact h.loaded j q hq

/-- A snapshot is nothing that a listing tells, so another one changes nothing
(`Registry.get?_update`). -/
theorem Knows.updated (h : m.Knows factory P) (key : PairKey) (p : Loaded) (snapshot : Snapshot) :
    (m.updated key p snapshot).Knows factory P := by
  refine ⟨h.factory, h.paged, fun k q hq => ?_, h.loaded⟩
  rw [Market.updated, Registry.get?_update, Option.map_eq_some_iff] at hq
  obtain ⟨q, hq, rfl⟩ := hq
  split
  · exact h.registered k q hq
  · exact h.registered k q hq

/-! ## One step of a refresh

A refresh goes on from what it has found, and hands that on to the market: by way of a reading, or
of a cell. Each function by which it acts is followed once. -/

/-- Going through listings keeps to them. By induction on the listings, as `advance` goes past those
whose cells hold a pair already. -/
theorem Knows.advance (h : m.Knows factory P) (hfound : ∀ e ∈ r.found, P e)
    {todo : List (DenomPair × Addr)} (htodo : ∀ e ∈ todo, P e) :
    (m.advance r todo).1.Knows factory P ∧ (m.advance r todo).2.Knows P := by
  -- on what is left to visit, since a filled cell sends the refresh on at once
  induction todo generalizing m r with
  | nil =>
    rw [Market.advance]
    exact ⟨h, hfound, htodo, trivial⟩
  | cons e rest ih =>
    obtain ⟨assets, contract⟩ := e
    have hlisted := htodo (assets, contract) List.mem_cons_self
    have hrest : ∀ e ∈ rest, P e := fun e he => htodo e (List.mem_cons_of_mem _ he)
    rw [Market.advance]
    split
    · exact ⟨h, hfound, hrest, trivial⟩
    · have hjoin := h.join assets.key
      generalize m.join assets.key = joined at hjoin ⊢
      obtain ⟨n, i⟩ := joined
      simp only at hjoin ⊢
      cases hp : (n.cell i).result with
      | some p =>
        have harrive := hjoin.arrive (hjoin.loaded i p hp) i assets.key
        exact ih harrive (r := r.ensure assets.key _) hfound hrest
      | none =>
        cases (n.cell i).busy with
        | true => exact ⟨hjoin, hfound, hrest, hlisted⟩
        | false => exact ⟨hjoin.setBusy i true, hfound, hrest, hlisted⟩

/-- A pair out of a cell is registered, and the rest is `Knows.advance`. -/
theorem Knows.settle (h : m.Knows factory P) (hr : r.Knows P) {p : Loaded}
    (hp : P (p.pair.assets, p.pair.contract)) (i : Nat) (key : PairKey) :
    (m.settle r i key p).1.Knows factory P ∧ (m.settle r i key p).2.Knows P := by
  rw [settle_eq]
  exact (h.arrive hp i key).advance (r := r.ensure key _) hr.found hr.todo

/-- A reply adds no more to what is known than the listings that it is read as. By the cases of
`Received`; only a page brings anything, and a reading goes on to be of the same pool
(`Reading.samePool_of_receive`). -/
theorem Knows.receive (h : m.Knows factory P) (hr : r.Knows P) (tokens : TokenDirectory)
    (question : Question) (reply : Outcome Json)
    (hread : ∀ after page es, r.stage = .listing after →
      (Inquiry.page m.factory after m.pageSize).conclude reply = .ok page →
      readPage page = .ok es → ∀ e ∈ es, P e) :
    (m.receive tokens r question reply).1.Knows factory P ∧
      (m.receive tokens r question reply).2.Knows P := by
  have hreceived := m.received tokens r question reply
  generalize m.receive tokens r question reply = out at hreceived ⊢
  cases hreceived with
  | ignored => exact ⟨h, hr⟩
  | pageFailed | updateFailed | updating => exact ⟨h, hr.found, hr.todo, trivial⟩
  | @page after page es _ stage concluded read =>
    refine ⟨h, fun e he => ?_, hr.todo, trivial⟩
    rcases List.mem_append.1 he with he | he
    · exact hr.found e he
    · exact hread after page es stage concluded read e he
  | lastPage => exact h.advance hr.found hr.found
  | @updated key known _ _ _ _ _ =>
    exact (h.updated key known _).advance (r := r.ensure key known) hr.found hr.todo
  | @loadFailed i => exact ⟨h.setBusy i false, hr.found, hr.todo, trivial⟩
  | @loading _ reading reading' _ stage waits =>
    have hlisted := hr.stage
    rw [stage] at hlisted
    have hsame := Reading.samePool_of_receive waits
    refine ⟨h, hr.found, hr.todo, ?_⟩
    show P (reading'.assets, reading'.contract)
    rw [hsame.assets, hsame.contract]
    exact hlisted
  | @loaded i reading _ snapshot stage =>
    have hlisted := hr.stage
    rw [stage] at hlisted
    have hfill := h.fill (loadedPair tokens reading snapshot) hlisted i
    exact hfill.settle hr (p := ⟨m.loaded.length, loadedPair tokens reading snapshot⟩) hlisted i
      reading.assets.key

/-- Looking again at a cell keeps to what is in it and to the listing that is waited for:
`Knows.settle` and `Knows.setBusy`. -/
theorem Knows.wake (h : m.Knows factory P) (hr : r.Knows P) :
    (m.wake r).1.Knows factory P ∧ (m.wake r).2.Knows P := by
  unfold Market.wake
  split
  · next i assets contract hstage =>
    have hlisted := hr.stage
    rw [hstage] at hlisted
    split
    · next p hp => exact h.settle hr (h.loaded i p hp) i _
    · exact ⟨h, hr⟩
    · exact ⟨h.setBusy i true, hr.found, hr.todo, hlisted⟩
  · exact ⟨h, hr⟩

/-- What is read of a page are its listings, each pair from its two texts. By induction on the page.
Each is read by `DenomPair.ofStrings`. -/
theorem ofStrings_of_readPage {page : List Listing} {es : List (DenomPair × Addr)}
    (h : readPage page = .ok es) :
    ∀ e ∈ es, ∃ listing ∈ page, DenomPair.ofStrings listing.pair = .ok e.1 ∧
      listing.contract = e.2 := by
  induction page generalizing es with
  | nil =>
    cases h
    exact List.forall_mem_nil _
  | cons listing rest ih =>
    rw [readPage] at h
    simp only [Outcome.bind_eq_ok] at h
    obtain ⟨assets, hassets, more, hmore, heq⟩ := h
    cases heq
    intro e he
    rcases List.mem_cons.1 he with rfl | he
    · exact ⟨listing, List.mem_cons_self, hassets, rfl⟩
    · obtain ⟨other, hother, hread⟩ := ih hmore e he
      exact ⟨other, List.mem_cons_of_mem _ hother, hread⟩

/-- So their denoms are validated (`DenomPair.validated_of_ofStrings`). -/
theorem validated_of_readPage {page : List Listing} {es : List (DenomPair × Addr)}
    (h : readPage page = .ok es) : ∀ e ∈ es, e.1.Validated := by
  intro e he
  obtain ⟨_, -, hassets, -⟩ := ofStrings_of_readPage h e he
  exact DenomPair.validated_of_ofStrings hassets

end Market

/-! ## Every run

One refresh acts at a time, and what the others know does not change by it. -/

/-- What a market of a factory and its refreshes know has a property. -/
structure Interleaving.Knows (s : Interleaving) (factory : Addr) (P : DenomPair × Addr → Prop) :
    Prop where
  market : s.market.Knows factory P
  refreshes : ∀ r ∈ s.refreshes, r.Knows P

namespace Interleaving

variable {P : DenomPair × Addr → Prop} {factory : Addr} {s : Interleaving}

theorem Knows.mono {Q : DenomPair × Addr → Prop} (h : s.Knows factory P) (hPQ : ∀ e, P e → Q e) :
    s.Knows factory Q :=
  ⟨h.market.mono hPQ, fun r hr => (h.refreshes r hr).mono hPQ⟩

/-- A run begins with nothing known (`Market.knows_ofSettings`). -/
theorem knows_new {s : Settings} (hpaged : s.pageSize ≠ 0) : (new s).Knows s.factory P where
  market := Market.knows_ofSettings hpaged
  refreshes r hr := by cases hr

/-- A refresh that starts has found nothing yet. So only the market and the other refreshes have to
be looked at (`Refresh.start`). -/
theorem Knows.start (h : s.Knows factory P) : (s.step .start).Knows factory P := by
  refine ⟨h.market, fun r hr => ?_⟩
  rcases List.mem_append.1 hr with hr | hr
  · exact h.refreshes r hr
  · rw [List.mem_singleton.1 hr]
    exact ⟨List.forall_mem_nil _, List.forall_mem_nil _, trivial⟩

/-- One refresh acts while the others stand still. Every event about a refresh is put into
`Interleaving.Knows` by this. -/
theorem Knows.act (h : s.Knows factory P) (task : Nat) (f : Market → Refresh → Market × Refresh)
    (hf : ∀ r, r.Knows P → (f s.market r).1.Knows factory P ∧ (f s.market r).2.Knows P) :
    (s.act task f).Knows factory P := by
  unfold Interleaving.act
  cases htask : s.refreshes[task]? with
  | none => exact h
  | some r =>
    obtain ⟨hmarket, hrefresh⟩ := hf r (h.refreshes r (List.mem_of_getElem? htask))
    refine ⟨hmarket, fun t ht => ?_⟩
    rcases List.mem_or_eq_of_mem_set ht with ht | rfl
    · exact h.refreshes t ht
    · exact hrefresh

/-- A reply keeps to the property if whatever is read of a page does. Replies that are not waited
for go unheard, so the hypothesis is about the question that was asked (`Knows.receive`). -/
theorem Knows.hear (h : s.Knows factory P) (task : Nat) (tokens : TokenDirectory)
    (question : Question) (reply : Outcome Json)
    (hread : ∀ after page es, question = .page after →
      (Inquiry.page s.market.factory after s.market.pageSize).conclude reply = .ok page →
      Market.readPage page = .ok es → ∀ e ∈ es, P e) :
    (s.step (.reply task tokens question reply)).Knows factory P := by
  refine h.act task _ fun r hr => ?_
  unfold Interleaving.hear
  split
  · next hasked =>
    refine h.market.receive hr tokens question reply fun after page es hstage => ?_
    rw [Market.questions, hstage] at hasked
    exact hread after page es (List.mem_singleton.1 hasked)
  · exact ⟨h.market, hr⟩

theorem Knows.wake (h : s.Knows factory P) (task : Nat) :
    (s.step (.wake task)).Knows factory P :=
  h.act task _ fun _ hr => h.market.wake hr

/-- Whatever a refresh is replied, the denoms that it reads are validated (`validated_of_readPage`).
No hypothesis on the reply is needed. -/
theorem Knows.validated_step (h : s.Knows factory fun e => e.1.Validated) (e : Event) :
    (s.step e).Knows factory fun e => e.1.Validated := by
  cases e with
  | start => exact h.start
  | reply task tokens question reply =>
    exact h.hear task tokens question reply fun _ _ _ _ _ hes => Market.validated_of_readPage hes
  | wake task => exact h.wake task

end Interleaving

end PoolMarket
