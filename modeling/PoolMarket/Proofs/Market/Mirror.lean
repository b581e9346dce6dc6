import PoolMarket.Proofs.Market.Idle
import PoolMarket.Proofs.Market.Settling

/-!
# A refresh mirrors the chain

A refresh that has the chain to itself goes through the whole listing, reads what it knows again and
loads what it does not, and leaves a registry of exactly the listed pairs, each as its pool is. Once
more changes nothing.

* `Registry.Reflects` — what is to hold of each listed pair in the end.
* `Passed` — the invariant on the way: the pairs gone through are reflected. `Passed.updated` and
  `Passed.delivered` are its steps, for a pair known before and for one that was not.
* `settled_advance`, `settled_listing` — the inductions, over the listings and over the pages.
* `Carries` — what a refresh carries through beside that. Both runs are one proof: the first carries
  nothing, the second that nothing has changed (`carries_unchanged`).
-/

namespace PoolMarket

open Chain (Ledger Pool)

/-! ## What a registry shows of a chain -/

/-- A listed pair is registered as its pool is. -/
def Registry.Reflects (g : Registry) (l : Ledger) (e : DenomPair × Addr) : Prop :=
  ∃ known p, g.get? e.1.key = some known ∧ (known.pair.assets, known.pair.contract) = e ∧
    l.pools[e.2]? = some p ∧ known.pair.snapshot = p.snapshot

/-- The market shows exactly the listed pairs, with their contracts and in the order of their
assets, each as its pool is. -/
structure Market.Mirrors (m : Market) (l : Ledger) : Prop where
  registered : ∀ key, (m.registry.get? key).map (fun known =>
    (known.pair.assets, known.pair.contract)) = l.listing[key]?
  snapshots : ∀ key known, m.registry.get? key = some known →
    ∃ p, l.pools[known.pair.contract]? = some p ∧ known.pair.snapshot = p.snapshot

/-- Nothing that can be seen of a market has changed. -/
structure Market.Unchanged (m n : Market) : Prop where
  rest : n = { m with registry := n.registry }
  names : n.registry.byName = m.registry.byName
  pairs : n.registry.byKey.Equiv m.registry.byKey

section Reflects

variable {g : Registry} {l : Ledger} {e d : DenomPair × Addr} {known : Loaded} {p : Pool}

/-- A pair that was read again shows its pool, by the snapshot that it is given
(`Registry.get?_update`). -/
theorem Registry.reflects_update (hknown : g.get? e.1.key = some known)
    (hlisted : (known.pair.assets, known.pair.contract) = e) (hp : l.pools[e.2]? = some p) :
    (g.update e.1.key known p.snapshot).Reflects l e := by
  refine ⟨{ known with pair := { known.pair with snapshot := p.snapshot } }, p, ?_, hlisted, hp,
    rfl⟩
  rw [Registry.get?_update, hknown, Option.map_some, if_pos ⟨rfl, rfl⟩]

/-- The other pairs show theirs still: `Registry.get?_update`, at another key. -/
theorem Registry.Reflects.update (h : g.Reflects l d) (hne : d.1.key ≠ e.1.key) (known : Loaded)
    (snapshot : Snapshot) : (g.update e.1.key known snapshot).Reflects l d := by
  obtain ⟨own, q, hown, hrest⟩ := h
  refine ⟨own, q, ?_, hrest⟩
  rw [Registry.get?_update, hown, Option.map_some, if_neg fun hkey => hne hkey.1]

/-- What is reflected is listed, as the market knows nothing else (`Market.Follows`). -/
theorem Registry.Reflects.lists {m : Market} (h : m.registry.Reflects l d)
    (hfollows : m.Follows l) : l.Lists d := by
  obtain ⟨own, p, hown, heq, -⟩ := h
  have hlisted : l.Lists (own.pair.assets, own.pair.contract) :=
    hfollows.registered d.1.key own hown
  rwa [heq] at hlisted

end Reflects

/-- Once all listed pairs are reflected, the market mirrors the chain. It has no other pairs, since
what it knows is listed, and a listing is found by its key (`Reflects`, `Follows`). -/
theorem Market.Idle.mirrors {m : Market} {l : Ledger} (hm : m.Idle) (hfollows : m.Follows l)
    (hl : l.Coherent) (hreflects : ∀ e, l.Lists e → m.registry.Reflects l e) : m.Mirrors l := by
  constructor
  · intro key
    cases hknown : m.registry.get? key with
    | some known =>
      have hlisted : l.listing[known.pair.assets.key]? = _ := hfollows.registered key known hknown
      rw [hm.consistent.keyed key known hknown] at hlisted
      rw [Option.map_some, hlisted]
    | none =>
      cases hlisted : l.listing[key]? with
      | none => rfl
      | some e =>
        -- a listed key is registered
        obtain ⟨rfl, -⟩ := hl.listed key e.1 e.2 hlisted
        obtain ⟨known, -, hsome, -⟩ := hreflects e hlisted
        rw [hknown] at hsome
        cases hsome
  · intro key known hknown
    have hlisted := hfollows.registered key known hknown
    obtain ⟨own, p, hown, -, hp, hsnapshot⟩ := hreflects _ hlisted
    rw [show (known.pair.assets, known.pair.contract).1.key = key from
      hm.consistent.keyed key known hknown, hknown, Option.some.injEq] at hown
    exact ⟨p, hp, hown ▸ hsnapshot⟩

/-! ## Nothing changes

Two registries that hold the same are told apart by nothing, but need not be the same tree. So
`Unchanged` asks for equivalent trees, which is all that `updated` can keep. -/

namespace Market.Unchanged

variable {m n : Market} {l : Ledger}

theorem refl (m : Market) : m.Unchanged m := ⟨rfl, rfl, .rfl⟩

theorem get?_eq (h : m.Unchanged n) (key : PairKey) :
    n.registry.get? key = m.registry.get? key :=
  h.pairs.getElem?_eq

/-- A pair that is read again as it is known stays as it is: by `Registry.get?_update` every key has
what it had. -/
theorem updated (h : m.Unchanged n) {key : PairKey} {known : Loaded}
    (hknown : n.registry.get? key = some known) :
    m.Unchanged (n.updated key known known.pair.snapshot) := by
  refine ⟨?_, ?_, ?_⟩
  · unfold Market.updated
    generalize n.registry.update key known known.pair.snapshot = g
    rw [h.rest]
  · rw [← h.names]
    show (n.registry.update key known known.pair.snapshot).byName = _
    unfold Registry.update Registry.record
    rw [hknown]
    split <;> rfl
  · -- the pair that is rewritten gets the snapshot it had
    refine Std.TreeMap.Equiv.trans (.of_forall_constGet?_eq fun k => ?_) h.pairs
    show (n.registry.update key known known.pair.snapshot).get? k = n.registry.get? k
    rw [Registry.get?_update]
    cases hk : n.registry.get? k with
    | none => rfl
    | some q =>
      rw [Option.map_some]
      split
      · next hsame =>
        rw [hsame.1, hknown, Option.some.injEq] at hk
        rw [hk]
      · rfl

end Market.Unchanged

/-! ## A pair that is read again, and one that is loaded

Delivering is filling the cell and registering, so what the two do to a market is known
(`Knows.fill`, `Knows.arrive`, `registry_deliver`), and is put together here. -/

namespace Market

variable {m : Market} {l : Ledger} {d : DenomPair × Addr}

section Deliver

variable {i : Nat} {pair : Pair}

/-- A pair that is delivered brings what is known of it, by its cell and by the registry
(`Knows.fill`, `Knows.arrive`). -/
theorem Knows.deliver {factory : Addr} {P : DenomPair × Addr → Prop} (h : m.Knows factory P)
    (hpair : P (pair.assets, pair.contract)) :
    (m.deliver i pair.assets.key pair).Knows factory P :=
  (h.fill pair hpair i).arrive (p := ⟨m.loaded.length, pair⟩) hpair i pair.assets.key

/-- A pair that is delivered under a free key is registered as it was loaded
(`registry_deliver`). -/
theorem reflects_deliver (hnone : m.registry.get? pair.assets.key = none) {p : Pool}
    (hp : l.pools[pair.contract]? = some p) (hsnapshot : pair.snapshot = p.snapshot) :
    (m.deliver i pair.assets.key pair).registry.Reflects l (pair.assets, pair.contract) := by
  refine ⟨⟨m.loaded.length, pair⟩, p, ?_, rfl, hp, hsnapshot⟩
  rw [registry_deliver m i pair _ hnone, if_pos rfl]

/-- The others are registered as they were, since the key was free (`registry_deliver`). -/
theorem reflects_deliver_of_reflects (hnone : m.registry.get? pair.assets.key = none)
    (h : m.registry.Reflects l d) :
    (m.deliver i pair.assets.key pair).registry.Reflects l d := by
  obtain ⟨known, p, hknown, hrest⟩ := h
  refine ⟨known, p, ?_, hrest⟩
  rw [registry_deliver m i pair _ hnone, if_neg, hknown]
  intro hkey
  rw [hkey, hknown] at hnone
  cases hnone

end Deliver

end Market

/-! ## Going through the listings

Each listing is read and gone past. What comes next is a hypothesis of `settled_updating` and of
`settled_loading`, so that the induction over the listings is in one place, `settled_advance`. -/

namespace Watch

section Phases

variable {task : Nat} {P : Watch → Prop} {Q : Market → Prop} {l : Ledger} {n : Ledger} {m : Market}
  {r : Refresh} {e : DenomPair × Addr} {rest : List (DenomPair × Addr)} {p : Pool}

/-- A known pair is read again: `settled_reading`, with the stage that updates, and the snapshot of
the pool as the outcome. -/
theorem settled_updating (hl : l.Ready) {known : Loaded}
    (hlisted : (known.pair.assets, known.pair.contract) = e) (hp : l.pools[e.2]? = some p)
    (hassets : p.assets = e.1)
    (hnext : ∀ n r', l.Still n → r'.found = r.found →
      Settled task P n ((m.updated e.1.key known p.snapshot).advance r' rest).1
        ((m.updated e.1.key known p.snapshot).advance r' rest).2)
    (hn : l.Still n) :
    Settled task P n m
      { r with todo := rest, stage := .updating e.1.key known (.again known.pair) } := by
  subst hlisted
  refine settled_reading (r := { r with todo := rest })
    (fun s => .updating known.pair.assets.key known s) hl hp (fun s => rfl) ?_ ?_ hn
    (.again hassets.symm)
  · intro s t query reply tokens hreceive
    unfold Market.receive
    simp only [hreceive]
  · intro n s query reply tokens hn _ hreceive
    unfold Market.receive
    simp only [hreceive]
    exact hnext n _ hn rfl

/-- An unknown pair is loaded into a cell that the refresh has taken. The same with the stage that
loads; what is delivered has the assets and the snapshot of the pool (`settled_reading`,
`receive_loaded`). -/
theorem settled_loading (hl : l.Ready) {i : Nat} (hnone : m.registry.get? e.1.key = none)
    (hp : l.pools[e.2]? = some p) (hassets : p.assets = e.1)
    (hnext : ∀ n r' pair, l.Still n → (pair.assets, pair.contract) = e →
      pair.snapshot = p.snapshot → r'.found = r.found →
      Settled task P n ((m.deliver i pair.assets.key pair).advance r' rest).1
        ((m.deliver i pair.assets.key pair).advance r' rest).2)
    (hn : l.Still n) :
    Settled task P n m { r with todo := rest, stage := .loading i (.first e.2 e.1) } := by
  rw [← hassets]
  refine settled_reading (r := { r with todo := rest }) (fun s => .loading i s) hl hp
    (fun s => rfl) ?_ ?_ hn (.first e.2 p)
  · intro s t query reply tokens hreceive
    unfold Market.receive
    simp only [hreceive]
  · intro n s query reply tokens hn hofPool hreceive
    have hkey : s.assets = e.1 := hofPool.assets.trans hassets
    have hnone : m.registry.get? (Market.loadedPair tokens s p.snapshot).assets.key = none := by
      rw [show (Market.loadedPair tokens s p.snapshot).assets = e.1 from hkey, hnone]
    -- the refresh goes on behind a pair that is delivered
    rw [Market.receive_loaded tokens s.contract rfl hreceive hnone]
    exact hnext n _ _ hn (Prod.ext hkey hofPool.contract) rfl rfl

/-- A property of markets that a refresh carries through: reading a known pair again keeps it, and
where it holds there is no unknown pair, or it does not matter what is loaded. -/
structure Carries (Q : Market → Prop) (l : Ledger) : Prop where
  updated : ∀ (m : Market) (e : DenomPair × Addr) (known : Loaded) (p : Pool), Q m → l.Lists e →
    m.registry.get? e.1.key = some known → l.pools[e.2]? = some p →
    Q (m.updated e.1.key known p.snapshot)
  loaded : ∀ (m n : Market) (e : DenomPair × Addr), Q m → l.Lists e →
    m.registry.get? e.1.key = none → Q n

/-- What holds once a refresh has ended: all that is listed is reflected. -/
def EndsWith (task : Nat) (P : Watch → Prop) (Q : Market → Prop) (l : Ledger) : Prop :=
  ∀ (n : Ledger) (m : Market) (r : Refresh) (refreshes : List Refresh), l.Still n → m.Idle →
    m.Follows l → (∀ e, l.Lists e → m.registry.Reflects l e) → Q m →
    refreshes[task]? = some r → r.result? = some (.ok l.listing.size) → P ⟨n, m, refreshes⟩

/-- Where a refresh is that has gone through some of the listings: those are reflected. No cell
is busy, and the chain has stood still, so the pools are as they were when the first of them was
read. -/
structure Passed (Q : Market → Prop) (l : Ledger) (done : List (DenomPair × Addr)) (n : Ledger)
    (m : Market) (r : Refresh) : Prop where
  still : l.Still n
  idle : m.Idle
  follows : m.Follows l
  carried : Q m
  found : r.found.length = l.listing.size
  reflected : ∀ d ∈ done, m.registry.Reflects l d

/-- What is known under the key of a listing is the listed pair, as keys are listed once
(`Lists.unique`). -/
theorem Passed.known_eq {done : List (DenomPair × Addr)} {known : Loaded}
    (h : Passed Q l done n m r) (he : l.Lists e)
    (hknown : m.registry.get? e.1.key = some known) :
    (known.pair.assets, known.pair.contract) = e :=
  Chain.Ledger.Lists.unique (h.follows.registered _ known hknown) he
    (h.idle.consistent.keyed _ known hknown)

/-- A known pair has been read again, so it is reflected (`Registry.reflects_update`) and the others
still are (`Reflects.update`). -/
theorem Passed.updated {done : List (DenomPair × Addr)} {n' : Ledger} {r' : Refresh}
    {known : Loaded} (h : Passed Q l done n m r) (hQ : Carries Q l) (he : l.Lists e)
    (hknown : m.registry.get? e.1.key = some known) (hp : l.pools[e.2]? = some p)
    (hn : l.Still n') (hr : r'.found = r.found) :
    Passed Q l (done ++ [e]) n' (m.updated e.1.key known p.snapshot) r' := by
  have hnew := Registry.reflects_update hknown (h.known_eq he hknown) hp
  refine ⟨hn, h.idle.updated .., h.follows.updated ..,
    hQ.updated m e known p h.carried he hknown hp, hr ▸ h.found, fun d hd => ?_⟩
  rcases List.mem_append.1 hd with hd | hd
  · by_cases hkey : d.1.key = e.1.key
    · have hsame : d = e := ((h.reflected d hd).lists h.follows).unique he hkey
      rw [hsame]
      exact hnew
    · exact (h.reflected d hd).update hkey known p.snapshot
  · rw [List.mem_singleton.1 hd]
    exact hnew

/-- An unknown pair has been loaded into the cell of its key, and delivered. Its key was free, so
the others are reflected still (`Market.reflects_deliver_of_reflects`). -/
theorem Passed.delivered {done : List (DenomPair × Addr)} {n' : Ledger} {r' : Refresh} {pair : Pair}
    (h : Passed Q l done n m r) (hQ : Carries Q l) (he : l.Lists (pair.assets, pair.contract))
    (hnone : m.registry.get? pair.assets.key = none) (hp : l.pools[pair.contract]? = some p)
    (hsnapshot : pair.snapshot = p.snapshot) (hn : l.Still n') (hr : r'.found = r.found) :
    Passed Q l (done ++ [(pair.assets, pair.contract)]) n'
      (((m.join pair.assets.key).1.occupy (m.join pair.assets.key).2).deliver
        (m.join pair.assets.key).2 pair.assets.key pair) r' := by
  obtain ⟨-, -, htaken⟩ := h.idle.take hnone
  have hregistry := Market.registry_take m pair.assets.key (m.join pair.assets.key).2
  have hfollows := (h.follows.join pair.assets.key).setBusy (m.join pair.assets.key).2 true
  have hnone' : ((m.join pair.assets.key).1.occupy
      (m.join pair.assets.key).2).registry.get? pair.assets.key = none := by
    rw [hregistry, hnone]
  refine ⟨hn, htaken.deliver, hfollows.deliver he, hQ.loaded m _ _ h.carried he hnone,
    hr ▸ h.found, fun d hd => ?_⟩
  rcases List.mem_append.1 hd with hd | hd
  · refine Market.reflects_deliver_of_reflects hnone' ?_
    rw [hregistry]
    exact h.reflected d hd
  · rw [List.mem_singleton.1 hd]
    exact Market.reflects_deliver hnone' hp hsnapshot

/-- A refresh that has gone through some of the listings goes through the rest. By induction on the
listings that are left; each is read again or loaded, and is then one that it has `Passed`. -/
theorem settled_advance (hl : l.Ready) (hQ : Carries Q l) (hP : EndsWith task P Q l)
    {done todo : List (DenomPair × Addr)} (hentries : l.entries = done ++ todo)
    (h : Passed Q l done n m r) :
    Settled task P n (m.advance r todo).1 (m.advance r todo).2 := by
  -- on what is left to visit; what was visited is settled already
  induction todo generalizing done n m r with
  | nil =>
    rw [Market.advance]
    refine settled_of_finished rfl fun refreshes hr => ?_
    refine hP n m _ refreshes h.still h.idle h.follows (fun e he => ?_) h.carried hr ?_
    · refine h.reflected e ?_
      rwa [← List.append_nil done, ← hentries, hl.coherent.mem_entries]
    · rw [← h.found]
      rfl
  | cons e rest ih =>
    have he : l.Lists e := by
      rw [← hl.coherent.mem_entries, hentries]
      exact List.mem_append_right _ List.mem_cons_self
    obtain ⟨-, p, hp, hassets⟩ := hl.coherent.listed e.1.key e.1 e.2 he
    have hentries' : l.entries = (done ++ [e]) ++ rest := by
      rw [hentries, List.append_assoc]
      rfl
    rw [Market.advance]
    cases hknown : m.registry.get? e.1.key with
    | some known =>
      have hlisted := h.known_eq he hknown
      refine settled_updating hl hlisted hp hassets (fun n' r' hn hr => ?_) h.still
      exact ih hentries' (h.updated hQ he hknown hp hn hr)
    | none =>
      obtain ⟨hempty, hfree, -⟩ := h.idle.take hknown
      simp only [hempty, hfree]
      refine settled_loading hl (by rw [Market.registry_take, hknown]) hp hassets
        (fun n' r' pair hn hpair hsnapshot hr => ?_) h.still
      subst hpair
      exact ih hentries' (h.delivered hQ he hknown hp hsnapshot hn hr)

/-- A page that is asked for behind what has been found comes, and the next one is asked for behind
it, or the refresh goes through what it has found. The chain answers as `Coherent.conclude_page`
says, and its listings are read as they were sent (`Ledger.receivePage_sent`). -/
theorem receive_page (hl : l.Ready) (hfollows : m.Follows l) (tokens : TokenDirectory)
    (hentries : l.entries = r.found ++ rest)
    (hstage : r.stage = .listing (Ledger.lastPair r.found)) :
    m.receive tokens r (.page (Ledger.lastPair r.found))
        (l.answer m.factory (m.message (.page (Ledger.lastPair r.found)))) =
      match (rest.take (Ledger.pageLength (some m.pageSize))).getLast? with
      | some last =>
        (m, { r with found := r.found ++ rest.take (Ledger.pageLength (some m.pageSize))
                     stage := .listing (some last.1.toStrings) })
      | none => m.advance r r.found := by
  have htaken : l.factory ∉ l.failing := hl.answering l.factory (by simp [Ledger.taken])
  have hvalid := hl.coherent.validated_entries hl.validated
  have hordered := hl.coherent.ordered_entries
  rw [hentries] at hvalid hordered
  have hcursor := Ledger.cursor_lastPair fun e he => hvalid e (List.mem_append_left rest he)
  have hpage := hl.coherent.conclude_page htaken hcursor m.pageSize
  rw [hentries, Ledger.behind_lastKey hordered, ← hfollows.factory] at hpage
  have hread : ∀ e ∈ rest.take (Ledger.pageLength (some m.pageSize)), e.1.Validated :=
    fun e he => hvalid e (List.mem_append_right r.found (List.mem_of_mem_take he))
  unfold Market.receive
  simp only [hstage]
  exact Ledger.receivePage_sent hread hpage

/-- A refresh that reads the listing comes to its end. The induction is on how much of the listing
is left, which every page but an empty one makes less (`receive_page`); behind an empty one
`settled_advance` takes over. -/
theorem settled_listing (hl : l.Ready) (hQ : Carries Q l) (hP : EndsWith task P Q l) (hm : m.Idle)
    (hfollows : m.Follows l) (hq : Q m) (hn : l.Still n) (hentries : l.entries = r.found ++ rest)
    (hstage : r.stage = .listing (Ledger.lastPair r.found)) :
    Settled task P n m r := by
  have hfull : 0 < Ledger.pageLength (some m.pageSize) := by
    have hpaged : m.pageSize.toNat ≠ 0 := fun h => hfollows.paged (UInt32.toNat_inj.1 h)
    show 0 < min m.pageSize.toNat 100
    omega
  generalize hleft : rest.length = left
  induction left using Nat.strongRecOn generalizing n r rest with
  | ind left ih =>
    have hquestions : Market.questions r =
        [.page (Ledger.lastPair r.found)] := by
      rw [Market.questions, hstage]
    refine settled_of_replies (by rw [hquestions]; exact List.cons_ne_nil _ _) ?_
    intro question hasked tokens
    rw [hquestions, List.mem_singleton] at hasked
    subst hasked
    have hcount := hn.count m.factory
    have hfollows' : m.Follows n := by
      rw [Market.Follows, hn.factory]
      refine hfollows.mono fun e he => ?_
      rw [Ledger.Lists, hn.listing]
      exact he
    have hentries' : n.entries = r.found ++ rest := by
      rw [Ledger.entries, hn.listing]
      exact hentries
    have hreceive := receive_page (hl.still hn) hfollows' tokens hentries' hstage
    rw [show m.addressee (.page (Ledger.lastPair r.found)) = m.factory from rfl,
      hreceive]
    cases hlast : (rest.take (Ledger.pageLength (some m.pageSize))).getLast? with
    | none =>
      -- the page is empty, so all has been found
      have hrest : rest = [] := by
        rw [List.getLast?_eq_none_iff, List.take_eq_nil_iff] at hlast
        exact hlast.resolve_left (by omega)
      have hall : l.entries = [] ++ r.found := by rw [hentries, hrest, List.append_nil]; rfl
      have hfound : r.found.length = l.listing.size := by
        rw [← Ledger.length_entries, hall]
        rfl
      exact settled_advance hl hQ hP hall
        ⟨hcount, hm, hfollows, hq, hfound, List.forall_mem_nil _⟩
    | some last =>
      have hshorter : (rest.drop (Ledger.pageLength (some m.pageSize))).length < left := by
        have hsome : rest ≠ [] := by
          rintro rfl
          rw [List.take_nil] at hlast
          cases hlast
        have hlength := List.length_pos_iff.2 hsome
        rw [List.length_drop]
        omega
      refine ih _ hshorter hcount ?_ ?_ rfl
      · rw [hentries, List.append_assoc, List.take_append_drop]
      · rw [Ledger.lastPair, List.getLast?_append, hlast]
        rfl

end Phases

/-! ## A refresh, and the one behind it -/

/-- The result of a refresh, once there is one. -/
def result? (w : Watch) (task : Nat) : Option (Outcome Nat) :=
  w.tasks.refreshes[task]?.bind Refresh.result?

/-- A refresh that is started now, and that the chain and all others stand still for, succeeds with
the number of listed pairs whatever the order of the replies to it, and `P` holds then. -/
def Refreshes (w : Watch) (P : Watch → Prop) : Prop :=
  (w.step .start).Settles w.tasks.refreshes.length fun v =>
    v.result? w.tasks.refreshes.length = some (.ok w.chain.listing.size) ∧ P v

/-- A market with nothing under way is refreshed to where all that is listed is reflected. The
refresh starts by reading the listing from the beginning, so this is `settled_listing` with nothing
found. -/
theorem refreshes_of_idle {w : Watch} {P : Watch → Prop} {Q : Market → Prop} {l : Ledger}
    (hl : l.Ready) (hQ : Carries Q l) (hn : l.Still w.chain) (hm : w.tasks.market.Idle)
    (hfollows : w.tasks.market.Follows l) (hq : Q w.tasks.market)
    (hP : ∀ (n : Ledger) (m : Market) (refreshes : List Refresh), l.Still n → m.Idle →
      m.Follows l → (∀ e, l.Lists e → m.registry.Reflects l e) → Q m → P ⟨n, m, refreshes⟩) :
    w.Refreshes P := by
  have hall : l.entries = Refresh.start.found ++ l.entries := rfl
  refine settled_listing hl hQ ?_ hm hfollows hq hn hall rfl _ ?_
  · intro n m r refreshes hn' hm' hfollows' hreflects hq' hr hresult
    refine ⟨?_, hP n m refreshes hn' hm' hfollows' hreflects hq'⟩
    show refreshes[w.tasks.refreshes.length]?.bind Refresh.result? = _
    rw [hr, hn.listing]
    exact hresult
  · exact List.getElem?_concat_length

/-- A market that mirrors a chain stays as it is when what it knows is read again: each pool is as
it is known (`Unchanged.updated`), and there is no unknown pair. -/
theorem carries_unchanged {m : Market} {l : Ledger} (h : m.Mirrors l) :
    Carries m.Unchanged l := by
  constructor
  · intro n e known p hn he hknown hp
    have hregistered := h.registered e.1.key
    rw [hn.get?_eq] at hknown
    rw [hknown, show l.listing[e.1.key]? = some e from he, Option.map_some,
      Option.some.injEq] at hregistered
    obtain ⟨q, hq, hsnapshot⟩ := h.snapshots e.1.key known hknown
    -- a mirrored pair has the contract the chain lists, and its snapshot is the pool's
    rw [show known.pair.contract = e.2 from congrArg Prod.snd hregistered, hp,
      Option.some.injEq] at hq
    rw [hq, ← hsnapshot]
    exact hn.updated (by rw [hn.get?_eq, hknown])
  · intro n n' e hn he hnone
    have hregistered := h.registered e.1.key
    rw [hn.get?_eq] at hnone
    rw [hnone, show l.listing[e.1.key]? = some e from he] at hregistered
    cases hregistered

/-- A refresh mirrors the chain, and another one right behind it changes nothing. -/
def RefreshMirrors (w : Watch) : Prop :=
  w.Refreshes fun v => v.tasks.market.Mirrors w.chain ∧
    v.Refreshes fun u => v.tasks.market.Unchanged u.tasks.market

/-- Whatever has happened to a chain and to a market of valid settings that asks it, and however the
earlier refreshes of the market have ended: if all denoms on the chain are validated and no contract
is failing now, a refresh mirrors the chain. The state is sound and knows what is listed
(`Grounded.run`), and nothing is under way; then `refreshes_of_idle` is used twice. -/
theorem run_refreshMirrors {s : Settings} (hs : s.check = .ok ()) (router : Addr)
    (events : List Event)
    (hended : ∀ r ∈ ((new s router).run events).tasks.refreshes, r.result?.isSome = true)
    (hvalid : ((new s router).run events).chain.Validated)
    (hanswering : ((new s router).run events).chain.Answering) :
    ((new s router).run events).RefreshMirrors := by
  have hgrounded := (grounded_new (Settings.pageSize_of_check hs) router).run events
  generalize (new s router).run events = w at hended hvalid hanswering hgrounded ⊢
  have hl : w.chain.Ready := ⟨hgrounded.coherent, hvalid, hanswering⟩
  refine refreshes_of_idle (Q := fun _ => True) hl ⟨fun _ _ _ _ _ _ _ _ => trivial,
    fun _ _ _ _ _ _ => trivial⟩ (.refl w.chain) (hgrounded.sound.idle hended) (hgrounded.knows hvalid).market
    trivial ?_
  intro n m refreshes hn hm hfollows hreflects _
  have hmirrors := hm.mirrors hfollows hl.coherent hreflects
  refine ⟨hmirrors, ?_⟩
  exact refreshes_of_idle hl (carries_unchanged hmirrors) hn hm hfollows (.refl m)
    fun _ _ _ _ _ _ _ hunchanged => hunchanged

/-! ### A pool, and a refresh that fails -/

namespace Sample

open Deployment (factory router settings)

/-- The one pool of the chain. -/
def contract : Addr := ⟨"pair", by decide, by decide⟩

/-- A native coin and a token. -/
def assets : DenomPair := ⟨.native "ukuji", .token ⟨"token", by decide, by decide⟩, by decide⟩

/-- What the pool is filled with. -/
def reserves : Both Amount := ⟨.ofUInt32 4000, .ofUInt32 9000⟩

/-- A pool is listed and filled. Then a refresh asks the factory while that is failing. -/
def events : List Event :=
  [.call (.addPair contract assets .zero), .call (.deposit contract reserves),
    .call (.setFailing factory true), .start, .ask 0 (.ofList []) (.page none),
    .call (.setFailing factory false)]

set_option maxRecDepth 4000 in
theorem refreshMirrors_after_failure :
    ((new settings router).run events).result? 0 = some (.error (.query "sei1factory" .unavailable)) ∧
      ((new settings router).run events).chain.pools.toList =
        [(contract, ⟨assets, reserves, .ofUInt32 6000, .zero⟩)] ∧
      ((new settings router).run events).RefreshMirrors := by
  have hpools : ((new settings router).run events).chain.pools.toList =
      [(contract, ⟨assets, reserves, .ofUInt32 6000, .zero⟩)] := by decide +kernel
  have hfailing : ((new settings router).run events).chain.failing.toList = [] := by
    decide +kernel
  refine ⟨rfl, hpools, run_refreshMirrors rfl router events ?_ ?_ ?_⟩
  · decide +kernel
  · intro c p hp
    rw [← Std.TreeMap.mem_toList_iff_getElem?_eq_some, hpools, List.mem_singleton] at hp
    cases hp
    exact ⟨⟨"ukuji", rfl⟩, ⟨"cw20/token", rfl⟩⟩
  · intro c _ hfails
    rw [← Std.TreeSet.mem_toList, hfailing] at hfails
    cases hfails

end Sample

end Watch

end PoolMarket
