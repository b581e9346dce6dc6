import PoolMarket.Chain.Answer
import PoolMarket.Proofs.Chain.Transactions

/-!
# What holds of every chain

From a new chain on, whatever is called and whether it succeeds: shares stand for reserves, and the
factory lists each pool once, under the key of its assets. `Effect` says once what a call can do to
the pools and the listing; the invariant `Coherent` is kept by each of its cases.

* `effect_execute` — the one place where the seven calls are told apart. Whatever else is invariant
  along a run is shown by the three cases of `Effect`.
* `Coherent.list`, `Coherent.change` — the two cases in which something happens.
* `Coherent.run` — the invariant after any number of calls, by induction on them.
-/

namespace PoolMarket.Chain.Ledger

/-! ## What a call can do

A call is either one transaction of a pool, a new pair, or a switch that only affects queries.
Those that fail leave everything but the query counts. Each of these is read off as a case of
`Effect`, with all that is known there about the pool before and after. -/

/-- What a call can leave of a chain: the pools and the listing as they were, a new pair, or one
pool that a transaction has changed. The last case keeps of the transaction what
`Pool.Transaction.Keeps` says of every one of them. -/
inductive Effect (l : Ledger) : Ledger → Prop where
  | still {n : Ledger} (factory : n.factory = l.factory) (router : n.router = l.router)
      (pools : n.pools = l.pools) (listing : n.listing = l.listing) : Effect l n
  | list (contract : Addr) (assets : DenomPair) (fees : Fees) (free : l.taken contract = false)
      (unlisted : l.listed assets = false) :
      Effect l { l with listing := l.listing.insert assets.key (assets, contract)
                        pools := l.pools.insert contract (.new assets fees) }
  | change (contract : Addr) {p q : Pool} (there : l.pools[contract]? = some p)
      (assets : q.assets = p.assets) (backed : p.Backed → q.Backed) :
      Effect l { l with pools := l.pools.insert contract q }

/-- The pool at an address is the one that is deployed there. It turns a look at `Ledger.pools` into
an equation. -/
theorem pool_eq_ok {l : Ledger} {contract : Addr} {p : Pool} :
    l.pool contract = .ok p ↔ l.pools[contract]? = some p := by
  unfold pool
  cases l.pools[contract]? <;> simp

/-- A pair is listed where its address is free and neither order of its assets is listed, and then
this is the chain. By the checks of `Ledger.addPair`, in their order. -/
theorem addPair_eq_ok {l n : Ledger} {contract : Addr} {assets : DenomPair} {fees : Fees} :
    l.addPair contract assets fees = .ok n ↔
      l.taken contract = false ∧ l.listed assets = false ∧
      n = { l with listing := l.listing.insert assets.key (assets, contract)
                   pools := l.pools.insert contract (.new assets fees) } := by
  unfold addPair
  cases l.taken contract
  · cases l.listed assets
    · simp [eq_comm]
    · simp
  · simp

/-- A transaction that succeeds changes its own pool and no other. It is how deposits, withdrawals
and swaps reach a pool, so `Ledger.transact` is opened here and for `transact_error` only. -/
theorem transact_eq_ok {α : Type} {l n : Ledger} {contract : Addr} {t : Pool.Transaction α}
    {a : α} :
    l.transact contract t = (.ok a, n) ↔
      ∃ p q, l.pools[contract]? = some p ∧ t.on p = (.ok a, q) ∧
        n = { l with pools := l.pools.insert contract q } := by
  unfold transact
  cases hpool : l.pool contract with
  | error fault =>
    constructor
    · intro h
      cases h
    · rintro ⟨p, q, hp, -⟩
      rw [pool_eq_ok.2 hp] at hpool
      cases hpool
  | ok p =>
    have hp := pool_eq_ok.1 hpool
    rcases ht : t.on p with ⟨fault | b, q⟩
    · -- the pool that a failed transaction leaves is dropped
      simp only [ht]
      constructor
      · intro h
        cases h
      · rintro ⟨p', q', hp', ht', -⟩
        rw [hp, Option.some.injEq] at hp'
        rw [← hp', ht] at ht'
        cases ht'
    · simp only [ht]
      constructor
      · intro h
        cases h
        exact ⟨p, q, hp, ht, rfl⟩
      · rintro ⟨p', q', hp', ht', rfl⟩
        rw [hp, Option.some.injEq] at hp'
        rw [← hp', ht] at ht'
        cases ht'
        rfl

/-- A transaction that fails has only worked on a copy, so the chain is the same. This is what makes
`execute_error` a case distinction and no more. -/
theorem transact_error {α : Type} {l n : Ledger} {contract : Addr} {t : Pool.Transaction α}
    {fault : Fault} (h : l.transact contract t = (.error fault, n)) : n = l := by
  unfold transact at h
  split at h
  · cases h
    rfl
  · split at h
    · cases h
    · cases h
      rfl

theorem Effect.refl (l : Ledger) : l.Effect l := .still rfl rfl rfl rfl

/-- A transaction of a pool changes that pool or nothing, if it keeps what all of them keep
(`transact_error`, `Effect.change`). -/
theorem effect_transact {α : Type} (l : Ledger) (contract : Addr) {t : Pool.Transaction α}
    (ht : t.Keeps) : l.Effect (l.transact contract t).2 := by
  rcases h : l.transact contract t with ⟨fault | a, n⟩
  · rw [transact_error h]
    exact .refl l
  · obtain ⟨p, q, hp, hon, rfl⟩ := transact_eq_ok.1 h
    obtain ⟨hassets, hbacked⟩ := ht p q a hon
    exact .change contract hp hassets hbacked

/-- Every call has one of the three effects: a transaction by the lemma for its kind
(`Pool.keeps_deposit` and so on), a new pair, or a switch. -/
theorem effect_execute (l : Ledger) (call : Call) : l.Effect (l.execute call).2 := by
  cases call with
  | addPair contract assets fees =>
    cases h : l.addPair contract assets fees with
    | error fault =>
      rw [execute, h]
      exact .refl l
    | ok n =>
      rw [execute, h]
      obtain ⟨hfree, hunlisted, rfl⟩ := addPair_eq_ok.1 h
      exact .list contract assets fees hfree hunlisted
  | deposit contract amounts => exact effect_transact l contract (Pool.keeps_deposit amounts)
  | withdraw contract shares => exact effect_transact l contract (Pool.keeps_withdraw shares)
  | swap contract offer => exact effect_transact l contract (Pool.keeps_swap offer)
  | setFees contract fees => exact effect_transact l contract (Pool.keeps_setFees fees)
  | setFailing contract failing => exact .still rfl rfl rfl rfl
  | query contract msg => exact .still rfl rfl rfl rfl

/-- A call that fails leaves every pool and the listing as they were. The switch cannot fail, and
the others only take effect with their success (`transact_error`). -/
theorem execute_error {l : Ledger} {call : Call} {fault : Fault}
    (h : (l.execute call).1 = .error fault) :
    (l.execute call).2.pools = l.pools ∧ (l.execute call).2.listing = l.listing := by
  -- deposits, withdrawals, swaps and fees all go through the same transaction
  have htransact {α : Type} (contract : Addr) (t : Pool.Transaction α)
      (h : (l.transact contract t).1 = .error fault) :
      (l.transact contract t).2.pools = l.pools ∧
        (l.transact contract t).2.listing = l.listing := by
    rcases ht : l.transact contract t with ⟨r, n⟩
    rw [ht] at h
    obtain rfl : r = .error fault := h
    rw [transact_error ht]
    exact ⟨rfl, rfl⟩
  cases call with
  | addPair contract assets fees =>
    cases hadd : l.addPair contract assets fees with
    | error fault =>
      rw [execute, hadd]
      exact ⟨rfl, rfl⟩
    | ok n =>
      rw [execute, hadd] at h
      cases h
  | deposit contract amounts => exact htransact contract _ h
  | withdraw contract shares => exact htransact contract _ h
  | swap contract offer => exact htransact contract _ h
  | setFees contract fees => exact htransact contract _ h
  | setFailing contract failing => cases h
  | query contract msg => exact ⟨rfl, rfl⟩

/-! ## The invariant

The pools and the listing are two maps that refer to each other: a listing names a contract, and
the pool there has the assets of the listing. `Coherent` says so in both directions, and that no two
listings are of the same assets, in whatever order. -/

/-- What holds of every chain. -/
structure Coherent (l : Ledger) : Prop where
  /-- A pool has shares just where it has reserves. -/
  backed : ∀ (contract : Addr) (p : Pool), l.pools[contract]? = some p → p.Backed
  /-- A listing is under the key of its assets, and its contract is a pool of these. -/
  listed : ∀ (key : PairKey) (assets : DenomPair) (contract : Addr),
    l.listing[key]? = some (assets, contract) →
    key = assets.key ∧ ∃ p, l.pools[contract]? = some p ∧ p.assets = assets
  /-- A pool is listed under the key of its assets. -/
  deployed : ∀ (contract : Addr) (p : Pool), l.pools[contract]? = some p →
    l.listing[p.assets.key]? = some (p.assets, contract)
  /-- No two listings are of the same two assets, in whatever order. -/
  unique : ∀ (key other : PairKey) (a b : DenomPair) (c d : Addr), l.listing[key]? = some (a, c) →
    l.listing[other]? = some (b, d) → a = b ∨ a = b.inverse → key = other
  /-- No pool is where the factory or the router is. -/
  apart : ∀ (contract : Addr) (p : Pool), l.pools[contract]? = some p →
    contract ≠ l.factory ∧ contract ≠ l.router

/-- A chain without pairs has nothing that could be wrong. Its maps are empty
(`Std.TreeMap.getElem?_emptyc`). -/
theorem coherent_new (factory router : Addr) : (new factory router).Coherent := by
  have hpools (contract : Addr) (p : Pool) : (new factory router).pools[contract]? ≠ some p := by
    rw [new, Std.TreeMap.getElem?_emptyc]
    exact (Option.some_ne_none p).symm
  have hlisting (key : PairKey) (e : DenomPair × Addr) :
      (new factory router).listing[key]? ≠ some e := by
    rw [new, Std.TreeMap.getElem?_emptyc]
    exact (Option.some_ne_none e).symm
  exact
    { backed := fun contract p hp => absurd hp (hpools contract p)
      listed := fun key assets contract he => absurd he (hlisting key (assets, contract))
      deployed := fun contract p hp => absurd hp (hpools contract p)
      unique := fun key _ a _ c _ ha => absurd ha (hlisting key (a, c))
      apart := fun contract p hp => absurd hp (hpools contract p) }

section Kept

variable {l : Ledger} {contract : Addr} {assets : DenomPair}

/-- An address is free where neither the chain's own contracts nor a pool is. What `Ledger.taken`
computes, as it is used when a pair is listed. -/
theorem taken_eq_false :
    l.taken contract = false ↔
      (contract ≠ l.factory ∧ contract ≠ l.router) ∧ l.pools[contract]? = none := by
  unfold taken
  rw [Bool.or_eq_false_iff, Bool.or_eq_false_iff, beq_eq_false_iff_ne, beq_eq_false_iff_ne,
    Std.TreeMap.contains_eq_isSome_getElem?, Option.isSome_eq_false_iff, Option.isNone_iff_eq_none]

/-- Assets are not listed where neither order of them has an entry. What `Ledger.listed` computes,
as two lookups. -/
theorem listed_eq_false :
    l.listed assets = false ↔
      l.listing[assets.key]? = none ∧ l.listing[assets.inverse.key]? = none := by
  unfold listed
  rw [Bool.or_eq_false_iff, Std.TreeMap.contains_eq_isSome_getElem?,
    Std.TreeMap.contains_eq_isSome_getElem?, Option.isSome_eq_false_iff, Option.isSome_eq_false_iff,
    Option.isNone_iff_eq_none, Option.isNone_iff_eq_none]

/-- Assets that are not listed in either order are in neither order those of a listing: that one
would be under the key of one of them (`listed_eq_false`). -/
theorem Coherent.ne_of_unlisted (h : l.Coherent) (hunlisted : l.listed assets = false)
    {key : PairKey} {listed : DenomPair} (he : l.listing[key]? = some (listed, contract)) :
    listed ≠ assets ∧ listed ≠ assets.inverse := by
  obtain ⟨hnone, hnoneInverse⟩ := listed_eq_false.1 hunlisted
  obtain ⟨hkey, -⟩ := h.listed key listed contract he
  rw [hkey] at he
  constructor
  · intro hsame
    rw [hsame, hnone] at he
    cases he
  · intro hsame
    rw [hsame, hnoneInverse] at he
    cases he

/-- A new pair has a contract of its own, and neither order of its assets was listed. Each field is
checked for the new entry and for the old ones; where two listings are compared, one of the two may
be the new one (`ne_of_unlisted`). -/
theorem Coherent.list (h : l.Coherent) (fees : Fees) (hfree : l.taken contract = false)
    (hunlisted : l.listed assets = false) :
    Coherent { l with listing := l.listing.insert assets.key (assets, contract)
                      pools := l.pools.insert contract (.new assets fees) } := by
  obtain ⟨hapart, hnone⟩ := taken_eq_false.1 hfree
  constructor
  case backed =>
    intro other p hp
    simp only [Std.TreeMap.getElem?_insert, Std.compare_eq_iff_eq] at hp
    split at hp
    · cases hp
      exact Pool.backed_new assets fees
    · exact h.backed other p hp
  case listed =>
    intro key listed other he
    simp only [Std.TreeMap.getElem?_insert, Std.compare_eq_iff_eq] at he ⊢
    split at he
    · next hkey =>
      cases he
      exact ⟨hkey.symm, .new assets fees, if_pos rfl, rfl⟩
    · obtain ⟨hkey, p, hp, hassets⟩ := h.listed key listed other he
      refine ⟨hkey, p, ?_, hassets⟩
      rw [if_neg, hp]
      rintro rfl
      rw [hnone] at hp
      cases hp
  case deployed =>
    intro other p hp
    simp only [Std.TreeMap.getElem?_insert, Std.compare_eq_iff_eq] at hp ⊢
    split at hp
    · next hother =>
      cases hp
      rw [hother]
      exact if_pos rfl
    · have hlisted := h.deployed other p hp
      rw [if_neg, hlisted]
      intro hkey
      rw [← hkey, (listed_eq_false.1 hunlisted).1] at hlisted
      cases hlisted
  case unique =>
    intro key other a b c d ha hb hsame
    simp only [Std.TreeMap.getElem?_insert, Std.compare_eq_iff_eq] at ha hb
    -- one of the two may be the new listing, whose assets are those of no other
    split at ha
    · next hkey =>
      cases ha
      split at hb
      · next hother => rw [← hkey, ← hother]
      · obtain ⟨hne, hneInverse⟩ := h.ne_of_unlisted hunlisted hb
        rcases hsame with rfl | rfl
        · exact absurd rfl hne
        · exact absurd rfl hneInverse
    · split at hb
      · next hother =>
        cases hb
        obtain ⟨hne, hneInverse⟩ := h.ne_of_unlisted hunlisted ha
        rcases hsame with hsame | hsame
        · exact absurd hsame hne
        · exact absurd hsame hneInverse
      · exact h.unique key other a b c d ha hb hsame
  case apart =>
    intro other p hp
    simp only [Std.TreeMap.getElem?_insert, Std.compare_eq_iff_eq] at hp
    split at hp
    · next hother => exact hother ▸ hapart
    · exact h.apart other p hp

/-- A pool that keeps its assets keeps its listing, and its shares are backed by the hypothesis.
Nothing else in the invariant mentions a reserve. It is the case `Effect.change` of
`Coherent.effect`. -/
theorem Coherent.change (h : l.Coherent) {p q : Pool} (hthere : l.pools[contract]? = some p)
    (hassets : q.assets = p.assets) (hbacked : p.Backed → q.Backed) :
    Coherent { l with pools := l.pools.insert contract q } := by
  constructor
  case backed =>
    intro other r hr
    simp only [Std.TreeMap.getElem?_insert, Std.compare_eq_iff_eq] at hr
    split at hr
    · cases hr
      exact hbacked (h.backed contract p hthere)
    · exact h.backed other r hr
  case listed =>
    intro key listed other he
    obtain ⟨hkey, r, hr, hlisted⟩ := h.listed key listed other he
    refine ⟨hkey, ?_⟩
    simp only [Std.TreeMap.getElem?_insert, Std.compare_eq_iff_eq]
    -- a listed pair at another address still has the pool it had
    by_cases hother : contract = other
    · rw [← hother, hthere, Option.some.injEq] at hr
      exact ⟨q, if_pos hother, by rw [hassets, hr, hlisted]⟩
    · exact ⟨r, by rw [if_neg hother, hr], hlisted⟩
  case deployed =>
    intro other r hr
    simp only [Std.TreeMap.getElem?_insert, Std.compare_eq_iff_eq] at hr
    split at hr
    · next hother =>
      cases hr
      rw [hassets, ← hother]
      exact h.deployed contract p hthere
    · exact h.deployed other r hr
  case unique => exact h.unique
  case apart =>
    intro other r hr
    simp only [Std.TreeMap.getElem?_insert, Std.compare_eq_iff_eq] at hr
    split at hr
    · next hother => exact hother ▸ h.apart contract p hthere
    · exact h.apart other r hr

/-- The step: whatever a call can do keeps the invariant. The three cases of `Effect` are nothing at
all, `Coherent.list` and `Coherent.change`, so a new kind of call needs a look at `effect_execute`
only. -/
theorem Coherent.effect {n : Ledger} (h : l.Coherent) (he : l.Effect n) : n.Coherent := by
  cases he with
  | still factory router pools listing =>
    obtain ⟨hbacked, hlisted, hdeployed, hunique, hapart⟩ := h
    rw [← pools] at hbacked hlisted hdeployed hapart
    rw [← listing] at hlisted hdeployed hunique
    rw [← factory, ← router] at hapart
    exact ⟨hbacked, hlisted, hdeployed, hunique, hapart⟩
  | list contract assets fees free unlisted => exact h.list fees free unlisted
  | change contract there assets backed => exact h.change there assets backed

end Kept

/-- No call moves the factory or the router. By the cases of `Effect`. -/
theorem Effect.factory_router {l n : Ledger} (h : l.Effect n) :
    n.factory = l.factory ∧ n.router = l.router := by
  cases h with
  | still factory router => exact ⟨factory, router⟩
  | list | change => exact ⟨rfl, rfl⟩

/-! ## Runs

A run executes calls one after the other and goes on whether or not they succeed. The inductions
are on the calls, with `Coherent.effect` for the step. -/

/-- The invariant holds after any calls, if it did before. By induction on the calls, with
`Coherent.effect` for each. -/
theorem Coherent.run {l : Ledger} (h : l.Coherent) (calls : List Call) :
    (l.run calls).Coherent := by
  induction calls generalizing l with
  | nil => exact h
  | cons call rest ih => exact ih (h.effect (l.effect_execute call))

/-- The factory and the router are where they were, whatever was called. By the same induction, with
`Effect.factory_router`. -/
theorem factory_router_run (l : Ledger) (calls : List Call) :
    (l.run calls).factory = l.factory ∧ (l.run calls).router = l.router := by
  induction calls generalizing l with
  | nil => exact ⟨rfl, rfl⟩
  | cons call rest ih =>
    obtain ⟨hfactory, hrouter⟩ := (l.effect_execute call).factory_router
    obtain ⟨hfactory', hrouter'⟩ := ih (l.execute call).2
    exact ⟨hfactory'.trans hfactory, hrouter'.trans hrouter⟩

/-- Whatever is called on a new chain leaves a coherent one, with its factory and router where they
were, and a call on it that fails leaves every pool and the listing alone. These are `Coherent.run`
and `execute_error`. -/
theorem run_coherent (factory router : Addr) (calls : List Call) :
    ((new factory router).run calls).Coherent ∧
      (((new factory router).run calls).factory = factory ∧
        ((new factory router).run calls).router = router) ∧
      ∀ call fault, (((new factory router).run calls).execute call).1 = .error fault →
        (((new factory router).run calls).execute call).2.pools =
            ((new factory router).run calls).pools ∧
          (((new factory router).run calls).execute call).2.listing =
            ((new factory router).run calls).listing :=
  ⟨(coherent_new factory router).run calls, factory_router_run _ calls,
    fun _ _ h => execute_error h⟩

end PoolMarket.Chain.Ledger
