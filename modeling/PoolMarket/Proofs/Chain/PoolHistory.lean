import PoolMarket.Proofs.Asset.Validated
import PoolMarket.Proofs.Chain.Coherence

/-!
# What becomes of one pool

Of all that is called on a chain, a pool notices only the transactions at its own contract that
succeed. So a relation between pools that each of these keeps holds between the pool before any run
of calls and the pool after it.

* `Pool.Turns` — one call as it changes one pool, with the transaction that did it.
* `execute_pool` — what any call makes of a pool: nothing, or a turn of its own.
* `run_related` — the induction over calls, once for every relation that turns keep. The modules on
  shares and on the product of the reserves instantiate it.
-/

namespace PoolMarket.Chain

/-- A call turns one pool at a contract into another, by a transaction that succeeds. -/
inductive Pool.Turns (contract : Addr) (p q : Pool) : Call → Prop
  | deposit {amounts : Both Amount} {minted : Amount}
      (done : (Pool.deposit amounts).on p = (.ok minted, q)) :
      Turns contract p q (.deposit contract amounts)
  | withdraw {shares : Amount} {value : Both Coin}
      (done : (Pool.withdraw shares).on p = (.ok value, q)) :
      Turns contract p q (.withdraw contract shares)
  | swap {offer : Coin} {result : SwapResult} (done : (Pool.swap offer).on p = (.ok result, q)) :
      Turns contract p q (.swap contract offer)
  | setFees {fees : Fees} {u : Unit} (done : (Pool.setFees fees).on p = (.ok u, q)) :
      Turns contract p q (.setFees contract fees)

namespace Ledger

variable {l : Ledger} {contract : Addr} {p q : Pool}

/-! ## One call

`Ledger.update` is a transaction on the pool at an address, and so are the calls with a result. The
lemmas move between the pool and the chain in both directions, so that what is proved of one pool
becomes a statement about calls. -/

/-- What a transaction gives with the chain after it is what it gives on its pool
(`transact_eq_ok`). -/
theorem update_eq_ok {α : Type} {t : Pool.Transaction α} {a : α} {n : Ledger} :
    l.update contract t = .ok (a, n) ↔
      ∃ p q, l.pools[contract]? = some p ∧ t.on p = (.ok a, q) ∧
        n = { l with pools := l.pools.insert contract q } := by
  rw [← transact_eq_ok]
  unfold update
  rcases l.transact contract t with ⟨fault | b, m⟩
  · simp
  · simp

/-- Where there is a pool, the transaction fails there just as it does on the pool. It is
`update_eq_ok` for a fault. -/
theorem update_eq_error {α : Type} {t : Pool.Transaction α} {fault : Fault}
    (hp : l.pools[contract]? = some p) :
    l.update contract t = .error fault ↔ (t.on p).1 = .error fault := by
  unfold update transact
  rw [pool_eq_ok.2 hp]
  rcases ht : t.on p with ⟨fault' | a, q⟩
  · simp [ht]
  · simp [ht]

theorem exists_update {α : Type} {t : Pool.Transaction α} {a : α}
    (hp : l.pools[contract]? = some p) (h : t.on p = (.ok a, q)) :
    ∃ n, l.update contract t = .ok (a, n) ∧ n.pools[contract]? = some q :=
  ⟨_, update_eq_ok.2 ⟨p, q, hp, h, rfl⟩, Std.TreeMap.getElem?_insert_self⟩

/-- A transaction at any contract leaves a pool as it is, or is one of the pool's own: a fault
leaves the chain (`transact_error`), and a success at another address leaves this one. -/
theorem transact_pool {α : Type} (hp : l.pools[contract]? = some p) (other : Addr)
    (t : Pool.Transaction α) :
    ∃ q, (l.transact other t).2.pools[contract]? = some q ∧
      (q = p ∨ other = contract ∧ ∃ a, t.on p = (.ok a, q)) := by
  rcases h : l.transact other t with ⟨fault | a, n⟩
  · rw [transact_error h]
    exact ⟨p, hp, Or.inl rfl⟩
  · obtain ⟨r, q, hr, hon, rfl⟩ := transact_eq_ok.1 h
    simp only [Std.TreeMap.getElem?_insert, Std.compare_eq_iff_eq]
    by_cases hother : other = contract
    · subst hother
      rw [hp, Option.some.injEq] at hr
      subst hr
      exact ⟨q, if_pos rfl, Or.inr ⟨rfl, a, hon⟩⟩
    · exact ⟨p, by rw [if_neg hother, hp], Or.inl rfl⟩

/-- A pool that is there stays there, as it is or turned into another by the call. A new pair is at
an address that was free, so it replaces none. By the cases of `Call`, with `transact_pool` for
those that reach a pool. -/
theorem execute_pool (hp : l.pools[contract]? = some p) (call : Call) :
    ∃ q, (l.execute call).2.pools[contract]? = some q ∧ (q = p ∨ p.Turns contract q call) := by
  cases call with
  | addPair other assets fees =>
    refine ⟨p, ?_, Or.inl rfl⟩
    cases h : l.addPair other assets fees with
    | error fault =>
      rw [execute, h]
      exact hp
    | ok n =>
      rw [execute, h]
      obtain ⟨hfree, -, rfl⟩ := addPair_eq_ok.1 h
      -- a new pair is at an address that was free
      have hother : other ≠ contract := by
        rintro rfl
        rw [(taken_eq_false.1 hfree).2] at hp
        cases hp
      simp only [Std.TreeMap.getElem?_insert, Std.compare_eq_iff_eq, if_neg hother, hp]
  | deposit other amounts =>
    obtain ⟨q, hq, rfl | ⟨rfl, minted, hon⟩⟩ := transact_pool hp other (Pool.deposit amounts)
    · exact ⟨q, hq, Or.inl rfl⟩
    · exact ⟨q, hq, Or.inr (.deposit hon)⟩
  | withdraw other shares =>
    obtain ⟨q, hq, rfl | ⟨rfl, value, hon⟩⟩ := transact_pool hp other (Pool.withdraw shares)
    · exact ⟨q, hq, Or.inl rfl⟩
    · exact ⟨q, hq, Or.inr (.withdraw hon)⟩
  | swap other offer =>
    obtain ⟨q, hq, rfl | ⟨rfl, result, hon⟩⟩ := transact_pool hp other (Pool.swap offer)
    · exact ⟨q, hq, Or.inl rfl⟩
    · exact ⟨q, hq, Or.inr (.swap hon)⟩
  | setFees other fees =>
    obtain ⟨q, hq, rfl | ⟨rfl, u, hon⟩⟩ := transact_pool hp other (Pool.setFees fees)
    · exact ⟨q, hq, Or.inl rfl⟩
    · exact ⟨q, hq, Or.inr (.setFees hon)⟩
  | setFailing other failing => exact ⟨p, hp, Or.inl rfl⟩
  | query other msg => exact ⟨p, hp, Or.inl rfl⟩

/-! ## A run of calls

The relation is a parameter. It is asked to be transitive only at pools the run comes through,
since the one about shares is transitive only where some are issued. -/

/-- A relation that the turns of a pool keep during a run relates the pool before the run to the one
after it. By induction on the calls, with the chain and the pool generalized (`execute_pool` for the
first call). -/
theorem run_related {R : Pool → Pool → Prop} {calls : List Call} (hrefl : ∀ p, R p p)
    (htrans : ∀ before, before <+: calls → ∀ p q r, (l.run before).pools[contract]? = some q →
      R p q → R q r → R p r)
    (hturn : ∀ before call, before ++ [call] <+: calls → ∀ p q,
      (l.run before).pools[contract]? = some p →
      (l.run (before ++ [call])).pools[contract]? = some q → p.Turns contract q call → R p q)
    (hp : l.pools[contract]? = some p) (hq : (l.run calls).pools[contract]? = some q) : R p q := by
  -- from the first call on, so that the relation and its steps are asked of shorter runs
  induction calls generalizing l p with
  | nil =>
    have hq : l.pools[contract]? = some q := hq
    rw [hp, Option.some.injEq] at hq
    exact hq ▸ hrefl p
  | cons call rest ih =>
    obtain ⟨r, hr, hturns⟩ := execute_pool hp call
    have hfirst : [call] <+: call :: rest := ⟨rest, rfl⟩
    have hpr : R p r := by
      rcases hturns with rfl | hturns
      · exact hrefl r
      · exact hturn [] call hfirst p r hp hr hturns
    refine htrans [call] hfirst p r q hr hpr (ih ?_ ?_ hr hq)
    · exact fun before hbefore =>
        htrans (call :: before) (List.cons_prefix_cons.2 ⟨rfl, hbefore⟩)
    · exact fun before next hbefore =>
        hturn (call :: before) next (List.cons_prefix_cons.2 ⟨rfl, hbefore⟩)

end Ledger

/-! ### A pool to compute with

The numbers are chosen so that no division comes out even: fees, roots and parts are all
rounded. -/

namespace Sample

open Deployment (factory router)

def contract : Addr := ⟨"sei1pair", by decide, by decide⟩

def assets : DenomPair := ⟨.native "usei", .native "uusdc", by decide⟩

/-- One hundredth is charged, of which the maker gets a quarter. -/
def fees : Fees := ⟨⟨25, by decide⟩, ⟨75, by decide⟩, by decide⟩

/-- A pool is listed, and empty. -/
def listed : List Call := [.addPair contract assets fees]

theorem pool_listed :
    ((Ledger.new factory router).run listed).pools[contract]? = some (.new assets fees) := by
  decide +kernel

/-- A first deposit, of which neither the root nor the shares of a second one come out whole. -/
def balanced : Both Amount := ⟨.ofUInt32 1001, .ofUInt32 1003⟩

/-- A pool is listed and filled. -/
def opening : List Call :=
  [.addPair contract assets fees, .deposit contract ⟨.ofUInt32 1500, .ofUInt32 1000⟩]

def opened : Pool := ⟨assets, ⟨.ofUInt32 1500, .ofUInt32 1000⟩, .ofUInt32 1224, fees⟩

theorem pool_opening :
    ((Ledger.new factory router).run opening).pools[contract]? = some opened := by decide +kernel

end Sample

end PoolMarket.Chain
