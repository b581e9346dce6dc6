import PoolMarket.Proofs.Chain.Deposits
import PoolMarket.Proofs.Pool.Minting

/-!
# The minting rule of a pool

The first deposit mints the root of its product, if that is enough. A later one follows the rule of
an estimate, on the pool itself, as long as all that is reckoned for it can be counted.

The rule itself, `Snapshot.Mints`, is about snapshots. It reaches pools by the agreement of an
estimate with a deposit; what has to be added is that a deposit which cannot be counted fails for
just that, which is `OverflowsOnly` once more.
-/

namespace PoolMarket.Chain

namespace Pool

variable {p : Pool} {amounts : Both Amount}

/-! ## The first deposit

-/

/-- A first deposit whose root is below a thousand is refused, whatever else. Above that bound it is
`sharesFor_of_unissued`. -/
theorem sharesFor_of_small (hunissued : p.shares.val = 0)
    (hsmall : (amounts.first.rootOfProduct amounts.second).val < 1000) :
    p.sharesFor amounts = .error (.invalidAmount .firstDepositTooSmall) := by
  have hzero : p.shares.isZero = true := Amount.isZero_iff.2 hunissued
  simp only [sharesFor, hzero, if_true]
  exact if_pos hsmall

/-- The first deposit always fits the empty reserves, so one that is large enough succeeds
(`sharesFor_of_unissued`). -/
theorem exists_deposit_of_unissued (hp : p.Backed) (hunissued : p.shares.val = 0)
    (hlarge : 1000 ≤ (amounts.first.rootOfProduct amounts.second).val) :
    ∃ q, (deposit amounts).on p = (.ok (amounts.first.rootOfProduct amounts.second), q) := by
  obtain ⟨hfirst, hsecond⟩ := hp.1 hunissued
  refine ⟨⟨p.assets, amounts, amounts.first.rootOfProduct amounts.second, p.fees⟩,
    deposit_eq_ok.2 ⟨(sharesFor_of_unissued hunissued).2 ⟨rfl, hlarge⟩,
      grow_eq_ok.2 ⟨?_, ?_, ?_, rfl, rfl⟩⟩⟩
  · rw [hfirst, Nat.zero_add]
  · rw [hsecond, Nat.zero_add]
  · rw [hunissued, Nat.zero_add]

/-! ## Later deposits

-/

theorem backed_of_priced (h : p.snapshot.Priced) : p.Backed :=
  iff_of_false (Nat.ne_of_gt h.shares) fun hnone => Nat.ne_of_gt (h.deposits .first) hnone.1

/-- What a deposit mints is found, unless a number is too large: no reserve is empty
(`OverflowsOnly.bind`). -/
theorem overflowsOnly_sharesFor (h : p.snapshot.Priced) : (p.sharesFor amounts).OverflowsOnly := by
  have hissued : p.shares.isZero = false := Amount.isZero_eq_false h.shares
  have hcheck : p.checkReserves = .ok () :=
    checkReserves_eq_ok.2 ⟨h.deposits .first, h.deposits .second⟩
  simp only [sharesFor, hissued, Bool.false_eq_true, if_false, hcheck]
  exact .bind (Amount.overflowsOnly_mulDiv _ _ _ (Nat.ne_of_gt (h.deposits .first))) fun _ _ =>
    .bind (Amount.overflowsOnly_mulDiv _ _ _ (Nat.ne_of_gt (h.deposits .second))) fun _ _ =>
      Outcome.overflowsOnly_ok _

/-- Adding the deposit fails only for size (`Amount.overflowsOnly_plus`). -/
theorem overflowsOnly_grow (minted : Amount) : (p.grow amounts minted).OverflowsOnly :=
  .bind (Amount.overflowsOnly_plus _ _) fun _ _ =>
    .bind (Amount.overflowsOnly_plus _ _) fun _ _ =>
      .bind (Amount.overflowsOnly_plus _ _) fun _ _ => Outcome.overflowsOnly_ok _

/-- So does the deposit itself (`fst_deposit`, in which the same two are done in turn). -/
theorem overflowsOnly_deposit (h : p.snapshot.Priced) :
    ((deposit amounts).on p).1.OverflowsOnly := by
  rw [fst_deposit]
  exact .bind (overflowsOnly_sharesFor h) fun minted _ =>
    .bind (overflowsOnly_grow minted) fun _ _ => Outcome.overflowsOnly_ok _

end Pool

namespace Ledger

variable {l : Ledger} {contract : Addr} {p : Pool} {amounts : Both Amount} {offer : Both Coin}

/-- A deposit and the pool's preview of it do as the estimate does, on any chain: a price is enough
for the pool to be backed (`Pool.backed_of_priced`). -/
theorem depositsAgree_code (hp : l.pools[contract]? = some p) (h : p.snapshot.Priced)
    (hoffer : offer = Coin.forPair p.assets amounts ∨
      offer = (Coin.forPair p.assets amounts).swap) :
    l.DepositsAgree contract p amounts (p.previewDeposit offer)
      (fun n shares => n.shareValue contract shares) := by
  refine depositsAgree hp (Pool.backed_of_priced h) h.shares (Pool.align_eq_ok hoffer)
    (fun d => Iff.rfl) ?_
  intro minted q coins _ hvalue
  have hq : ({ l with pools := l.pools.insert contract q } : Ledger).pool contract = .ok q :=
    pool_eq_ok.2 Std.TreeMap.getElem?_insert_self
  rw [shareValue, hq]
  exact hvalue

/-- A deposit where there is a price mints by the rule, as its preview says, if all can be counted.
The estimate succeeds (`Snapshot.exists_provide`), so the deposit does. -/
theorem deposit_mints (hp : l.pools[contract]? = some p) (h : p.snapshot.Priced)
    (hoffer : offer = Coin.forPair p.assets amounts ∨
      offer = (Coin.forPair p.assets amounts).swap)
    (hcountable : p.snapshot.Countable amounts) :
    ∃ minted value n, l.deposit contract amounts = .ok (minted, n) ∧
      p.previewDeposit offer = .ok ⟨minted, Coin.forPair p.assets value⟩ ∧
      p.snapshot.Mints amounts minted value := by
  obtain ⟨minted, value, hestimate⟩ := Snapshot.exists_provide h hcountable
  have hmints := Snapshot.mints_of_provide h hestimate
  cases depositsAgree_code hp h hoffer with
  | fail hfault =>
    rw [hestimate] at hfault
    cases hfault
  | mint hsame hpreview hdeposit =>
    rw [hestimate, Except.ok.injEq, Prod.mk.injEq] at hsame
    obtain ⟨rfl, rfl⟩ := hsame
    exact ⟨minted, value, _, hdeposit, hpreview, hmints⟩

/-- A deposit where there is a price and not all can be counted fails for that: the estimate has no
result, so the deposit has none, and it fails only for size (`Pool.overflowsOnly_deposit`). -/
theorem deposit_overflows (hp : l.pools[contract]? = some p) (h : p.snapshot.Priced)
    (hcountable : ¬ p.snapshot.Countable amounts) :
    ∃ what, l.deposit contract amounts = .error (.overflow what) := by
  cases depositsAgree_code hp h (Or.inl rfl) with
  | fail _ _ hfault =>
    obtain ⟨what, rfl⟩ :=
      Pool.overflowsOnly_deposit h _ ((update_eq_error hp).1 hfault)
    exact ⟨what, hfault⟩
  | mint hestimate => exact absurd ((Snapshot.provide_eq_ok h).1 hestimate).1 hcountable

/-! ## The rule -/

/-- The first deposit into a pool of any chain mints the root of its product if that is at least
1000, and is refused otherwise. Where there is something of both assets and shares, an estimate from
any state and a deposit into any pool mint by the rule, as long as all can be counted, and otherwise
fail by an overflow. The first is `sharesFor_of_unissued`; the second is put together from
`deposit_mints` and `deposit_overflows`. -/
theorem mintingRule :
    (∀ (factory router : Addr) (history : List Call) (contract : Addr) (p : Pool)
        (amounts : Both Amount),
        ((new factory router).run history).pools[contract]? = some p → p.shares.val = 0 →
        ∃ root : Amount, root.val * root.val ≤ amounts.first.val * amounts.second.val ∧
          amounts.first.val * amounts.second.val < (root.val + 1) * (root.val + 1) ∧
          (1000 ≤ root.val → ∃ n,
            ((new factory router).run history).deposit contract amounts = .ok (root, n)) ∧
          (root.val < 1000 → ((new factory router).run history).deposit contract amounts =
            .error (.invalidAmount .firstDepositTooSmall))) ∧
      (∀ (s : Snapshot) (amounts : Both Amount), s.Priced →
        (s.Countable amounts → ∃ minted value, s.provide amounts = .ok (minted, value) ∧
          s.Mints amounts minted value) ∧
        (¬ s.Countable amounts → ∃ what, s.provide amounts = .error (.overflow what))) ∧
      ∀ (l : Ledger) (contract : Addr) (p : Pool) (amounts : Both Amount) (offer : Both Coin),
        l.pools[contract]? = some p → p.snapshot.Priced →
        (offer = Coin.forPair p.assets amounts ∨
          offer = (Coin.forPair p.assets amounts).swap) →
        (p.snapshot.Countable amounts → ∃ minted value n,
          l.deposit contract amounts = .ok (minted, n) ∧
          p.previewDeposit offer = .ok ⟨minted, Coin.forPair p.assets value⟩ ∧
          p.snapshot.Mints amounts minted value) ∧
        (¬ p.snapshot.Countable amounts →
          ∃ what, l.deposit contract amounts = .error (.overflow what)) := by
  refine ⟨?_, fun s amounts h => ⟨fun hcountable => ?_, fun hcountable => ?_⟩,
    fun l contract p amounts offer hp h hoffer =>
      ⟨deposit_mints hp h hoffer, deposit_overflows hp h⟩⟩
  · -- the first deposit mints the root of the product, or is refused as too small
    intro factory router history contract p amounts hp hunissued
    have hbacked := ((coherent_new factory router).run history).backed contract p hp
    refine ⟨amounts.first.rootOfProduct amounts.second, Amount.rootOfProduct_mul_self_le ..,
      Amount.lt_rootOfProduct_succ_mul_self .., fun hlarge => ?_, fun hsmall => ?_⟩
    · obtain ⟨q, hq⟩ := Pool.exists_deposit_of_unissued hbacked hunissued hlarge
      obtain ⟨n, hn, -⟩ := exists_update hp hq
      exact ⟨n, hn⟩
    · refine (update_eq_error hp).2 ?_
      rw [Pool.fst_deposit, Pool.sharesFor_of_small hunissued hsmall]
      rfl
  · -- on a priced pool the estimate counts what the deposit will
    obtain ⟨minted, value, hestimate⟩ := Snapshot.exists_provide h hcountable
    exact ⟨minted, value, hestimate, Snapshot.mints_of_provide h hestimate⟩
  · refine (Snapshot.overflowsOnly_provide h).exists_overflow fun out hout => ?_
    exact hcountable ((Snapshot.provide_eq_ok h).1 hout).1

end Ledger

namespace Sample

open Deployment (factory router)

def tooSmall : Both Amount := ⟨.ofUInt32 999, .ofUInt32 1000⟩

def few : Both Amount := ⟨.ofUInt32 2, .ofUInt32 700⟩

def tooMany : Both Amount := ⟨.max, .max⟩

theorem priced_opened : opened.snapshot.Priced :=
  ⟨fun side => by cases side <;> decide, by decide⟩

theorem countable_few : opened.snapshot.Countable few :=
  ⟨fun side => by cases side <;> decide, by decide, fun side => by cases side <;> decide⟩

theorem not_countable_tooMany : ¬ opened.snapshot.Countable tooMany :=
  fun h => absurd (h.sums .first) (by decide)

/-- An empty pool takes one first deposit and refuses another; a filled one takes a lopsided deposit
and cannot count one of as much as there may be. -/
theorem mintingRule_listed_opened :
    (∃ root : Amount, 1000 ≤ root.val ∧ root.val * root.val ≤ 1001 * 1003 ∧
        1001 * 1003 < (root.val + 1) * (root.val + 1) ∧
        ∃ n, ((Ledger.new factory router).run listed).deposit contract balanced = .ok (root, n)) ∧
      ((Ledger.new factory router).run listed).deposit contract tooSmall =
        .error (.invalidAmount .firstDepositTooSmall) ∧
      (∃ minted value, opened.snapshot.provide few = .ok (minted, value) ∧
        opened.snapshot.Mints few minted value) ∧
      (∃ minted value n,
        ((Ledger.new factory router).run opening).deposit contract few = .ok (minted, n) ∧
        opened.previewDeposit (Coin.forPair assets few).swap =
          .ok ⟨minted, Coin.forPair assets value⟩ ∧
        opened.snapshot.Mints few minted value) ∧
      ∃ what, ((Ledger.new factory router).run opening).deposit contract tooMany =
        .error (.overflow what) := by
  obtain ⟨hfirst, hestimate, hlater⟩ := Ledger.mintingRule
  refine ⟨?_, ?_, (hestimate opened.snapshot few priced_opened).1 countable_few, ?_, ?_⟩
  · obtain ⟨root, hle, hlt, hmints, -⟩ :=
      hfirst factory router listed contract _ balanced pool_listed rfl
    have hle : root.val * root.val ≤ 1001 * 1003 := hle
    have hlt : 1001 * 1003 < (root.val + 1) * (root.val + 1) := hlt
    have hlarge : 1000 ≤ root.val := by
      by_contra hsmall
      -- a root below the threshold would have too small a square
      have hsquare := Nat.mul_le_mul (show root.val + 1 ≤ 1000 by omega)
        (show root.val + 1 ≤ 1000 by omega)
      omega
    exact ⟨root, hlarge, hle, hlt, hmints hlarge⟩
  · obtain ⟨root, hle, -, -, hrefused⟩ :=
      hfirst factory router listed contract _ tooSmall pool_listed rfl
    have hle : root.val * root.val ≤ 999 * 1000 := hle
    refine hrefused ?_
    by_contra hlarge
    have hsquare := Nat.mul_le_mul (show 1000 ≤ root.val by omega) (show 1000 ≤ root.val by omega)
    omega
  · exact (hlater _ contract opened few _ pool_opening priced_opened (Or.inr rfl)).1 countable_few
  · exact (hlater _ contract opened tooMany _ pool_opening priced_opened (Or.inl rfl)).2
      not_countable_tooMany

end Sample

end PoolMarket.Chain
