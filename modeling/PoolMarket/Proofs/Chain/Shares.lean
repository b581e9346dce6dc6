import Mathlib.Data.List.Infix
import PoolMarket.Proofs.Chain.PoolHistory

/-!
# What a share has behind it

Deposits mint and withdrawals pay rounded down, on either side of the pool. So however they follow
each other, no share loses any of the reserves behind it while there are shares at all, and no one
takes out more than he has just brought.

* `le_minted_iff`, `withdraw_eq_ok`, `withdraw_get` — deposits and withdrawals with both sides
  treated alike.
* `Undiluted` — the relation between two pools, by cross-multiplication; kept by both transactions
  and transitive where shares are issued.
* `undiluted_run` — along any run without swaps of the pool.
-/

namespace PoolMarket.Chain

namespace Pool

variable {p q r : Pool} {amounts value : Both Amount} {minted shares : Amount}

/-! ## The two sides alike

What is known of a deposit names the two sides. Here it is a statement over `Side`, and that the
smaller of two quotients is minted becomes the property of being covered on both. -/

/-- A deposit mints the most shares whose part of either reserve it covers (`sharesFor_of_issued`,
`Amount.val_least`). -/
theorem le_minted_iff (hissued : p.shares.val ≠ 0) (h : p.sharesFor amounts = .ok minted)
    {n : Nat} : n ≤ minted.val ↔
      ∀ side, n * (p.reserves.get side).val ≤ (amounts.get side).val * p.shares.val := by
  obtain ⟨⟨hfirstPos, hsecondPos⟩, first, second, hfirst, hsecond, rfl⟩ :=
    (sharesFor_of_issued hissued).1 h
  rw [Amount.val_least, Nat.le_min, hfirst, hsecond, Nat.le_div_iff_mul_le hfirstPos,
    Nat.le_div_iff_mul_le hsecondPos, Side.forall_iff]
  rfl

/-- What is minted is on neither side more than the part that the deposit adds to the reserve
(`le_minted_iff` at what was minted). -/
theorem minted_mul_le (hissued : p.shares.val ≠ 0) (h : p.sharesFor amounts = .ok minted)
    (side : Side) :
    (p.reserves.get side).val * minted.val ≤ (amounts.get side).val * p.shares.val := by
  rw [Nat.mul_comm]
  exact (le_minted_iff hissued h).1 (Nat.le_refl _) side

theorem grow_get (h : p.grow amounts minted = .ok q) (side : Side) :
    (q.reserves.get side).val = (p.reserves.get side).val + (amounts.get side).val := by
  obtain ⟨hfirst, hsecond, -⟩ := grow_eq_ok.1 h
  cases side with
  | first => exact hfirst
  | second => exact hsecond

/-! ## Withdrawals

-/

/-- Shares that are there can be withdrawn, for what they are worth: the subtractions do not fail,
as a part of a reserve is no more than the reserve (`Parts.le_reserve`). -/
theorem withdraw_eq_ok {coins : Both Coin} :
    (∃ q, (withdraw shares).on p = (.ok coins, q)) ↔
      shares.val ≤ p.shares.val ∧ p.shareValue shares = .ok coins := by
  constructor
  · rintro ⟨q, h⟩
    obtain ⟨hsupply, hvalue, -⟩ := withdraw_ok h
    exact ⟨hsupply, hvalue⟩
  · rintro ⟨hsupply, hvalue⟩
    obtain ⟨value, hworth, rfl⟩ := shareValue_eq_ok.1 hvalue
    -- the value of shares within the supply is within the reserves, so both can be taken away
    have hle (side : Side) : (value.get side).val ≤ (p.reserves.get side).val := by
      rw [worth_eq_ok.1 hworth side]
      exact Parts.le_reserve hsupply
    unfold withdraw
    simp only [Transaction.on_bind_eq_ok, Transaction.on_get_eq_ok, Transaction.on_lift_eq_ok,
      Transaction.on_set_eq_ok, Transaction.on_modify_eq_ok, Transaction.on_pure_eq_ok,
      checkSupply_eq_ok, Amount.minus_eq_ok]
    exact ⟨_, p, p, ⟨rfl, rfl⟩, ⟨⟩, p, ⟨hsupply, rfl⟩, _, p, ⟨hvalue, rfl⟩,
      p.reserves.first.monus value.first, p, ⟨⟨hle .first, rfl⟩, rfl⟩,
      p.reserves.second.monus value.second, p, ⟨⟨hle .second, rfl⟩, rfl⟩, ⟨⟩, _, rfl,
      p.shares.monus shares, _, ⟨⟨hsupply, rfl⟩, rfl⟩, ⟨⟩, _, rfl, rfl, rfl⟩

/-- A withdrawal takes what the shares are worth off both reserves (`withdraw_ok`). -/
theorem withdraw_get {coins : Both Coin} (h : (withdraw shares).on p = (.ok coins, q))
    (side : Side) :
    (q.reserves.get side).val = (p.reserves.get side).val -
      (p.reserves.get side).val * shares.val / p.shares.val := by
  obtain ⟨-, hvalue, hfirst, hsecond, -⟩ := withdraw_ok h
  obtain ⟨value, hworth, rfl⟩ := shareValue_eq_ok.1 hvalue
  rw [← worth_eq_ok.1 hworth side]
  cases side with
  | first => exact hfirst
  | second => exact hsecond

/-! ## The reserve behind a share

Reserve per share is a ratio, so two pools are compared by products. With no shares in the middle
pool the comparison would say nothing, which is why transitivity asks for some. -/

/-- A share of the second pool has no less of either reserve behind it than one of the first. -/
def Undiluted (p q : Pool) : Prop :=
  ∀ side, (p.reserves.get side).val * q.shares.val ≤ (q.reserves.get side).val * p.shares.val

theorem Undiluted.refl (p : Pool) : p.Undiluted p := fun _ => Nat.le_refl _

/-- The relation is transitive at a pool with shares, which may be cancelled. -/
theorem Undiluted.trans (hissued : 0 < q.shares.val) (hpq : p.Undiluted q) (hqr : q.Undiluted r) :
    p.Undiluted r := by
  intro side
  refine Nat.le_of_mul_le_mul_right ?_ hissued
  calc (p.reserves.get side).val * r.shares.val * q.shares.val
      = (p.reserves.get side).val * q.shares.val * r.shares.val := Nat.mul_right_comm ..
    _ ≤ (q.reserves.get side).val * p.shares.val * r.shares.val :=
        Nat.mul_le_mul_right _ (hpq side)
    _ = (q.reserves.get side).val * r.shares.val * p.shares.val := Nat.mul_right_comm ..
    _ ≤ (r.reserves.get side).val * q.shares.val * p.shares.val :=
        Nat.mul_le_mul_right _ (hqr side)
    _ = (r.reserves.get side).val * p.shares.val * q.shares.val := Nat.mul_right_comm ..

/-- A deposit into a pool with shares dilutes none: it adds at least as much to either reserve as
its new shares have a part in (`minted_mul_le`). -/
theorem undiluted_deposit (hissued : 0 < p.shares.val)
    (h : (deposit amounts).on p = (.ok minted, q)) : p.Undiluted q := by
  intro side
  obtain ⟨hminted, hgrow⟩ := deposit_eq_ok.1 h
  have hpart := minted_mul_le (by omega) hminted side
  rw [grow_get hgrow side, (grow_eq_ok.1 hgrow).2.2.1, Nat.mul_add, Nat.add_mul]
  omega

/-- A withdrawal dilutes none either: what is paid is at most the part of the shares, so at least
the part of the others stays (`withdraw_get`). -/
theorem undiluted_withdraw {coins : Both Coin} (h : (withdraw shares).on p = (.ok coins, q)) :
    p.Undiluted q := by
  intro side
  obtain ⟨-, -, -, -, hleft, -⟩ := withdraw_ok h
  rw [withdraw_get h side, hleft, Nat.mul_sub, Nat.sub_mul]
  -- what is paid is at most the part of the shares
  exact Nat.sub_le_sub_left (Nat.div_mul_le_self ..) _

/-! ## Withdrawing a deposit

-/

/-- Shares that were just minted can be withdrawn, for no more than the deposit has brought. If they
were the first, the pool held nothing before (`Backed.reserve_eq_zero`); otherwise the deposit was
at least the part of them (`minted_mul_le`). -/
theorem withdraw_of_deposit (hp : p.Backed) (h : (deposit amounts).on p = (.ok minted, q)) :
    ∃ value r, (withdraw minted).on q = (.ok (Coin.forPair q.assets value), r) ∧
      ∀ side, (value.get side).val ≤ (amounts.get side).val := by
  obtain ⟨hminted, hgrow⟩ := deposit_eq_ok.1 h
  obtain ⟨-, -, hshares, -⟩ := grow_eq_ok.1 hgrow
  have hsupply : minted.val ≤ q.shares.val := by omega
  obtain ⟨value, hworth⟩ := exists_worth hsupply
  obtain ⟨r, hr⟩ := withdraw_eq_ok.2 ⟨hsupply, shareValue_eq_ok.2 ⟨value, hworth, rfl⟩⟩
  refine ⟨value, r, hr, fun side => ?_⟩
  rw [worth_eq_ok.1 hworth side, grow_get hgrow side, hshares]
  refine Nat.div_le_of_le_mul ?_
  rw [Nat.add_mul, Nat.mul_comm (p.shares.val + minted.val), Nat.mul_add]
  refine Nat.add_le_add_right ?_ _
  by_cases hissued : p.shares.val = 0
  · -- before the first deposit there is nothing in the reserves
    rw [hp.reserve_eq_zero hissued, Nat.zero_mul]
    exact Nat.zero_le _
  · exact minted_mul_le hissued hminted side

end Pool

/-! ## Runs without swaps

Swaps of the pool are excluded, all other calls are allowed, at this contract and at others. -/

/-- The call is a swap at a contract. -/
def Call.swapsAt (contract : Addr) : Call → Bool
  | .swap other _ => other == contract
  | _ => false

namespace Ledger

/-- The pool at a contract has issued shares. -/
def Issued (l : Ledger) (contract : Addr) : Prop :=
  ∃ p, l.pools[contract]? = some p ∧ 0 < p.shares.val

instance (l : Ledger) (contract : Addr) : Decidable (l.Issued contract) :=
  decidable_of_iff ((l.pools[contract]?.any fun p => 0 < p.shares.val) = true) (by
    rw [Option.any_eq_true]
    simp only [decide_eq_true_eq, Issued])

theorem Issued.pos {l : Ledger} {contract : Addr} {p : Pool} (h : l.Issued contract)
    (hp : l.pools[contract]? = some p) : 0 < p.shares.val := by
  obtain ⟨q, hq, hpos⟩ := h
  rw [hp, Option.some.injEq] at hq
  exact hq ▸ hpos

/-- What is called other than swaps dilutes no share of a pool, as long as there are shares:
`run_related`, one lemma for each of the two transactions that count. -/
theorem undiluted_run {l : Ledger} {contract : Addr} {calls : List Call} {p q : Pool}
    (hcalls : ∀ call ∈ calls, call.swapsAt contract = false)
    (hissued : ∀ before, before <+: calls → (l.run before).Issued contract)
    (hp : l.pools[contract]? = some p) (hq : (l.run calls).pools[contract]? = some q) :
    p.Undiluted q := by
  refine run_related Pool.Undiluted.refl ?_ ?_ hp hq
  · exact fun before hbefore p q r hq hpq hqr => .trans ((hissued before hbefore).pos hq) hpq hqr
  · intro before call hbefore p q hp hq hturns
    have hmem : call ∈ calls := hbefore.subset (by simp)
    have hearlier : before <+: calls := (List.prefix_append before [call]).trans hbefore
    -- of the calls that change a pool a swap is ruled out, and fees touch neither reserves nor
    -- shares
    cases hturns with
    | deposit done => exact Pool.undiluted_deposit ((hissued before hearlier).pos hp) done
    | withdraw done => exact Pool.undiluted_withdraw done
    | swap done =>
      have hswap := hcalls _ hmem
      rw [Call.swapsAt, beq_self_eq_true] at hswap
      cases hswap
    | setFees done =>
      obtain rfl := Pool.Transaction.on_modify_eq_ok.1 done
      exact Pool.Undiluted.refl p

/-- On every chain: deposits and withdrawals, of whatever amounts and in whatever order, and all
other calls that are no swaps of the pool, leave no share with less of either reserve than it had,
as long as there are shares. And the shares of a deposit, withdrawn right behind it, pay no more of
either asset than it has brought. The run is `undiluted_run`, and the rest `withdraw_of_deposit`. -/
theorem run_undiluted (factory router : Addr) (history : List Call) (contract : Addr) :
    (∀ (calls : List Call) (p q : Pool),
        (∀ call ∈ calls, call.swapsAt contract = false) →
        (∀ before, before <+: calls →
          (((new factory router).run history).run before).Issued contract) →
        ((new factory router).run history).pools[contract]? = some p →
        (((new factory router).run history).run calls).pools[contract]? = some q →
        p.reserves.first.val * q.shares.val ≤ q.reserves.first.val * p.shares.val ∧
          p.reserves.second.val * q.shares.val ≤ q.reserves.second.val * p.shares.val) ∧
      ∀ (amounts : Both Amount) (minted : Amount) (n : Ledger),
        ((new factory router).run history).deposit contract amounts = .ok (minted, n) →
        ∃ coins m, n.withdraw contract minted = .ok (coins, m) ∧
          coins.first.amount ≤ amounts.first ∧ coins.second.amount ≤ amounts.second := by
  have hcoherent := (coherent_new factory router).run history
  generalize (new factory router).run history = l at hcoherent ⊢
  constructor
  · intro calls p q hcalls hissued hp hq
    have hundiluted := undiluted_run hcalls hissued hp hq
    exact ⟨hundiluted .first, hundiluted .second⟩
  · intro amounts minted n h
    obtain ⟨p, q, hp, hdeposit, rfl⟩ := update_eq_ok.1 h
    obtain ⟨value, r, hwithdraw, hle⟩ :=
      Pool.withdraw_of_deposit (hcoherent.backed contract p hp) hdeposit
    refine ⟨_, _, update_eq_ok.2 ⟨q, r, ?_, hwithdraw, rfl⟩, hle .first, hle .second⟩
    exact Std.TreeMap.getElem?_insert_self

end Ledger

namespace Sample

open Deployment (factory router)

/-- An unbalanced deposit, a withdrawal, another deposit and another withdrawal, which all round. -/
def lopsided : List Call :=
  [.deposit contract ⟨.ofUInt32 2, .ofUInt32 700⟩, .withdraw contract (.ofUInt32 333),
    .deposit contract ⟨.ofUInt32 101, .ofUInt32 77⟩, .withdraw contract (.ofUInt32 7)]

set_option maxRecDepth 4000 in
theorem undiluted_lopsided :
    ((((Ledger.new factory router).run opening).run lopsided).pools[contract]? =
          some ⟨assets, ⟨.ofUInt32 1187, .ofUInt32 1306⟩, .ofUInt32 940, fees⟩ ∧
        1500 * 940 ≤ 1187 * 1224 ∧ 1000 * 940 ≤ 1306 * 1224) ∧
      ∃ minted n coins m,
        ((Ledger.new factory router).run opening).deposit contract ⟨.ofUInt32 2, .ofUInt32 700⟩ =
          .ok (minted, n) ∧
        n.withdraw contract minted = .ok (coins, m) ∧
        coins.first.amount ≤ .ofUInt32 2 ∧ coins.second.amount ≤ .ofUInt32 700 := by
  have hafter : (((Ledger.new factory router).run opening).run lopsided).pools[contract]? =
      some ⟨assets, ⟨.ofUInt32 1187, .ofUInt32 1306⟩, .ofUInt32 940, fees⟩ := by decide +kernel
  have hissued : ∀ before ∈ lopsided.inits,
      (((Ledger.new factory router).run opening).run before).Issued contract := by decide +kernel
  obtain ⟨hrun, hround⟩ := Ledger.run_undiluted factory router opening contract
  refine ⟨⟨hafter, ?_⟩, ?_⟩
  · exact hrun lopsided opened _ (by decide)
      (fun before hprefix => hissued before ((List.mem_inits _ _).2 hprefix)) pool_opening hafter
  · have hsome : (((Ledger.new factory router).run opening).deposit contract
        ⟨.ofUInt32 2, .ofUInt32 700⟩).toOption.isSome = true := by decide +kernel
    cases hdeposit : ((Ledger.new factory router).run opening).deposit contract
        ⟨.ofUInt32 2, .ofUInt32 700⟩ with
    | error fault =>
      rw [hdeposit] at hsome
      cases hsome
    | ok out =>
      obtain ⟨coins, m, hrest⟩ := hround _ out.1 out.2 hdeposit
      exact ⟨out.1, out.2, coins, m, rfl, hrest⟩

end Sample

end PoolMarket.Chain
