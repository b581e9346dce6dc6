import Mathlib.Order.Bounds.Basic
import Mathlib.Tactic.Ring
import PoolMarket.Pool.Snapshot
import PoolMarket.Proofs.Amount.Exact
import PoolMarket.Proofs.Amount.Parts

/-!
# What a deposit mints

A deposit into a pool with shares mints as many more as it covers: as many as have no more of either
reserve behind them than it brings. They are worth no more than the deposit, and as much on a side
on which it brings just what they need.

* `Priced` — a pool with something on both sides and shares of it, the only kind that has a rate.
* `covered`, `le_covered_iff` — how many shares a deposit pays for, and the property that makes this
  the greatest such number.
* `provide_eq_ok` — when `provide` succeeds and what it gives, which is all that other modules use.
* `Mints` — the rule in the terms of whoever deposits.
-/

namespace PoolMarket.Snapshot

variable {s : Snapshot} {amounts value : Both Amount} {minted : Amount}

/-- Something of both assets is there, and shares of it are. -/
structure Priced (s : Snapshot) : Prop where
  deposits : ∀ side, 0 < (s.deposits.get side).val
  shares : 0 < s.shares.val

/-- As many shares as a deposit covers on both sides. -/
def covered (s : Snapshot) (amounts : Both Amount) : Nat :=
  min (amounts.first.val * s.shares.val / s.deposits.first.val)
    (amounts.second.val * s.shares.val / s.deposits.second.val)

/-- Whatever is reckoned for a deposit fits an amount: the shares on either side, the supply with
the new ones, and the reserves with the deposit. These are the intermediate results of `provide`, in
turn. -/
structure Countable (s : Snapshot) (amounts : Both Amount) : Prop where
  ratios : ∀ side,
    (amounts.get side).val * s.shares.val / (s.deposits.get side).val < Amount.size
  supply : s.shares.val + s.covered amounts < Amount.size
  sums : ∀ side, (s.deposits.get side).val + (amounts.get side).val < Amount.size

/-- As many shares are covered as have no more behind them than is brought, on both sides: two
quotients rounded down, and the smaller of them. It is to an estimate what `Pool.le_minted_iff` is
to a deposit. -/
theorem le_covered_iff (h : s.Priced) {n : Nat} :
    n ≤ s.covered amounts ↔
      ∀ side, n * (s.deposits.get side).val ≤ (amounts.get side).val * s.shares.val := by
  have hfirst : 0 < s.deposits.first.val := h.deposits .first
  have hsecond : 0 < s.deposits.second.val := h.deposits .second
  rw [covered, Nat.le_min, Nat.le_div_iff_mul_le hfirst, Nat.le_div_iff_mul_le hsecond,
    Side.forall_iff]
  rfl

/-! ## When it succeeds

`provide` is unfolded once, for a pool with a price, into the plain sequence of its steps
(`provide_of_priced`). Success and its result are read off that sequence as equations; what stays
are the bounds of `Countable`, so nothing but an overflow is left to fail. -/

/-- Without a price a deposit is refused, except into an empty pool. By the branches of
`Snapshot.provide`. -/
theorem provide_of_unpriced (hsome : ¬ s.isEmpty = true) (h : ¬ s.Priced) :
    s.provide amounts = .error .zeroReserve := by
  have hnone : (s.deposits.first.isZero || s.deposits.second.isZero || s.shares.isZero) = true := by
    by_contra hall
    simp only [Bool.or_eq_true, Amount.isZero_iff, not_or] at hall
    obtain ⟨⟨hfirst, hsecond⟩, hshares⟩ := hall
    exact h ⟨Side.forall_iff.2 ⟨Nat.pos_of_ne_zero hfirst, Nat.pos_of_ne_zero hsecond⟩,
      Nat.pos_of_ne_zero hshares⟩
  unfold provide
  simp only [if_neg hsome, if_pos hnone]
  rfl

/-- Where there is a price, nothing but the reckoning is left of a deposit
(`Amount.isZero_eq_false`). -/
theorem provide_of_priced (h : s.Priced) :
    s.provide amounts = (do
      let first ← amounts.first.mulDiv s.shares s.deposits.first .down
      let second ← amounts.second.mulDiv s.shares s.deposits.second .down
      let supply ← s.shares.plus (first.least second)
      let firstSum ← s.deposits.first.plus amounts.first
      let firstValue ← firstSum.mulDiv (first.least second) supply .down
      let secondSum ← s.deposits.second.plus amounts.second
      let secondValue ← secondSum.mulDiv (first.least second) supply .down
      return (first.least second, ⟨firstValue, secondValue⟩)) := by
  have hfirst : s.deposits.first.isZero = false := Amount.isZero_eq_false (h.deposits .first)
  have hsecond : s.deposits.second.isZero = false := Amount.isZero_eq_false (h.deposits .second)
  have hshares : s.shares.isZero = false := Amount.isZero_eq_false h.shares
  unfold provide isEmpty
  simp only [hfirst, hsecond, hshares, Bool.and_self, Bool.or_self, Bool.false_eq_true, if_false,
    bind_assoc]
  rfl

/-- A deposit succeeds if all can be counted, and mints what it covers. Each step of
`provide_of_priced` is an equation of natural numbers; the worth of the new shares is bounded by the
reserve with the deposit, so it fits without being asked. -/
theorem provide_eq_ok (h : s.Priced) :
    s.provide amounts = .ok (minted, value) ↔
      s.Countable amounts ∧ minted.val = s.covered amounts ∧
        ∀ side, (value.get side).val =
          ((s.deposits.get side).val + (amounts.get side).val) * minted.val /
            (s.shares.val + minted.val) := by
  rw [provide_of_priced h]
  simp only [Outcome.bind_eq_ok, Amount.mulDiv_eq_ok, Amount.plus_eq_ok]
  constructor
  · rintro ⟨first, ⟨-, hfirst⟩, second, ⟨-, hsecond⟩, supply, hsupply, firstSum, hfirstSum,
      firstValue, ⟨-, hfirstValue⟩, secondSum, hsecondSum, secondValue, ⟨-, hsecondValue⟩, heq⟩
    cases heq
    -- what is minted is the lesser of the two ratios
    have hcovered : (first.least second).val = s.covered amounts := by
      rw [Amount.val_least, hfirst, hsecond]
      rfl
    simp only [Side.forall_iff]
    refine ⟨⟨Side.forall_iff.2 ⟨?_, ?_⟩, ?_, Side.forall_iff.2 ⟨?_, ?_⟩⟩, hcovered, ?_⟩
    · exact lt_of_eq_of_lt hfirst.symm first.lt
    · exact lt_of_eq_of_lt hsecond.symm second.lt
    · rw [← hcovered, ← hsupply]
      exact supply.lt
    · exact lt_of_eq_of_lt hfirstSum.symm firstSum.lt
    · exact lt_of_eq_of_lt hsecondSum.symm secondSum.lt
    · rw [← hsupply]
      exact ⟨hfirstSum ▸ hfirstValue, hsecondSum ▸ hsecondValue⟩
  · rintro ⟨hcountable, hminted, hvalue⟩
    -- every step fits in an amount, by the three bounds of `Countable`
    have hleast : Amount.least ⟨_, hcountable.ratios .first⟩ ⟨_, hcountable.ratios .second⟩ =
        minted := Amount.ext ((Amount.val_least ..).trans hminted.symm)
    have hsupply : s.shares.val + minted.val < Amount.size := hminted ▸ hcountable.supply
    have hpos : s.shares.val + minted.val ≠ 0 := Nat.ne_of_gt (Nat.add_pos_left h.shares _)
    refine ⟨⟨_, hcountable.ratios .first⟩, ⟨Nat.ne_of_gt (h.deposits .first), rfl⟩,
      ⟨_, hcountable.ratios .second⟩, ⟨Nat.ne_of_gt (h.deposits .second), rfl⟩, ?_⟩
    rw [hleast]
    exact ⟨⟨_, hsupply⟩, rfl, ⟨_, hcountable.sums .first⟩, rfl, value.first,
      ⟨hpos, hvalue .first⟩, ⟨_, hcountable.sums .second⟩, rfl, value.second,
      ⟨hpos, hvalue .second⟩, rfl⟩

/-- A deposit that can be counted succeeds: the result is built from the bounds of `Countable`, and
`provide_eq_ok` does the rest. -/
theorem exists_provide (h : s.Priced) (hcountable : s.Countable amounts) :
    ∃ minted value, s.provide amounts = .ok (minted, value) := by
  have hminted : s.covered amounts < Amount.size :=
    Nat.lt_of_le_of_lt (Nat.le_add_left ..) hcountable.supply
  have hvalue (side : Side) : ((s.deposits.get side).val + (amounts.get side).val) *
      s.covered amounts / (s.shares.val + s.covered amounts) < Amount.size :=
    Nat.lt_of_le_of_lt (Parts.le_reserve (Nat.le_add_left ..)) (hcountable.sums side)
  exact ⟨⟨_, hminted⟩, ⟨⟨_, hvalue .first⟩, ⟨_, hvalue .second⟩⟩,
    (provide_eq_ok h).2 ⟨hcountable, rfl, Side.forall_iff.2 ⟨rfl, rfl⟩⟩⟩

/-- Into a pool with a price, a deposit fails only for size. One lemma for each step
(`OverflowsOnly.bind`), as no divisor is empty. -/
theorem overflowsOnly_provide (h : s.Priced) : (s.provide amounts).OverflowsOnly := by
  rw [provide_of_priced h]
  refine .bind (Amount.overflowsOnly_mulDiv _ _ _ (Nat.ne_of_gt (h.deposits .first))) fun first _ =>
    .bind (Amount.overflowsOnly_mulDiv _ _ _ (Nat.ne_of_gt (h.deposits .second))) fun second _ =>
      .bind (Amount.overflowsOnly_plus _ _) fun supply hsupply => ?_
  have hpos : supply.val ≠ 0 := by
    rw [Amount.plus_eq_ok.1 hsupply]
    exact Nat.ne_of_gt (Nat.add_pos_left h.shares _)
  exact .bind (Amount.overflowsOnly_plus _ _) fun _ _ =>
    .bind (Amount.overflowsOnly_mulDiv _ _ _ hpos) fun _ _ =>
      .bind (Amount.overflowsOnly_plus _ _) fun _ _ =>
        .bind (Amount.overflowsOnly_mulDiv _ _ _ hpos) fun _ _ => Outcome.overflowsOnly_ok _

/-! ## The rule

The shares are the most that are paid for on both sides, so on one side too much may be brought.
What that is worth afterwards is a quotient with the new shares on both sides of it, and the
comparison with what was brought becomes one of products. -/

/-- The rule for deposits: they mint the most shares that they cover, whose worth is no more than
what was brought, and the whole of it on a side that brings just what the shares need. -/
structure Mints (s : Snapshot) (amounts : Both Amount) (minted : Amount) (value : Both Amount) :
    Prop where
  most : IsGreatest {n | ∀ side,
    n * (s.deposits.get side).val ≤ (amounts.get side).val * s.shares.val} minted.val
  value_le : ∀ side, value.get side ≤ amounts.get side
  value_eq_iff : ∀ side, value.get side = amounts.get side ↔
    minted.val * (s.deposits.get side).val = (amounts.get side).val * s.shares.val

/-- New shares have a part in what was there and in what they were minted for. It covers what was
brought just if what was there and what was brought are in proportion. -/
theorem le_part_iff (there brought minted : Nat) {supply : Nat} (hsupply : 0 < supply) :
    brought ≤ (there + brought) * minted / (supply + minted) ↔
      brought * supply ≤ minted * there := by
  rw [Nat.le_div_iff_mul_le (Nat.add_pos_left hsupply _), Nat.mul_add, Nat.add_mul,
    Nat.add_le_add_iff_right, Nat.mul_comm there]

/-- New shares are worth no more than what was brought if they are covered: the contrapositive of
`le_part_iff`, up to rounding. -/
theorem part_le {there brought supply minted : Nat} (h : minted * there ≤ brought * supply) :
    (there + brought) * minted / (supply + minted) ≤ brought := by
  apply Nat.div_le_of_le_mul
  calc (there + brought) * minted = minted * there + brought * minted := by ring
    _ ≤ brought * supply + brought * minted := Nat.add_le_add_right h _
    _ = (supply + minted) * brought := by ring

/-- A deposit that succeeds follows the rule: the most shares by `le_covered_iff`, their worth by
`part_le`, and where it is all that was brought by `le_part_iff`. -/
theorem mints_of_provide (h : s.Priced) (hprovide : s.provide amounts = .ok (minted, value)) :
    s.Mints amounts minted value := by
  obtain ⟨-, hminted, hvalue⟩ := (provide_eq_ok h).1 hprovide
  have hcovers := (le_covered_iff h).1 (Nat.le_of_eq hminted)
  have hle (side : Side) : (value.get side).val ≤ (amounts.get side).val := by
    rw [hvalue side]
    exact part_le (hcovers side)
  refine ⟨⟨hcovers, fun n hn => ?_⟩, hle, fun side => ?_⟩
  · rw [hminted]
    exact (le_covered_iff h).2 hn
  · -- the value is the whole amount exactly when no rounding took anything from it
    have hbrought :=
      le_part_iff (s.deposits.get side).val (amounts.get side).val minted.val h.shares
    rw [← hvalue side] at hbrought
    have hside := hle side
    have hcover := hcovers side
    rw [Amount.ext_iff]
    omega

end PoolMarket.Snapshot
