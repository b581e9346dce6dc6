import Mathlib.Tactic.Ring
import PoolMarket.Proofs.Chain.Shares

/-!
# Two transactions in place of one

Whoever splits a deposit or a withdrawal in two gains nothing by it. A second deposit finds shares
with no less behind them than the first one did, so it mints no more than it would have minted
before; a second withdrawal takes a part of what the first one has left.

For deposits the two cases are a pool without shares, where what counts is a root, and one with
shares, where it is `Undiluted`. For withdrawals all rests on `Parts.add_le`.
-/

namespace PoolMarket.Chain

namespace Pool

variable {p q r w : Pool} {a b c : Both Amount} {s t u : Amount}

/-- One amount is the sum of two others, on either side. -/
def Sums (a b c : Both Amount) : Prop :=
  ∀ side, (c.get side).val = (a.get side).val + (b.get side).val

instance (a b c : Both Amount) : Decidable (Sums a b c) :=
  decidable_of_iff ((c.get .first).val = (a.get .first).val + (b.get .first).val ∧
      (c.get .second).val = (a.get .second).val + (b.get .second).val)
    (by rw [Sums, Side.forall_iff])

/-! ## Deposits

What a deposit mints is the most that it covers (`le_minted_iff`), so it is enough to show that the
shares of both deposits together are covered by their sum in the pool as it was at first. -/

/-- Shares whose part a deposit covers are covered by it also where a share has less behind it. This
carries the second deposit back to the pool before the first. To be covered is what `le_minted_iff`
says of minted shares. -/
theorem Undiluted.covers (h : p.Undiluted q) {side : Side} {n amount : Nat}
    (hpos : 0 < (q.reserves.get side).val)
    (hcovers : n * (q.reserves.get side).val ≤ amount * q.shares.val) :
    n * (p.reserves.get side).val ≤ amount * p.shares.val := by
  apply Nat.le_of_mul_le_mul_right _ hpos
  calc n * (p.reserves.get side).val * (q.reserves.get side).val
      = (p.reserves.get side).val * (n * (q.reserves.get side).val) := by ring
    _ ≤ (p.reserves.get side).val * (amount * q.shares.val) := Nat.mul_le_mul_left _ hcovers
    _ = amount * ((p.reserves.get side).val * q.shares.val) := by ring
    _ ≤ amount * ((q.reserves.get side).val * p.shares.val) := Nat.mul_le_mul_left _ (h side)
    _ = amount * p.shares.val * (q.reserves.get side).val := by ring

/-- The pool after a first deposit holds what was deposited and has issued the root of it
(`sharesFor_of_unissued`, `grow_get`). -/
theorem deposit_of_unissued (hp : p.Backed) (hunissued : p.shares.val = 0)
    (h : (deposit a).on p = (.ok s, q)) :
    s = a.first.rootOfProduct a.second ∧ 0 < s.val ∧ q.shares.val = s.val ∧
      ∀ side, (q.reserves.get side).val = (a.get side).val := by
  obtain ⟨hminted, hgrow⟩ := deposit_eq_ok.1 h
  obtain ⟨hroot, hlarge⟩ := (sharesFor_of_unissued hunissued).1 hminted
  refine ⟨hroot, by omega, by rw [(grow_eq_ok.1 hgrow).2.2.1, hunissued, Nat.zero_add],
    fun side => ?_⟩
  rw [grow_get hgrow side, hp.reserve_eq_zero hunissued, Nat.zero_add]

/-- The shares that a second deposit mints after the first one of all were covered by it before. On
either side all shares have no more of what was brought than the first ones had of theirs, so the
square of their sum is within the product of the sums (`Amount.le_rootOfProduct_iff`). -/
theorem add_le_root_of_deposits (hp : p.Backed) (hunissued : p.shares.val = 0)
    (hfirst : (deposit a).on p = (.ok s, q)) (hsecond : (deposit b).on q = (.ok t, r))
    (hsum : Sums a b c) : s.val + t.val ≤ (c.first.rootOfProduct c.second).val := by
  obtain ⟨hroot, hpos, hshares, hreserves⟩ := deposit_of_unissued hp hunissued hfirst
  -- on either side, all shares have no more of what was brought than the first ones had of theirs
  have hside (side : Side) :
      (s.val + t.val) * (a.get side).val ≤ s.val * (c.get side).val := by
    have hpart := (le_minted_iff (by omega) (deposit_eq_ok.1 hsecond).1).1 (Nat.le_refl _) side
    rw [hreserves, hshares] at hpart
    rw [hsum side, Nat.add_mul, Nat.mul_add, Nat.mul_comm s.val (b.get side).val]
    exact Nat.add_le_add_left hpart _
  have hsquare : s.val * s.val ≤ (a.get .first).val * (a.get .second).val := by
    rw [hroot]
    exact Amount.rootOfProduct_mul_self_le ..
  have hproduct : 0 < (a.get .first).val * (a.get .second).val :=
    Nat.lt_of_lt_of_le (Nat.mul_pos hpos hpos) hsquare
  rw [Amount.le_rootOfProduct_iff]
  apply Nat.le_of_mul_le_mul_right _ hproduct
  calc (s.val + t.val) * (s.val + t.val) * ((a.get .first).val * (a.get .second).val)
      = (s.val + t.val) * (a.get .first).val * ((s.val + t.val) * (a.get .second).val) := by ring
    _ ≤ s.val * (c.get .first).val * (s.val * (c.get .second).val) :=
        Nat.mul_le_mul (hside .first) (hside .second)
    _ = (c.get .first).val * (c.get .second).val * (s.val * s.val) := by ring
    _ ≤ (c.get .first).val * (c.get .second).val *
          ((a.get .first).val * (a.get .second).val) := Nat.mul_le_mul_left _ hsquare

/-- Two deposits mint no more than one of both: into a pool without shares by
`add_le_root_of_deposits`, into one with shares by `Undiluted.covers`. -/
theorem deposit_split (hp : p.Backed) (hfirst : (deposit a).on p = (.ok s, q))
    (hsecond : (deposit b).on q = (.ok t, r)) (hwhole : (deposit c).on p = (.ok u, w))
    (hsum : Sums a b c) : s.val + t.val ≤ u.val := by
  by_cases hissued : p.shares.val = 0
  · rw [(deposit_of_unissued hp hissued hwhole).1]
    exact add_le_root_of_deposits hp hissued hfirst hsecond hsum
  · -- the first part does not lower what a share is worth, so the second is covered as well
    have hundiluted := undiluted_deposit (Nat.pos_of_ne_zero hissued) hfirst
    obtain ⟨hs, hgrow⟩ := deposit_eq_ok.1 hfirst
    obtain ⟨ht, -⟩ := deposit_eq_ok.1 hsecond
    have hqissued : q.shares.val ≠ 0 := by
      rw [(grow_eq_ok.1 hgrow).2.2.1]
      omega
    obtain ⟨hreserves, -⟩ := (sharesFor_of_issued hqissued).1 ht
    have hpos : ∀ side, 0 < (q.reserves.get side).val := Side.forall_iff.2 hreserves
    refine (le_minted_iff hissued (deposit_eq_ok.1 hwhole).1).2 fun side => ?_
    rw [hsum side, Nat.add_mul, Nat.add_mul]
    exact Nat.add_le_add ((le_minted_iff hissued hs).1 (Nat.le_refl _) side)
      (hundiluted.covers (hpos side) ((le_minted_iff hqissued ht).1 (Nat.le_refl _) side))

/-! ## Withdrawals

-/

/-- What is there can be withdrawn at once or in two, and in two it pays no more (`Parts.add_le` on
either side). That all three withdrawals succeed is part of the statement. -/
theorem withdraw_split (hsum : u.val = s.val + t.val) (hsupply : u.val ≤ p.shares.val) :
    ∃ first second whole q r w, (withdraw s).on p = (.ok (Coin.forPair p.assets first), q) ∧
      (withdraw t).on q = (.ok (Coin.forPair p.assets second), r) ∧
      (withdraw u).on p = (.ok (Coin.forPair p.assets whole), w) ∧
      ∀ side, (first.get side).val + (second.get side).val ≤ (whole.get side).val := by
  have hs : s.val ≤ p.shares.val := by omega
  obtain ⟨first, hfirst⟩ := exists_worth hs
  obtain ⟨q, hq⟩ := withdraw_eq_ok.2 ⟨hs, shareValue_eq_ok.2 ⟨first, hfirst, rfl⟩⟩
  obtain ⟨-, -, -, -, hleft, hassets, -⟩ := withdraw_ok hq
  have ht : t.val ≤ q.shares.val := by omega
  obtain ⟨second, hsecond⟩ := exists_worth ht
  obtain ⟨r, hr⟩ := withdraw_eq_ok.2 ⟨ht, shareValue_eq_ok.2 ⟨second, hsecond, rfl⟩⟩
  obtain ⟨whole, hwhole⟩ := exists_worth hsupply
  obtain ⟨w, hw⟩ := withdraw_eq_ok.2 ⟨hsupply, shareValue_eq_ok.2 ⟨whole, hwhole, rfl⟩⟩
  rw [hassets] at hr
  refine ⟨first, second, whole, q, r, w, hq, hr, hw, fun side => ?_⟩
  rw [worth_eq_ok.1 hfirst side, worth_eq_ok.1 hsecond side, worth_eq_ok.1 hwhole side,
    withdraw_get hq side, hleft, hsum]
  exact Parts.add_le (by omega)

end Pool

namespace Ledger

/-- On every chain: two deposits at a contract, whether or not shares have been issued before, mint
no more than one of the same amounts together. And of the shares that there are, so many withdrawn
and then so many more pay no more of either asset than all of them withdrawn at once. On one pool
these are `deposit_split` and `withdraw_split`, which hold of every backed one. -/
theorem run_splitGainsNothing (factory router : Addr) (history : List Call) (contract : Addr) :
    (∀ (a b c : Both Amount) (s t u : Amount) (n m k : Ledger), Pool.Sums a b c →
        ((new factory router).run history).deposit contract a = .ok (s, n) →
        n.deposit contract b = .ok (t, m) →
        ((new factory router).run history).deposit contract c = .ok (u, k) →
        s.val + t.val ≤ u.val) ∧
      ∀ (p : Pool) (s t u : Amount),
        ((new factory router).run history).pools[contract]? = some p →
        u.val = s.val + t.val → u ≤ p.shares →
        ∃ (first second whole : Both Coin) (n m k : Ledger),
          ((new factory router).run history).withdraw contract s = .ok (first, n) ∧
          n.withdraw contract t = .ok (second, m) ∧
          ((new factory router).run history).withdraw contract u = .ok (whole, k) ∧
          first.first.amount.val + second.first.amount.val ≤ whole.first.amount.val ∧
          first.second.amount.val + second.second.amount.val ≤ whole.second.amount.val := by
  have hcoherent := (coherent_new factory router).run history
  generalize (new factory router).run history = l at hcoherent ⊢
  constructor
  · intro a b c s t u n m k hsum hfirst hsecond hwhole
    obtain ⟨p, q, hp, hs, rfl⟩ := update_eq_ok.1 hfirst
    obtain ⟨q', r, hq, ht, -⟩ := update_eq_ok.1 hsecond
    rw [Std.TreeMap.getElem?_insert_self, Option.some.injEq] at hq
    subst hq
    obtain ⟨p', w, hp', hu, -⟩ := update_eq_ok.1 hwhole
    rw [hp, Option.some.injEq] at hp'
    subst hp'
    exact Pool.deposit_split (hcoherent.backed contract p hp) hs ht hu hsum
  · intro p s t u hp hsum hsupply
    obtain ⟨first, second, whole, q, r, w, hs, ht, hu, hle⟩ := Pool.withdraw_split hsum hsupply
    obtain ⟨n, hn, hq⟩ := exists_update hp hs
    obtain ⟨m, hm, -⟩ := exists_update hq ht
    obtain ⟨k, hk, -⟩ := exists_update hp hu
    exact ⟨_, _, _, n, m, k, hn, hm, hk, hle .first, hle .second⟩

end Ledger

namespace Sample

open Deployment (factory router)

def more : Both Amount := ⟨.ofUInt32 500, .ofUInt32 500⟩

def together : Both Amount := ⟨.ofUInt32 1501, .ofUInt32 1503⟩

/-- A new pool is filled in two deposits, which lose a share, and some shares of a filled one are
withdrawn in two, which lose a unit of the first asset. -/
theorem splitGainsNothing_listed_opened :
    (Pool.Sums balanced more together ∧ ∃ n m k : Ledger,
        ((Ledger.new factory router).run listed).deposit contract balanced =
          .ok (.ofUInt32 1001, n) ∧
        n.deposit contract more = .ok (.ofUInt32 499, m) ∧
        ((Ledger.new factory router).run listed).deposit contract together =
          .ok (.ofUInt32 1501, k) ∧
        (Amount.ofUInt32 1001).val + (Amount.ofUInt32 499).val ≤ (Amount.ofUInt32 1501).val) ∧
      (((Ledger.new factory router).run opening).pools[contract]? = some opened ∧
        Amount.ofUInt32 9 ≤ opened.shares ∧
        ∃ (first second whole : Both Coin) (n m k : Ledger),
          ((Ledger.new factory router).run opening).withdraw contract (.ofUInt32 4) =
            .ok (first, n) ∧
          n.withdraw contract (.ofUInt32 5) = .ok (second, m) ∧
          ((Ledger.new factory router).run opening).withdraw contract (.ofUInt32 9) =
            .ok (whole, k) ∧
          first.first.amount.val + second.first.amount.val ≤ whole.first.amount.val ∧
          first.second.amount.val + second.second.amount.val ≤ whole.second.amount.val) := by
  have hsum : Pool.Sums balanced more together := by decide
  have hbalanced : (Pool.deposit balanced).on (.new assets fees) =
      (.ok (.ofUInt32 1001), ⟨assets, balanced, .ofUInt32 1001, fees⟩) := by decide +kernel
  have hmore : (Pool.deposit more).on ⟨assets, balanced, .ofUInt32 1001, fees⟩ =
      (.ok (.ofUInt32 499), ⟨assets, together, .ofUInt32 1500, fees⟩) := by decide +kernel
  have htogether : (Pool.deposit together).on (.new assets fees) =
      (.ok (.ofUInt32 1501), ⟨assets, together, .ofUInt32 1501, fees⟩) := by decide +kernel
  obtain ⟨n, hfirst, hfilled⟩ := Ledger.exists_update pool_listed hbalanced
  obtain ⟨m, hsecond, -⟩ := Ledger.exists_update hfilled hmore
  obtain ⟨k, hwhole, -⟩ := Ledger.exists_update pool_listed htogether
  obtain ⟨hdeposits, -⟩ :=
    Ledger.run_splitGainsNothing factory router listed contract
  obtain ⟨-, hwithdrawals⟩ := Ledger.run_splitGainsNothing factory router opening contract
  refine ⟨⟨hsum, n, m, k, hfirst, hsecond, hwhole, ?_⟩, pool_opening, by decide, ?_⟩
  · exact hdeposits _ _ _ _ _ _ _ _ _ hsum hfirst hsecond hwhole
  · exact hwithdrawals opened _ _ _ pool_opening rfl (by decide)

end Sample

end PoolMarket.Chain
