import Mathlib.Data.List.Forall2
import PoolMarket.Proofs.Pool.Worth

/-!
# What the holders of shares own

The supply of a pool may be spread over any number of holders, of any size. What their shares are
worth can always be counted and fits in the reserves. If they hold all shares, the reserves exceed
it by less than one unit for each holder, which is what rounding keeps back.

`Values` pairs every holding with its worth, `total` adds these up on one side, and
`Values.total_eq` turns the sum into one of `Parts`, whose two bounds are the result.
-/

namespace PoolMarket.Snapshot

/-- What the shares of several holders are worth, one by one. -/
def Values (s : Snapshot) (holdings : List Amount) (values : List (Both Amount)) : Prop :=
  List.Forall₂ (fun shares value => s.shareValue shares = .ok value) holdings values

/-- What values come to on one side. -/
def total (values : List (Both Amount)) (side : Side) : Nat :=
  (values.map fun value => (value.get side).val).sum

variable {s : Snapshot} {holdings : List Amount} {values : List (Both Amount)}

/-- Every holding has a worth if all together are within the supply: each one is
(`exists_shareValue`). By induction on the holdings. -/
theorem exists_values (hsum : (holdings.map Amount.val).sum ≤ s.shares.val) :
    ∃ values, s.Values holdings values := by
  induction holdings with
  | nil => exact ⟨[], .nil⟩
  | cons shares rest ih =>
    rw [List.map_cons, List.sum_cons] at hsum
    have hle : shares.val ≤ s.shares.val := by omega
    obtain ⟨value, hvalue⟩ := exists_shareValue hle
    obtain ⟨values, hvalues⟩ := ih (by omega)
    exact ⟨value :: values, .cons hvalue hvalues⟩

/-- On either side the values are the holders' parts of the reserve, so their sum is one that
`Parts` bounds. -/
theorem Values.total_eq (h : s.Values holdings values) (side : Side) :
    total values side = ((holdings.map Amount.val).map fun shares =>
      (s.deposits.get side).val * shares / s.shares.val).sum := by
  unfold Values at h
  induction h with
  | nil => rfl
  | cons hvalue _ ih =>
    rw [List.map_cons, List.map_cons, List.sum_cons, ← ih, ← shareValue_eq_ok.1 hvalue side]
    rfl

/-- Holders within the supply own no more than the reserve (`Parts.sum_mul_le`). -/
theorem Values.total_le (h : s.Values holdings values) (hissued : 0 < s.shares.val)
    (hsum : (holdings.map Amount.val).sum ≤ s.shares.val) (side : Side) :
    total values side ≤ (s.deposits.get side).val := by
  rw [h.total_eq]
  refine Nat.le_of_mul_le_mul_right ?_ hissued
  exact Nat.le_trans (Parts.sum_mul_le _) (Nat.mul_le_mul_left _ hsum)

/-- Holders of all shares miss less than a unit each (`Parts.add_length_le_sum_mul`). -/
theorem Values.lt_total_add (h : s.Values holdings values) (hissued : 0 < s.shares.val)
    (hsome : holdings ≠ []) (hall : (holdings.map Amount.val).sum = s.shares.val) (side : Side) :
    (s.deposits.get side).val < total values side + holdings.length := by
  have hparts := @Parts.add_length_le_sum_mul (s.deposits.get side).val _ hissued
    (holdings.map Amount.val)
  rw [← h.total_eq, hall, List.length_map] at hparts
  have hholder : 0 < holdings.length := List.length_pos_iff.2 hsome
  exact Nat.lt_of_mul_lt_mul_right (a := s.shares.val) (by omega)

/-- However some or all of the shares are spread over holders, what each holds has a worth, and all
together are worth no more than the reserves. They are worth the reserves but for less than one unit
a holder if they hold all shares, and exactly that if there is only one. What each is worth is found
by `exists_values`; the two bounds are those of `Proofs/Amount/Parts`, on either side. -/
theorem holdings_fit (s : Snapshot) (holdings : List Amount) (hissued : 0 < s.shares.val)
    (hsome : holdings ≠ []) (hsum : (holdings.map Amount.val).sum ≤ s.shares.val) :
    ∃ values, s.Values holdings values ∧ ∀ side,
      total values side ≤ (s.deposits.get side).val ∧
      ((holdings.map Amount.val).sum = s.shares.val →
        (s.deposits.get side).val - total values side < holdings.length ∧
        (holdings.length = 1 → total values side = (s.deposits.get side).val)) := by
  obtain ⟨values, hvalues⟩ := exists_values hsum
  refine ⟨values, hvalues, fun side => ?_⟩
  have hle := hvalues.total_le hissued hsum side
  refine ⟨hle, fun hall => ?_⟩
  have hlt := hvalues.lt_total_add hissued hsome hall side
  omega

/-! ### Three holders of seven shares

One side of the pool is as large as amounts get, and no holding divides the other. -/

namespace Sample

def largest : Snapshot := ⟨⟨.max, .ofUInt32 1000⟩, .ofUInt32 7, .zero⟩

def threeHolders : List Amount := [.ofUInt32 1, .ofUInt32 2, .ofUInt32 4]

theorem holdings_fit_three :
    (0 < largest.shares.val ∧ threeHolders ≠ [] ∧
        (threeHolders.map Amount.val).sum = largest.shares.val) ∧
      ∃ values, largest.Values threeHolders values ∧ ∀ side,
        total values side ≤ (largest.deposits.get side).val ∧
        (largest.deposits.get side).val - total values side < 3 := by
  have hissued : 0 < largest.shares.val := by decide
  have hsome : threeHolders ≠ [] := by decide
  have hall : (threeHolders.map Amount.val).sum = largest.shares.val := by decide
  obtain ⟨values, hvalues, hfits⟩ :=
    holdings_fit largest threeHolders hissued hsome (Nat.le_of_eq hall)
  exact ⟨⟨hissued, hsome, hall⟩, values, hvalues,
    fun side => ⟨(hfits side).1, ((hfits side).2 hall).1⟩⟩

end Sample

end PoolMarket.Snapshot
