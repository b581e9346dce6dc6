import PoolMarket.Pool.Snapshot
import PoolMarket.Proofs.Amount.Parts
import PoolMarket.Proofs.Fees

/-!
# Worth at the rate of a pool

An amount of the asset on one side has a worth in the other if there is any of its own in the pool
and the worth can be counted. So a smaller amount has one too. Both ways round down: nobody gains by
changing to the other asset and back. Shares are worth a part of both reserves, which rounds down
too.

`value_eq_ok` and `shareValue_eq_ok` are the specifications of the two functions of a `Snapshot`;
`value_mono` and `value_back_le` are what routes and round trips are built from, one pool at a time.
-/

namespace PoolMarket.Snapshot

variable {s : Snapshot} {side : Side} {a b v w : Amount} {c c' : Bool}

/-! ## Amounts

With its fees taken off or not, an amount is multiplied with one reserve and divided by the other.
`Fees.net` stands for the first step, so every lemma here is about both kinds of worth. -/

/-- In a pool that has the asset, the worth is one ratio of what the fees leave; the check for an
empty side is passed (`Fees.net`). -/
theorem value_of_pos (h : 0 < (s.deposits.get side).val) :
    s.value side a c = (if c then s.fees.after a else .ok a) >>= fun net =>
      net.mulDiv (s.deposits.get side.opposite) (s.deposits.get side) .down := by
  have hsome : (s.deposits.get side).isZero = false := Amount.isZero_eq_false h
  unfold value
  simp only [hsome]
  cases c with
  | false => rfl
  | true => rfl

/-- When an amount has a worth and what it is. Only an empty side or an oversized result stand
against it, as the fees can always be taken off (`Fees.net_eq_ok`). -/
theorem value_eq_ok :
    s.value side a c = .ok v ↔
      0 < (s.deposits.get side).val ∧
        v.val = s.fees.net a c * (s.deposits.get side.opposite).val / (s.deposits.get side).val := by
  rcases Nat.eq_zero_or_pos (s.deposits.get side).val with hzero | hpos
  · have hnone : s.value side a c = .error .zeroReserve := if_pos (Amount.isZero_iff.2 hzero)
    rw [hnone, hzero]
    simp
  · rw [value_of_pos hpos]
    simp only [Outcome.bind_eq_ok, Fees.net_eq_ok, Amount.mulDiv_eq_ok]
    constructor
    · rintro ⟨net, hnet, -, hv⟩
      exact ⟨hpos, hnet ▸ hv⟩
    · rintro ⟨-, hv⟩
      have hfits := Nat.lt_of_le_of_lt (s.fees.net_le a c) a.lt
      exact ⟨⟨_, hfits⟩, rfl, Nat.ne_of_gt hpos, hv⟩

/-- A smaller amount has a worth where a larger one has, and one that pays the fees where one that
does not; and it is no larger. Existence is part of the statement: the smaller quotient fits because
the larger does (`Fees.net_mono`). -/
theorem value_mono (h : s.value side b c = .ok v) (hab : a ≤ b) (hfees : c ≤ c') :
    ∃ u, s.value side a c' = .ok u ∧ u ≤ v := by
  obtain ⟨hpos, hv⟩ := value_eq_ok.1 h
  have hle : s.fees.net a c' * (s.deposits.get side.opposite).val / (s.deposits.get side).val ≤
      v.val := by
    rw [hv]
    exact Nat.div_le_div_right (Nat.mul_le_mul_right _ (s.fees.net_mono hab hfees))
  exact ⟨⟨_, Nat.lt_of_le_of_lt hle v.lt⟩, value_eq_ok.2 ⟨hpos, rfl⟩, hle⟩

/-- No more than the worth of an amount is worth no more than the amount: the same two reserves,
once as factor and divisor and once the other way round, with two roundings down between them. One
hop of a round trip, as `Market.valueAlong` makes it. -/
theorem value_back_le (hthere : s.value side a c = .ok v) (hbv : b ≤ v)
    (hback : s.value side.opposite b c' = .ok w) : w ≤ a := by
  obtain ⟨hhere, hv⟩ := value_eq_ok.1 hthere
  obtain ⟨hopposite, hw⟩ := value_eq_ok.1 hback
  rw [Side.opposite_opposite] at hw
  have hbv : b.val ≤ v.val := hbv
  show w.val ≤ a.val
  -- the two deposits change places on the way back
  generalize (s.deposits.get side).val = here at *
  generalize (s.deposits.get side.opposite).val = opposite at *
  rw [hw]
  apply Nat.div_le_of_le_mul
  calc s.fees.net b c' * here ≤ v.val * here :=
        Nat.mul_le_mul_right here (Nat.le_trans (s.fees.net_le b c') hbv)
    _ = s.fees.net a c * opposite / here * here := by rw [hv]
    _ ≤ s.fees.net a c * opposite := Nat.div_mul_le_self ..
    _ ≤ a.val * opposite := Nat.mul_le_mul_right opposite (s.fees.net_le a c)
    _ = opposite * a.val := Nat.mul_comm ..

/-! ## Shares

The same for shares, whose worth is a part of both reserves at once. -/

variable {shares : Amount} {value : Both Amount}

/-- Shares are worth their part of each reserve, which is nothing where no shares are issued. By the
branches of `Snapshot.shareValue`. -/
theorem shareValue_eq_ok :
    s.shareValue shares = .ok value ↔
      ∀ side, (value.get side).val = (s.deposits.get side).val * shares.val / s.shares.val := by
  -- without shares the value is zero, as a quotient by zero is
  rcases Nat.eq_zero_or_pos s.shares.val with hzero | hissued
  · have hnone : s.shareValue shares = .ok (.same .zero) := if_pos (Amount.isZero_iff.2 hzero)
    rw [hnone, hzero, Except.ok.injEq]
    simp only [Nat.div_zero]
    constructor
    · rintro rfl (_ | _) <;> rfl
    · exact fun h => Both.ext (Amount.ext (h .first).symm) (Amount.ext (h .second).symm)
  · simp only [shareValue, Amount.isZero_eq_false hissued, Bool.false_eq_true, if_false,
      Outcome.bind_eq_ok, Amount.mulDiv_eq_ok]
    have hne := Nat.ne_of_gt hissued
    constructor
    · rintro ⟨first, ⟨-, hfirst⟩, second, ⟨-, hsecond⟩, hvalue⟩
      cases hvalue
      exact Side.forall_iff.2 ⟨hfirst, hsecond⟩
    · exact fun h => ⟨value.first, ⟨hne, h .first⟩, value.second, ⟨hne, h .second⟩, rfl⟩

/-- No more shares than there are have a worth, since it fits in the reserves
(`Parts.le_reserve`). -/
theorem exists_shareValue (h : shares.val ≤ s.shares.val) :
    ∃ value, s.shareValue shares = .ok value := by
  have hfits (side : Side) :
      (s.deposits.get side).val * shares.val / s.shares.val < Amount.size :=
    Nat.lt_of_le_of_lt (Parts.le_reserve h) (s.deposits.get side).lt
  exact ⟨⟨⟨_, hfits .first⟩, ⟨_, hfits .second⟩⟩,
    shareValue_eq_ok.2 (Side.forall_iff.2 ⟨rfl, rfl⟩)⟩

end PoolMarket.Snapshot
