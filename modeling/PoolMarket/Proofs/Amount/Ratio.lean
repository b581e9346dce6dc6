import Mathlib.Algebra.Order.Floor.Semifield
import Mathlib.Data.Rat.Floor
import PoolMarket.BasisPoints
import PoolMarket.Proofs.Amount.Words

/-!
# Ratios are exact

A ratio `a * b / d` is the rational number, rounded once. Words of 256 bits have room for the
product and for a quotient rounded up, so nothing wraps before the result is found to fit or not. A
share in basis points has its product in 128 bits, and is the same ratio wherever there is room for
that.

* `Amount.neighbour_ratio` — the integer quotient is the rational number rounded.
* `Amount.wideMulDiv?`, `Amount.narrowDividedBy?`, `BasisPoints.narrowApply?` — the three
  computations step by step in words, each proved equal to the definition on natural numbers
  (`wideMulDiv?_eq`, `narrowDividedBy?_eq`, `narrowApply?_eq`).
* `RatiosExact` — all of it over the rational numbers.
-/

namespace PoolMarket

/-- The whole number that a rational number is rounded to. -/
def Rounding.neighbour (r : Rounding) (q : ℚ) : Nat :=
  match r with
  | .down => ⌊q⌋₊
  | .up => ⌈q⌉₊

/-- Dividing natural numbers in a rounding is rounding their rational quotient: floor and ceiling
each have the universal property that `Nat` division has (`Amount.divide_up_le_iff` for the
latter). -/
theorem Rounding.neighbour_div (r : Rounding) (n : Nat) {d : Nat} (hd : 0 < d) :
    r.neighbour ((n : ℚ) / d) = r.divide n d := by
  cases r with
  | down => exact Nat.floor_div_eq_div n d
  | up =>
    have hd' : (0 : ℚ) < d := Nat.cast_pos.2 hd
    -- both are the least number that covers the quotient
    refine eq_of_forall_ge_iff fun b => ?_
    rw [Amount.divide_up_le_iff hd, neighbour, Nat.ceil_le, div_le_iff₀ hd']
    norm_cast

namespace Amount

variable {d : Amount}

/-- The ratio `a * b / d` before it is rounded. -/
def ratio (a b d : Amount) : ℚ := (a.val * b.val : ℚ) / d.val

/-- The quotient that `mulDiv` takes is `ratio`, rounded. -/
theorem neighbour_ratio (a b : Amount) (r : Rounding) (hd : d.val ≠ 0) :
    r.neighbour (a.ratio b d) = r.divide (a.val * b.val) d.val := by
  rw [← r.neighbour_div _ (Nat.pos_of_ne_zero hd), ratio, Nat.cast_mul]

/-! ## Words of 256 bits

The ratio as it is computed where words have 256 bits: a product, a quotient, and a step that
narrows the result. Each step could wrap on its own terms; that none does is `exists_wideProduct`
and `Word.exists_divide?`. -/

/-- A word of 256 bits as an amount, if it is one. -/
def narrow (x : BitVec 256) : Outcome Amount :=
  if max.word 256 < x then .error (.overflow .ratio) else .ok (ofWord (x.setWidth 128))

/-- The ratio in words of 256 bits, `none` if one of them wraps. -/
def wideMulDiv? (a b d : Amount) (r : Rounding) : Option (Outcome Amount) :=
  if d.val = 0 then some (.error .divisionByZero)
  else do
    let product ← Word.mul? (a.word 256) (b.word 256)
    let q ← Word.divide? r product (d.word 256)
    return narrow q

/-- Narrowing takes the number in a word for the amount, or refuses it as too large, exactly as
`ofNatOr` does. -/
theorem narrow_eq (x : BitVec 256) : narrow x = ofNatOr .ratio x.toNat := by
  have hmax : (max.word 256).toNat = size - 1 := toNat_word (by decide) max
  have hlt : max.word 256 < x ↔ size ≤ x.toNat := by
    have hlast : size - 1 + 1 = size := rfl
    rw [BitVec.lt_def, hmax, ← Nat.succ_le_iff, Nat.succ_eq_add_one, hlast]
  unfold narrow ofNatOr
  by_cases h : max.word 256 < x
  · have hlarge : ofNat? x.toNat = none := ofNat?_eq_none_iff.2 (hlt.1 h)
    rw [if_pos h, hlarge]
  · have hlow : (x.setWidth 128).toNat = x.toNat := by
      rw [BitVec.toNat_setWidth]
      exact Nat.mod_eq_of_lt (Nat.lt_of_not_le (mt hlt.2 h))
    have hfits : ofNat? x.toNat = some (ofWord (x.setWidth 128)) := ofNat?_eq_some_iff.2 hlow
    rw [if_neg h, hfits]

/-- The product of two amounts has room in 256 bits: each has 128 of them. -/
theorem exists_wideProduct (a b : Amount) :
    ∃ x, Word.mul? (a.word 256) (b.word 256) = some x ∧ x.toNat = a.val * b.val := by
  have hroom : size * size = 2 ^ 256 := by decide
  have hlt : a.val * b.val < 2 ^ 256 := hroom ▸ Nat.mul_lt_mul'' a.lt b.lt
  have hx : (BitVec.ofNat 256 (a.val * b.val)).toNat = a.val * b.val := Word.toNat_ofNat_of_lt hlt
  refine ⟨_, Word.mul?_eq_some.2 ?_, hx⟩
  rw [hx, toNat_word (by decide), toNat_word (by decide)]

/-- In words of 256 bits the ratio never wraps, and is the one that `mulDiv` defines, faults
included. -/
theorem wideMulDiv?_eq (a b d : Amount) (r : Rounding) :
    a.wideMulDiv? b d r = some (a.mulDiv b d r) := by
  unfold wideMulDiv? mulDiv
  by_cases hd : d.val = 0
  · rw [if_pos hd, if_pos hd]
  · obtain ⟨product, hproduct, hval⟩ := exists_wideProduct a b
    obtain ⟨q, hq, hquotient⟩ := Word.exists_divide? r hval (toNat_word (by decide) d) hd
    rw [if_neg hd, if_neg hd, hproduct, ← hquotient, ← narrow_eq]
    simp only [Option.bind_eq_bind, Option.bind_some, hq]
    rfl

/-! ## Words of 128 bits

Half the width is enough for a quotient, which is no larger than its dividend, but not for a
product: that is why a share of an amount can overflow where the ratio would not. -/

/-- The quotient in words of 128 bits, `none` if one of them wraps. -/
def narrowDividedBy? (a d : Amount) (r : Rounding) : Option (Outcome Amount) :=
  if d.val = 0 then some (.error .divisionByZero)
  else (Word.divide? r (a.word 128) (d.word 128)).map fun q => .ok (ofWord q)

/-- In words of 128 bits a quotient never wraps (`Word.exists_divide?`), and is `dividedBy`. -/
theorem narrowDividedBy?_eq (a d : Amount) (r : Rounding) :
    a.narrowDividedBy? d r = some (a.dividedBy d r) := by
  unfold narrowDividedBy? dividedBy div?
  by_cases hd : d.val = 0
  · rw [if_pos hd, if_pos hd]
  · obtain ⟨q, hq, hquotient⟩ :=
      Word.exists_divide? r (toNat_word (Nat.le_refl 128) a) (toNat_word (Nat.le_refl 128) d) hd
    have hfits : ofNat? (r.divide a.val d.val) = some (ofWord q) := ofNat?_eq_some_iff.2 hquotient
    rw [if_neg hd, if_neg hd, hq, hfits, Option.map_some]

/-- A quotient is a ratio of which one factor is one; it fits without being asked
(`Rounding.divide_le`), so their faults agree as well. -/
theorem dividedBy_eq_mulDiv (a d : Amount) (r : Rounding) :
    a.dividedBy d r = a.mulDiv (.ofUInt32 1) d r := by
  have hone : (ofUInt32 1).val = 1 := rfl
  unfold dividedBy div? mulDiv
  by_cases hd : d.val = 0
  · rw [if_pos hd, if_pos hd]
  · have hlt : r.divide a.val d.val < size :=
      Nat.lt_of_le_of_lt (r.divide_le (Nat.pos_of_ne_zero hd)) a.lt
    have hfits : ofNat? (r.divide a.val d.val) = some ⟨_, hlt⟩ := ofNat?_eq_some_iff.2 rfl
    rw [if_neg hd, if_neg hd, hone, Nat.mul_one, ofNatOr, hfits]

end Amount

/-! ## Shares in basis points

A share is a ratio with the whole as its divisor, taken through a product that has to be an amount.
Both answers to whether it is one are stated here, and together they are `apply`. -/

namespace BasisPoints

variable {a : Amount} {b : BasisPoints}

/-- A share with room for its product is the ratio of the amount and the basis points to the whole
(`Amount.dividedBy_eq_mulDiv`). -/
theorem apply_of_lt (h : a.val * b.val < Amount.size) (r : Rounding) :
    b.apply a r = a.mulDiv b.toAmount wholeAmount r := by
  have hproduct : a.mul? b.toAmount = some ⟨a.val * b.val, h⟩ := Amount.ofNat?_eq_some_iff.2 rfl
  have hone : (Amount.ofUInt32 1).val = 1 := rfl
  rw [apply, hproduct]
  show Amount.dividedBy _ wholeAmount r = _
  rw [Amount.dividedBy_eq_mulDiv, Amount.mulDiv, Amount.mulDiv, hone, Nat.mul_one]
  rfl

/-- A share without room for its product overflows, also where the ratio itself would fit. This is
where `apply` and `mulDiv` part. -/
theorem apply_of_le (h : Amount.size ≤ a.val * b.val) (r : Rounding) :
    b.apply a r = .error (.overflow .basisPointsProduct) := by
  have hproduct : a.mul? b.toAmount = none := Amount.ofNat?_eq_none_iff.2 h
  rw [apply, hproduct]

/-- The share in words of 128 bits, `none` if its quotient wraps. That its product does, is noticed. -/
def narrowApply? (b : BasisPoints) (a : Amount) (r : Rounding) : Option (Outcome Amount) :=
  match Word.mul? (a.word 128) (b.toAmount.word 128) with
  | none => some (.error (.overflow .basisPointsProduct))
  | some product => (Amount.ofWord product).narrowDividedBy? wholeAmount r

/-- In words of 128 bits the product that wraps is noticed (`Word.mul?_eq_none`), and everything
else is exact, so the computation is `apply`. -/
theorem narrowApply?_eq (b : BasisPoints) (a : Amount) (r : Rounding) :
    b.narrowApply? a r = some (b.apply a r) := by
  have ha : (a.word 128).toNat = a.val := Amount.toNat_word (by decide) a
  have hb : (b.toAmount.word 128).toNat = b.val := Amount.toNat_word (by decide) b.toAmount
  unfold narrowApply? apply
  cases hproduct : Word.mul? (a.word 128) (b.toAmount.word 128) with
  | none =>
    rw [Word.mul?_eq_none, ha, hb] at hproduct
    have hlarge : a.mul? b.toAmount = none := Amount.ofNat?_eq_none_iff.2 hproduct
    rw [hlarge]
  | some product =>
    rw [Word.mul?_eq_some, ha, hb] at hproduct
    have hfits : a.mul? b.toAmount = some (Amount.ofWord product) :=
      Amount.ofNat?_eq_some_iff.2 hproduct
    rw [hfits]
    exact Amount.narrowDividedBy?_eq _ _ r

end BasisPoints

/-- A ratio is the rational number rounded once, or refused for being none or too large, and so
is a share. Neither wraps on the way there. The fields are stated with `Rounding.neighbour`,
floor or ceiling of a rational number, so that no integer division stands between them and what
they promise. -/
structure RatiosExact : Prop where
  byZero : ∀ (a b d : Amount) (r : Rounding),
    a.mulDiv b d r = .error .divisionByZero ↔ d.val = 0
  exact : ∀ (a b d : Amount) (r : Rounding) (c : Amount),
    a.mulDiv b d r = .ok c ↔ d.val ≠ 0 ∧ c.val = r.neighbour (a.ratio b d)
  fits : ∀ (a b d : Amount) (r : Rounding),
    (∃ c, a.mulDiv b d r = .ok c) ↔ d.val ≠ 0 ∧ r.neighbour (a.ratio b d) < 2 ^ 128
  tooLarge : ∀ (a b d : Amount) (r : Rounding),
    a.mulDiv b d r = .error (.overflow .ratio) ↔ d.val ≠ 0 ∧ 2 ^ 128 ≤ r.neighbour (a.ratio b d)
  /-- Words of 256 bits come to the same, and none of them wraps. -/
  wide : ∀ (a b d : Amount) (r : Rounding), a.wideMulDiv? b d r = some (a.mulDiv b d r)
  share : ∀ (b : BasisPoints) (a : Amount) (r : Rounding), b.apply a r =
    if a.val * b.val < 2 ^ 128 then a.mulDiv b.toAmount BasisPoints.wholeAmount r
    else .error (.overflow .basisPointsProduct)
  /-- A quotient is the ratio with one as the other factor, in 128 bits as well. -/
  quotient : ∀ (a d : Amount) (r : Rounding), a.dividedBy d r = a.mulDiv (.ofUInt32 1) d r ∧
    a.narrowDividedBy? d r = some (a.dividedBy d r)
  narrow : ∀ (b : BasisPoints) (a : Amount) (r : Rounding),
    b.narrowApply? a r = some (b.apply a r)

theorem ratiosExact : RatiosExact where
  byZero _ _ _ _ := Amount.mulDiv_eq_divisionByZero
  exact a b d r c := by
    rw [Amount.mulDiv_eq_ok]
    exact and_congr_right fun hd => by rw [Amount.neighbour_ratio a b r hd]
  fits a b d r := by
    rw [Amount.exists_mulDiv]
    refine and_congr_right fun hd => ?_
    rw [Amount.neighbour_ratio a b r hd]
    rfl
  tooLarge a b d r := by
    rw [Amount.mulDiv_eq_overflow]
    refine and_congr_right fun hd => ?_
    rw [Amount.neighbour_ratio a b r hd]
    rfl
  wide := Amount.wideMulDiv?_eq
  share b a r := by
    split
    · next hlt => exact BasisPoints.apply_of_lt hlt r
    · next hle => exact BasisPoints.apply_of_le (Nat.le_of_not_lt hle) r
  quotient a d r := ⟨a.dividedBy_eq_mulDiv d r, a.narrowDividedBy?_eq d r⟩
  narrow := BasisPoints.narrowApply?_eq

/-- Half a unit more than the largest amount is that amount rounded down, and none rounded up. -/
example : let b : Amount := ⟨97223533405982418132392744980505203273, by decide⟩
    Amount.mulDiv (.ofUInt32 7) b (.ofUInt32 2) .down = .ok .max ∧
      Amount.mulDiv (.ofUInt32 7) b (.ofUInt32 2) .up = .error (.overflow .ratio) := by
  decide +kernel

end PoolMarket
