import PoolMarket.Proofs.Amount.Words
import PoolMarket.Proofs.Fees

/-!
# Fees can always be charged

Two shares are fees if they are at most the whole together. From then on nothing about them fails:
their sum has room in its word, and every amount can be charged and has the fees taken off. What is
left of an amount, rounded down, and the fee, rounded up, are the amount. So taking the fees off it
in one go and subtracting the fee from it differ by one unit where the fee is rounded, and else not
at all.

* `add?_word`, `sub?_word` — the sums and differences of shares in their machine words.
* `share_add_share` — a part rounded down and the rest rounded up are everything.
* `Deducts`, `exists_deducts` — all that fees do to one amount, which there always is.
-/

namespace PoolMarket

/-- Basis points in a word of 32 bits. -/
def BasisPoints.word (b : BasisPoints) : BitVec 32 := BitVec.ofNat 32 b.val

@[simp] theorem BasisPoints.toNat_word (b : BasisPoints) : b.word.toNat = b.val :=
  Word.toNat_ofNat_of_lt b.lt

namespace Fees

variable {f : Fees} {x y left total maker : Amount}

/-! ## Making fees

The two constructors refuse shares that are too much and succeed otherwise; in words of 32 bits
neither the sum of two shares that are fees nor the difference they are made from can wrap. -/

/-- Two shares are fees exactly if they are at most the whole together (`Fees.total_le`). -/
theorem exists_ofParts {maker pool : BasisPoints} :
    (∃ f, ofParts maker pool = .ok f) ↔ maker.val + pool.val ≤ BasisPoints.whole := by
  constructor
  · rintro ⟨f, h⟩
    obtain ⟨rfl, rfl⟩ := ofParts_eq_ok.1 h
    exact f.total_le
  · exact fun h => ⟨⟨maker, pool, h⟩, ofParts_eq_ok.2 ⟨rfl, rfl⟩⟩

/-- A sum and the maker's share make fees exactly if the sum is at most the whole and covers that
share; where they do not, `ofTotal_of_lt` and `ofTotal_of_whole_lt` say how it is refused. -/
theorem exists_ofTotal {total maker : BasisPoints} :
    (∃ f, ofTotal total maker = .ok f) ↔
      maker.val ≤ total.val ∧ total.val ≤ BasisPoints.whole := by
  constructor
  · rintro ⟨f, h⟩
    obtain ⟨rfl, htotal⟩ := ofTotal_eq_ok.1 h
    rw [← htotal]
    exact ⟨Nat.le_add_right .., f.total_le⟩
  · rintro ⟨hmaker, hwhole⟩
    have hsum : maker.val + (total.val - maker.val) = total.val := Nat.add_sub_cancel' hmaker
    have hpool : total.val - maker.val < BasisPoints.size :=
      Nat.lt_of_le_of_lt (Nat.sub_le ..) total.lt
    exact ⟨⟨maker, ⟨_, hpool⟩, hsum.trans_le hwhole⟩, ofTotal_eq_ok.2 ⟨rfl, hsum⟩⟩

/-- The sum of the two shares does not wrap (`Word.add?_eq_some`). -/
theorem add?_word (f : Fees) : Word.add? f.maker.word f.pool.word = some f.total.word := by
  rw [Word.add?_eq_some]
  simp only [BasisPoints.toNat_word]
  rfl

/-- Neither does what is left of the sum without the maker's share (`Word.sub?_eq_some`). -/
theorem sub?_word {total maker : BasisPoints} (h : ofTotal total maker = .ok f) :
    Word.sub? total.word maker.word = some f.pool.word := by
  obtain ⟨rfl, htotal⟩ := ofTotal_eq_ok.1 h
  rw [Word.sub?_eq_some]
  simp only [BasisPoints.toNat_word]
  omega

/-! ## Charging them

The fee is rounded down and so is what is left, which is why they need not add up to the amount.
How far they are apart is exact: by nothing where the division is, and by one unit otherwise
(`sub_total`). -/

/-- Taking the fees off an amount never fails (`after_eq_portion`). -/
theorem exists_after (f : Fees) (x : Amount) : ∃ left, f.after x = .ok left := by
  rw [after_eq_portion]
  exact exists_portion (Nat.sub_le ..) x

/-- Two parts of the whole, one rounded down and the other up, split an amount: their remainders are
opposite, so either both divisions are exact or one unit is rounded off here and up there.
`Fees.after` and `Fees.charged` are two such parts (`kept_add_total`). -/
theorem share_add_share {n keep take : Nat} (h : keep + take = BasisPoints.whole) :
    n * keep / BasisPoints.whole + Rounding.up.divide (n * take) BasisPoints.whole = n := by
  have hwhole : BasisPoints.whole = 10000 := rfl
  rw [hwhole] at h ⊢
  have hsum : n * keep + n * take = n * 10000 := by rw [← Nat.mul_add, h]
  -- the remainders of the two products add up to nothing, or to one whole
  simp only [Rounding.divide]
  split <;> omega

/-- How what is left compares with what a subtraction of the fee leaves. The fee rounded up would be
exactly what is missing (`share_add_share`); it is rounded down, which makes the one unit where it
is not whole. -/
theorem sub_total (hleft : f.after x = .ok left) (hcharged : f.charged x = .ok (total, maker)) :
    x.val - total.val =
      left.val + if BasisPoints.whole ∣ x.val * f.total.val then 0 else 1 := by
  have hsplit := share_add_share (n := x.val) f.kept_add_total
  rw [← after_eq_ok.1 hleft] at hsplit
  obtain ⟨htotal, -⟩ := charged_eq_ok.1 hcharged
  simp only [Rounding.divide, ← htotal, ← Nat.dvd_iff_mod_eq_zero] at hsplit
  split at hsplit
  · next hwhole =>
    rw [if_pos hwhole]
    omega
  · next hrest =>
    rw [if_neg hrest]
    omega

/-- What fees do to an amount: what is left of it, the fee with the maker's part of it, and what
subtracting the fee leaves. One structure, so that the existence of all four amounts and how they
compare are one statement. -/
structure Deducts (f : Fees) (x left total maker rest : Amount) : Prop where
  after_eq : f.after x = .ok left
  charged_eq : f.charged x = .ok (total, maker)
  minus_eq : x.minus total = .ok rest
  maker_le : maker ≤ total
  total_le : total ≤ x
  left_le : left ≤ rest
  rest_le : rest.val ≤ left.val + 1
  /-- The two ways to take the fee off agree where it is not rounded. -/
  rest_eq_iff : rest = left ↔ BasisPoints.whole ∣ x.val * f.total.val

/-- Every amount has its fees deducted, in both ways, and the two differ as `Deducts` says. The
bounds between the parts come from `share_le`, and the comparison of the two ways from
`sub_total`. -/
theorem exists_deducts (f : Fees) (x : Amount) :
    ∃ left total maker rest, f.Deducts x left total maker rest := by
  obtain ⟨left, hleft⟩ := f.exists_after x
  obtain ⟨total, maker, hcharged⟩ := f.exists_charged x
  obtain ⟨htotal, hmaker⟩ := charged_eq_ok.1 hcharged
  -- the fee is a share of the amount, and the two roundings differ by one at most
  have hle : total.val ≤ x.val := htotal ▸ share_le f.total_le
  have hrest := sub_total hleft hcharged
  refine ⟨left, total, maker, x.monus total, ?_⟩
  have hmonus : (x.monus total).val = x.val - total.val := rfl
  exact
    { after_eq := hleft
      charged_eq := hcharged
      minus_eq := Amount.minus_eq_ok.2 ⟨hle, rfl⟩
      maker_le := by
        show maker.val ≤ total.val
        rw [hmaker, htotal]
        exact share_mono (Nat.le_refl _) f.maker_le_total
      total_le := hle
      left_le := by
        show left.val ≤ (x.monus total).val
        rw [hmonus, hrest]
        exact Nat.le_add_right ..
      rest_le := by
        rw [hmonus, hrest]
        split <;> omega
      rest_eq_iff := by
        rw [Amount.ext_iff, hmonus, hrest]
        split
        · next hwhole => exact iff_of_true rfl hwhole
        · next hround => exact iff_of_false (Nat.succ_ne_self _) hround }

/-- What is left of a larger amount is no less (`share_mono`). -/
theorem after_mono {left' : Amount} (h : x ≤ y) (hx : f.after x = .ok left)
    (hy : f.after y = .ok left') : left ≤ left' := by
  show left.val ≤ left'.val
  rw [after_eq_ok.1 hx, after_eq_ok.1 hy]
  exact share_mono h (Nat.le_refl _)

/-- What is charged on a larger amount is no less, in total and for the maker (`share_mono`). -/
theorem charged_mono {total' maker' : Amount} (h : x ≤ y) (hx : f.charged x = .ok (total, maker))
    (hy : f.charged y = .ok (total', maker')) : total ≤ total' ∧ maker ≤ maker' := by
  obtain ⟨htotal, hmaker⟩ := charged_eq_ok.1 hx
  obtain ⟨htotal', hmaker'⟩ := charged_eq_ok.1 hy
  constructor
  · show total.val ≤ total'.val
    rw [htotal, htotal']
    exact share_mono h (Nat.le_refl _)
  · show maker.val ≤ maker'.val
    rw [hmaker, hmaker']
    exact share_mono h (Nat.le_refl _)

end Fees

/-- Fees are made of any shares that are at most the whole, and charging them never fails. The first
three fields are about making them, with the machine words; the others about what they do to
amounts, over all of these. -/
structure FeesNeverFail : Prop where
  ofParts : ∀ maker pool : BasisPoints,
    ((∃ f, Fees.ofParts maker pool = .ok f) ↔ maker.val + pool.val ≤ 10000) ∧
      ∀ f, Fees.ofParts maker pool = .ok f ↔ f.maker = maker ∧ f.pool = pool
  ofTotal : ∀ total maker : BasisPoints,
    ((∃ f, Fees.ofTotal total maker = .ok f) ↔ maker.val ≤ total.val ∧ total.val ≤ 10000) ∧
      ∀ f, Fees.ofTotal total maker = .ok f ↔
        f.maker = maker ∧ f.total = total ∧ Word.sub? total.word maker.word = some f.pool.word
  total : ∀ f : Fees,
    Word.add? f.maker.word f.pool.word = some f.total.word ∧ f.total.val ≤ 10000
  deducts : ∀ (f : Fees) (x : Amount), ∃ left total maker rest,
    f.Deducts x left total maker rest
  after_mono : ∀ (f : Fees) (x y left left' : Amount), x ≤ y →
    f.after x = .ok left → f.after y = .ok left' → left ≤ left'
  charged_mono : ∀ (f : Fees) (x y total total' maker maker' : Amount), x ≤ y →
    f.charged x = .ok (total, maker) → f.charged y = .ok (total', maker') →
      total ≤ total' ∧ maker ≤ maker'
  /-- The sum and the maker's share make the same fees again. -/
  ofTotal_total : ∀ f : Fees, Fees.ofTotal f.total f.maker = .ok f

theorem feesNeverFail : FeesNeverFail where
  ofParts _ _ := ⟨Fees.exists_ofParts, fun _ => Fees.ofParts_eq_ok⟩
  ofTotal total maker := by
    refine ⟨Fees.exists_ofTotal, fun f => ?_⟩
    have htotal : f.total = total ↔ f.maker.val + f.pool.val = total.val := BasisPoints.ext_iff
    rw [htotal]
    constructor
    · intro h
      obtain ⟨hmaker, hsum⟩ := Fees.ofTotal_eq_ok.1 h
      exact ⟨hmaker, hsum, Fees.sub?_word h⟩
    · rintro ⟨hmaker, hsum, -⟩
      exact Fees.ofTotal_eq_ok.2 ⟨hmaker, hsum⟩
  total f := ⟨f.add?_word, f.total_le⟩
  deducts := Fees.exists_deducts
  after_mono _ _ _ _ _ h hx hy := Fees.after_mono h hx hy
  charged_mono _ _ _ _ _ _ _ h hx hy := Fees.charged_mono h hx hy
  ofTotal_total _ := Fees.ofTotal_eq_ok.2 ⟨rfl, rfl⟩

/-- Of 1001 units the fee takes 3 and leaves 997, as both are rounded down. -/
example : let f : Fees := ⟨.zero, ⟨30, by decide⟩, by decide⟩
    f.after (.ofUInt32 1001) = .ok (.ofUInt32 997) ∧
      f.charged (.ofUInt32 1001) = .ok (.ofUInt32 3, .ofUInt32 0) := by
  decide

end PoolMarket
