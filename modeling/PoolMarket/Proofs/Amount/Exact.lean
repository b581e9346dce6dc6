import PoolMarket.Amount

/-!
# When an operation on amounts succeeds

An operation gives the exact result where that is an amount, and a fault otherwise. The lemmas read
a success off as an equation of natural numbers, which is how everything above amounts uses it.

* `ofNatOr_eq_ok`, `ofNatOr_eq_error` — the one place where a number becomes an amount; `plus`,
  `minus` and `mulDiv` each have their `_eq_ok` from them.
* `le_rootOfProduct_iff` — the root as the largest number whose square is covered, which is all that
  minting needs of it.
* `Outcome.OverflowsOnly` — a computation whose only fault is a number that is too large; it is
  closed under sequencing (`OverflowsOnly.bind`), so it passes through whole transactions.
-/

namespace PoolMarket

namespace Amount

/-- A number is taken as an amount exactly if it is the amount's own: success says which number it
was, and nothing is lost. Rewriting with this turns a computation into its equation
(`ofNat?_eq_some_iff`). -/
theorem ofNatOr_eq_ok {what : OverflowFault} {n : Nat} {a : Amount} :
    ofNatOr what n = .ok a ↔ a.val = n := by
  rw [ofNatOr, ← ofNat?_eq_some_iff]
  cases ofNat? n <;> simp

/-- A number is refused exactly if it does not fit, and then for the reason that the operation gives
(`ofNat?_eq_none_iff`). -/
theorem ofNatOr_eq_error {what : OverflowFault} {n : Nat} {fault : Fault} :
    ofNatOr what n = .error fault ↔ fault = .overflow what ∧ size ≤ n := by
  rw [ofNatOr, ← ofNat?_eq_none_iff]
  cases ofNat? n <;> simp [eq_comm]

/-- That a number fits, as the existence of its amount; the form in which totality is proved. It is
`ofNatOr_eq_ok` with the amount as the witness. -/
theorem exists_ofNatOr {what : OverflowFault} {n : Nat} :
    (∃ a, ofNatOr what n = .ok a) ↔ n < size :=
  ⟨fun ⟨a, h⟩ => ofNatOr_eq_ok.1 h ▸ a.lt, fun h => ⟨⟨n, h⟩, ofNatOr_eq_ok.2 rfl⟩⟩

theorem plus_eq_ok {a b c : Amount} : a.plus b = .ok c ↔ c.val = a.val + b.val :=
  ofNatOr_eq_ok

/-- A difference succeeds exactly if it is one, and is exact. It needs no bound from above: `monus`
is no larger than what it is taken from. -/
theorem minus_eq_ok {a b c : Amount} :
    a.minus b = .ok c ↔ b.val ≤ a.val ∧ c.val = a.val - b.val := by
  unfold minus
  by_cases h : b.val ≤ a.val
  · rw [if_pos h, Except.ok.injEq, Amount.ext_iff]
    simp [monus, h, eq_comm]
  · rw [if_neg h]
    simp [h]

/-- A rounded ratio is the quotient of the exact product, and only an empty divisor or an oversized
quotient stands against it (`ofNatOr_eq_ok`). -/
theorem mulDiv_eq_ok {a b d c : Amount} {r : Rounding} :
    a.mulDiv b d r = .ok c ↔ d.val ≠ 0 ∧ c.val = r.divide (a.val * b.val) d.val := by
  unfold mulDiv
  by_cases h : d.val = 0
  · rw [if_pos h]
    simp [h]
  · rw [if_neg h, ofNatOr_eq_ok]
    simp [h]

/-- When a ratio is an amount: the divisor is not empty and the rounded quotient fits. The product
need not. The product is never held in a word of its own; `ofNatOr` is applied to the quotient. -/
theorem exists_mulDiv {a b d : Amount} {r : Rounding} :
    (∃ c, a.mulDiv b d r = .ok c) ↔ d.val ≠ 0 ∧ r.divide (a.val * b.val) d.val < size := by
  unfold mulDiv
  by_cases h : d.val = 0
  · rw [if_pos h]
    exact iff_of_false nofun fun hpos => hpos.1 h
  · rw [if_neg h, exists_ofNatOr]
    exact (and_iff_right h).symm

/-- Only an empty divisor divides by zero, however large the product is. The check for it comes
before `ofNatOr` is reached. -/
theorem mulDiv_eq_divisionByZero {a b d : Amount} {r : Rounding} :
    a.mulDiv b d r = .error .divisionByZero ↔ d.val = 0 := by
  unfold mulDiv
  by_cases h : d.val = 0
  · rw [if_pos h]
    exact iff_of_true rfl h
  · rw [if_neg h, ofNatOr_eq_error]
    exact iff_of_false nofun h

/-- The other fault of a ratio: a quotient that does not fit, with a divisor that is not empty
(`ofNatOr_eq_error`). -/
theorem mulDiv_eq_overflow {a b d : Amount} {r : Rounding} :
    a.mulDiv b d r = .error (.overflow .ratio) ↔
      d.val ≠ 0 ∧ size ≤ r.divide (a.val * b.val) d.val := by
  unfold mulDiv
  by_cases h : d.val = 0
  · rw [if_pos h]
    exact iff_of_false nofun fun hpos => hpos.1 h
  · rw [if_neg h, ofNatOr_eq_error, and_iff_right rfl]
    exact (and_iff_right h).symm

/-- A quotient rounded up is the least number that covers the dividend, whether or not the division
is exact. It is to `Rounding.up` what `Nat.div_le_iff_le_mul` is to rounding down. -/
theorem divide_up_le_iff {n d b : Nat} (hd : 0 < d) : Rounding.up.divide n d ≤ b ↔ n ≤ b * d := by
  have hdivided := Nat.div_add_mod n d
  have hmod := Nat.mod_lt n hd
  rw [Nat.mul_comm b d]
  simp only [Rounding.divide]
  -- rounding up adds one exactly when the division leaves a remainder
  split
  · next hwhole =>
    rw [← Nat.mul_le_mul_left_iff hd]
    omega
  · next hrest =>
    rw [Nat.succ_le_iff, Nat.div_lt_iff_lt_mul hd, Nat.mul_comm b d]
    constructor
    · exact Nat.le_of_lt
    · intro hle
      refine Nat.lt_of_le_of_ne hle ?_
      rintro rfl
      exact hrest (Nat.mul_mod_right d b)

/-- The smaller of two amounts, as numbers, so that `omega` can take the minimum. -/
theorem val_least (a b : Amount) : (a.least b).val = min a.val b.val := by
  unfold least
  split
  · next h => rw [Nat.min_eq_left h]
  · next h => rw [Nat.min_eq_right (by omega)]

/-! ## Roots

`extendRoot` settles one binary digit of the root at a time, from the top. Its two bounds say that
the digits settled so far neither overshoot the root nor leave out one that fits; both are by
induction on the digits still to come, with the root so far generalized. -/

/-- Extending a root never lets its square pass the number: a digit is kept only where it does not.
By induction on the digits to come, as `extendRoot` recurses on them. -/
theorem extendRoot_mul_self_le (n k s : Nat) (h : s * s ≤ n) :
    extendRoot n k s * extendRoot n k s ≤ n := by
  induction k generalizing s with
  | zero => exact h
  | succ k ih =>
    rw [extendRoot]
    by_cases hlonger : (s + Nat.pow 2 k) * (s + Nat.pow 2 k) ≤ n
    · simp only [if_pos hlonger]
      exact ih _ hlonger
    · simp only [if_neg hlonger]
      exact ih s h

/-- Extending a root leaves out no digit that fits: the square of one more passes the number. The
hypothesis is the invariant that the digits to come could still close the gap. By the same induction
as `extendRoot_mul_self_le`. -/
theorem lt_extendRoot_succ_mul_self (n k s : Nat)
    (h : n < (s + Nat.pow 2 k) * (s + Nat.pow 2 k)) :
    n < (extendRoot n k s + 1) * (extendRoot n k s + 1) := by
  induction k generalizing s with
  | zero => exact h
  | succ k ih =>
    have double : s + Nat.pow 2 (k + 1) = s + Nat.pow 2 k + Nat.pow 2 k := by
      rw [Nat.add_assoc, ← Nat.two_mul, Nat.mul_comm]
      rfl
    rw [double] at h
    rw [extendRoot]
    by_cases hlonger : (s + Nat.pow 2 k) * (s + Nat.pow 2 k) ≤ n
    · simp only [if_pos hlonger]
      exact ih _ h
    · simp only [if_neg hlonger]
      exact ih s (Nat.lt_of_not_le hlonger)

/-- The root's square does not pass the product (`extendRoot_mul_self_le` from nothing). -/
theorem rootOfProduct_mul_self_le (a b : Amount) :
    (a.rootOfProduct b).val * (a.rootOfProduct b).val ≤ a.val * b.val := by
  simp only [rootOfProduct]
  exact extendRoot_mul_self_le (a.val * b.val) 128 0 (Nat.zero_le _)

/-- The square of one more passes it. No product of two amounts is too large for its root to be an
amount, so 128 digits are enough for `lt_extendRoot_succ_mul_self`. -/
theorem lt_rootOfProduct_succ_mul_self (a b : Amount) :
    a.val * b.val < ((a.rootOfProduct b).val + 1) * ((a.rootOfProduct b).val + 1) := by
  have hsize : 0 + Nat.pow 2 128 = size := rfl
  have hproduct : a.val * b.val < (0 + Nat.pow 2 128) * (0 + Nat.pow 2 128) := by
    rw [hsize]
    exact Nat.mul_lt_mul'' a.lt b.lt
  simp only [rootOfProduct]
  exact lt_extendRoot_succ_mul_self _ 128 0 hproduct

/-- The root is the largest number whose square the product reaches, from the two bounds above.
Later modules know the root by this equivalence alone (`rootOfProduct_mul_self_le`,
`lt_rootOfProduct_succ_mul_self`). -/
theorem le_rootOfProduct_iff {a b : Amount} {n : Nat} :
    n ≤ (a.rootOfProduct b).val ↔ n * n ≤ a.val * b.val := by
  constructor
  · intro h
    exact Nat.le_trans (Nat.mul_self_le_mul_self h) (rootOfProduct_mul_self_le a b)
  · intro h
    have hlt := Nat.lt_of_le_of_lt h (lt_rootOfProduct_succ_mul_self a b)
    exact Nat.le_of_lt_succ (Nat.mul_self_lt_mul_self_iff.1 hlt)

/-- Only two amounts that are not empty have a root that is not zero, so an opening deposit that
mints anything brings both assets (`rootOfProduct_mul_self_le`). -/
theorem pos_of_rootOfProduct_pos {a b : Amount} (h : 0 < (a.rootOfProduct b).val) :
    0 < a.val ∧ 0 < b.val := by
  have hsquare := rootOfProduct_mul_self_le a b
  have hproduct : 0 < a.val * b.val := Nat.lt_of_lt_of_le (Nat.mul_pos h h) hsquare
  exact ⟨Nat.pos_of_mul_pos_right hproduct, Nat.pos_of_mul_pos_left hproduct⟩

end Amount

/-! ## Overflow as the only fault

Where a computation is known not to be refused for another reason, its failure says that a number
was too large. The property is stated over outcomes and not over operations, so that it can be
carried through a sequence of steps whose other faults have been excluded one by one. -/

namespace Outcome

variable {α β : Type} {x : Outcome α}

/-- An operation that fails, if at all, because a number is too large. -/
def OverflowsOnly (x : Outcome α) : Prop :=
  ∀ fault, x = .error fault → ∃ what, fault = .overflow what

theorem overflowsOnly_ok (a : α) : OverflowsOnly (.ok a) := by
  intro fault h
  cases h

/-- Steps in sequence fail only for size if each does. The second step may use that the first
succeeded, and with which result, since its other faults are often excluded by just that. It is the
rule for `do` blocks, as `Outcome.bind_eq_ok` is for successes. -/
theorem OverflowsOnly.bind (hx : x.OverflowsOnly) {f : α → Outcome β}
    (hf : ∀ a, x = .ok a → (f a).OverflowsOnly) : OverflowsOnly (x >>= f) := by
  intro fault h
  cases x with
  | error first =>
    cases h
    exact hx _ rfl
  | ok a => exact hf a rfl fault h

/-- What never succeeds and fails only for size does overflow (`Outcome.exists_error`). -/
theorem OverflowsOnly.exists_overflow (hx : x.OverflowsOnly) (h : ∀ a, x ≠ .ok a) :
    ∃ what, x = .error (.overflow what) := by
  obtain ⟨fault, hfault⟩ := exists_error h
  obtain ⟨what, rfl⟩ := hx fault hfault
  exact ⟨what, hfault⟩

end Outcome

namespace Amount

/-- Taking a number as an amount fails only for its size (`ofNatOr_eq_error`). -/
theorem overflowsOnly_ofNatOr (what : OverflowFault) (n : Nat) :
    (ofNatOr what n).OverflowsOnly := fun _ h => ⟨what, (ofNatOr_eq_error.1 h).1⟩

theorem overflowsOnly_plus (a b : Amount) : (a.plus b).OverflowsOnly :=
  overflowsOnly_ofNatOr _ _

/-- A ratio fails only for its size, once the divisor is known not to be empty
(`overflowsOnly_ofNatOr`). -/
theorem overflowsOnly_mulDiv (a b : Amount) {d : Amount} (r : Rounding) (hd : d.val ≠ 0) :
    (a.mulDiv b d r).OverflowsOnly := by
  rw [mulDiv, if_neg hd]
  exact overflowsOnly_ofNatOr _ _

end Amount

end PoolMarket
