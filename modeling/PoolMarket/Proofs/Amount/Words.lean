import Mathlib.Algebra.Group.Nat.Defs
import PoolMarket.Proofs.Amount.Exact

/-!
# Amounts in machine words

Arithmetic in words of a fixed width wraps. Here an operation gives nothing where it would, so a
word that comes out of it holds the very number. An amount has a word of any width from 128 bits on.

The operations are named after what they give on words (`add?`, `sub?`, `mul?`, `divide?`), and each
has one lemma that reads its success as an equation of natural numbers, like those of `Amount`. The
modules about ratios, fees and texts use only these lemmas, so none of them mentions a carry bit.
-/

namespace PoolMarket

/-- A quotient is no larger than what is divided, in either rounding, so it fits wherever the
dividend does. Rounded up it is the least number that reaches the dividend
(`Amount.divide_up_le_iff`). -/
theorem Rounding.divide_le (r : Rounding) {n d : Nat} (hd : 0 < d) : r.divide n d ≤ n := by
  cases r with
  | down => exact Nat.div_le_self n d
  | up => exact (Amount.divide_up_le_iff hd).2 (Nat.le_mul_of_pos_right n hd)

namespace Word

variable {w : Nat} {x y z n d : BitVec w}

/-- The sum of two words, `none` where it wraps. -/
def add? (x y : BitVec w) : Option (BitVec w) := if x.uaddOverflow y then none else some (x + y)

/-- The difference of two words, `none` where it wraps. -/
def sub? (x y : BitVec w) : Option (BitVec w) := if x.usubOverflow y then none else some (x - y)

/-- The product of two words, `none` where it wraps. -/
def mul? (x y : BitVec w) : Option (BitVec w) := if x.umulOverflow y then none else some (x * y)

/-- The quotient of two words, and one more where it is rounded up. -/
def divide? (r : Rounding) (n d : BitVec w) : Option (BitVec w) :=
  match r with
  | .down => some (n / d)
  | .up => if n % d = 0 then some (n / d) else add? (n / d) 1

/-- A number that fits a word is the number in it, which is how constants enter the equations
below. -/
theorem toNat_ofNat_of_lt {k : Nat} (h : k < 2 ^ w) : (BitVec.ofNat w k).toNat = k := by
  rw [BitVec.toNat_ofNat, Nat.mod_eq_of_lt h]

/-- A sum of words that does not wrap is the sum of their numbers. -/
theorem add?_eq_some : add? x y = some z ↔ z.toNat = x.toNat + y.toNat := by
  have hz := z.isLt
  unfold add?
  by_cases h : x.uaddOverflow y = true
  · rw [if_pos h]
    simp only [BitVec.uaddOverflow, decide_eq_true_eq] at h
    exact iff_of_false nofun (by omega)
  · rw [if_neg h, Option.some.injEq, BitVec.toNat_eq, BitVec.toNat_add_of_not_uaddOverflow h, eq_comm]

/-- A difference of words that does not wrap is that of their numbers, written as a sum so that
nothing has to be truncated. -/
theorem sub?_eq_some : sub? x y = some z ↔ z.toNat + y.toNat = x.toNat := by
  unfold sub?
  by_cases h : x.usubOverflow y = true
  · rw [if_pos h]
    simp only [BitVec.usubOverflow, decide_eq_true_eq] at h
    exact iff_of_false nofun (by omega)
  · rw [if_neg h, Option.some.injEq, BitVec.toNat_eq, BitVec.toNat_sub_of_not_usubOverflow h]
    simp only [BitVec.usubOverflow, decide_eq_true_eq] at h
    omega

/-- A product of words that does not wrap is the product of their numbers. -/
theorem mul?_eq_some : mul? x y = some z ↔ z.toNat = x.toNat * y.toNat := by
  have hz := z.isLt
  unfold mul?
  by_cases h : x.umulOverflow y = true
  · rw [if_pos h]
    simp only [BitVec.umulOverflow, decide_eq_true_eq] at h
    exact iff_of_false nofun (by omega)
  · rw [if_neg h, Option.some.injEq, BitVec.toNat_eq, BitVec.toNat_mul_of_not_umulOverflow h, eq_comm]

/-- A product wraps exactly if it does not fit; the one operation whose failure is an answer of its
own (`BasisPoints.narrowApply?`). -/
theorem mul?_eq_none : mul? x y = none ↔ 2 ^ w ≤ x.toNat * y.toNat := by
  simp [mul?, BitVec.umulOverflow]

/-- A quotient of words is the quotient of their numbers in the same rounding. Rounded up, it is the
remainder of the words that decides whether one is added (`add?_eq_some`). -/
theorem divide?_eq_some {r : Rounding} (hd : 0 < d.toNat) :
    divide? r n d = some z ↔ z.toNat = r.divide n.toNat d.toNat := by
  cases r with
  | down =>
    rw [divide?, Option.some.injEq, BitVec.toNat_eq, BitVec.toNat_udiv, eq_comm, Rounding.divide]
  | up =>
    have hrest : n % d = 0 ↔ n.toNat % d.toNat = 0 := by
      rw [BitVec.toNat_eq, BitVec.toNat_umod, BitVec.ofNat_eq_ofNat, BitVec.toNat_ofNat, Nat.zero_mod]
    simp only [divide?, Rounding.divide, hrest]
    split
    · rw [Option.some.injEq, BitVec.toNat_eq, BitVec.toNat_udiv, eq_comm]
    · -- a word without bits holds nothing to divide by, so there is room for the one that is added
      have hwidth : 0 < w := by
        apply Nat.pos_of_ne_zero
        rintro rfl
        rw [BitVec.eq_nil d] at hd
        exact absurd hd (by decide)
      have hone : (1 : BitVec w).toNat = 1 := BitVec.toNat_one hwidth
      rw [add?_eq_some, BitVec.toNat_udiv, hone]

/-- Rounding up never wraps: whatever is divided covers its own quotient (`Rounding.divide_le`). The
numbers in the words are given by equations, so that those of amounts can be put in their place. -/
theorem exists_divide? (r : Rounding) {m k : Nat} (hn : n.toNat = m) (hd : d.toNat = k) (hk : k ≠ 0) :
    ∃ z, divide? r n d = some z ∧ z.toNat = r.divide m k := by
  subst hn hd
  have hpos := Nat.pos_of_ne_zero hk
  have hz : (BitVec.ofNat w (r.divide n.toNat d.toNat)).toNat = r.divide n.toNat d.toNat :=
    toNat_ofNat_of_lt (Nat.lt_of_le_of_lt (r.divide_le hpos) n.isLt)
  exact ⟨_, (divide?_eq_some hpos).2 hz, hz⟩

end Word

namespace Amount

/-- An amount in a word of `w` bits. -/
def word (w : Nat) (a : Amount) : BitVec w := BitVec.ofNat w a.val

/-- The amount in a word. -/
def ofWord (x : BitVec 128) : Amount := ⟨x.toNat, x.isLt⟩

/-- A word of 128 bits or more holds the amount it was made from (`Word.toNat_ofNat_of_lt`). -/
theorem toNat_word {w : Nat} (h : 128 ≤ w) (a : Amount) : (a.word w).toNat = a.val := by
  have hsize : 2 ^ 128 ≤ 2 ^ w := Nat.pow_le_pow_right (by decide) h
  exact Word.toNat_ofNat_of_lt (Nat.lt_of_lt_of_le a.lt hsize)

end Amount

end PoolMarket
