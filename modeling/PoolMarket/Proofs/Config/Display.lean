import Mathlib.Tactic.FieldSimp
import PoolMarket.Config.Token
import PoolMarket.Proofs.BasisPoints

/-!
# Amounts as they are shown

An amount is shown in whole tokens, with the decimals of the token behind a point. The text is that
of a numeral with no digit to spare, and there is but one such numeral of a value. So the text tells
the amount, and the amount its text.

* `Canonical` — a numeral with nothing in it that could be left out; `Canonical.eq_of_countOf` says
  that its value determines it.
* `exists_canonical` — what `Digits.fixed` writes is such a numeral, of the right value.
* `TokenInfo.ShowsExactly` — the two put together for one amount of one token.
-/

namespace PoolMarket

open BasisPoints (Numeral)

namespace BasisPoints.Numeral

/-- Digits on both sides of the point if there is one, none that could be left out, and no more than
so many places. -/
structure Canonical (n : Numeral) (places : Nat) : Prop where
  front : Digits.Run n.front
  /-- A point has digits behind it. -/
  behind : ∀ frac ∈ n.behind, Digits.Run frac
  /-- No zero stands in front, unless it is all that does. -/
  leading : n.front.head? = some '0' → n.front = ['0']
  trailing : n.frac.getLast? ≠ some '0'
  fits : n.frac.length ≤ places

/-- The number of units of the last of some places, no fewer than the numeral has. -/
def countOf (places : Nat) (n : Numeral) : Nat :=
  Nat.ofDigitChars 10 n.front 0 * Nat.pow 10 places +
    Nat.ofDigitChars 10 n.frac 0 * Nat.pow 10 (places - n.frac.length)

variable {places k : Nat} {m n : Numeral}

/-- A numeral is worth its count of units: `value` is that count over the power of ten for its
places. -/
theorem countOf_eq (h : n.frac.length ≤ places) :
    (n.countOf places : ℚ) = n.value * 10 ^ places := by
  have hall : Nat.ofDigitChars 10 (n.front ++ n.frac) 0 =
      Nat.ofDigitChars 10 n.front 0 * 10 ^ n.frac.length + Nat.ofDigitChars 10 n.frac 0 := by
    rw [Nat.ofDigitChars_append, Nat.mul_comm]
    exact Nat.ofDigitChars_eq_ofDigitChars_zero
  obtain ⟨k, hplaces⟩ := Nat.exists_eq_add_of_le h
  rw [countOf, value, hall, hplaces, Nat.add_sub_cancel_left, Nat.pow_eq, Nat.pow_eq]
  push_cast
  rw [pow_add]
  field_simp

/-- The value of canonical numerals is told by a count of units, so equations of rational numbers
become equations of natural ones. -/
theorem Canonical.countOf_eq_iff (h : n.Canonical places) :
    n.value * 10 ^ places = (k : ℚ) ↔ n.countOf places = k := by
  rw [← countOf_eq h.fits, Nat.cast_inj]

/-- What is behind the point makes up less than a whole, which makes the count divisible into its
two parts again (`Digits.ofDigitChars_lt`). -/
theorem Canonical.frac_lt (h : n.Canonical places) :
    Nat.ofDigitChars 10 n.frac 0 * Nat.pow 10 (places - n.frac.length) < Nat.pow 10 places := by
  have hlt := Digits.ofDigitChars_lt (isDigit_frac h.behind)
  have hsplit : Nat.pow 10 places =
      Nat.pow 10 n.frac.length * Nat.pow 10 (places - n.frac.length) := by
    rw [Nat.pow_eq, Nat.pow_eq, Nat.pow_eq, ← Nat.pow_add, Nat.add_sub_cancel' h.fits]
  rw [hsplit]
  exact Nat.mul_lt_mul_of_pos_right hlt (Nat.pow_pos (by omega))

/-- The whole part of the count is the number in front of the point (`frac_lt`). -/
theorem Canonical.countOf_div (h : n.Canonical places) :
    n.countOf places / Nat.pow 10 places = Nat.ofDigitChars 10 n.front 0 := by
  have hpos : 0 < Nat.pow 10 places := Nat.zero_lt_of_lt h.frac_lt
  rw [countOf, Nat.add_comm, Nat.add_mul_div_right _ _ hpos, Nat.div_eq_of_lt h.frac_lt,
    Nat.zero_add]

/-- The rest of the count is what stands behind the point (`frac_lt`). -/
theorem Canonical.countOf_mod (h : n.Canonical places) : n.countOf places % Nat.pow 10 places =
    Nat.ofDigitChars 10 n.frac 0 * Nat.pow 10 (places - n.frac.length) := by
  rw [countOf, Nat.add_comm, Nat.add_mul_mod_self_right, Nat.mod_eq_of_lt h.frac_lt]

/-- There is a point where there are places, and only there, so `frac` determines `behind`. -/
theorem Canonical.behind_eq (h : n.Canonical places) :
    n.behind = if n.frac = [] then none else some n.frac := by
  cases hbehind : n.behind with
  | none => simp [frac, hbehind]
  | some cs =>
    have hfrac : n.frac = cs := by rw [frac, hbehind, Option.getD_some]
    rw [hfrac, if_neg (h.behind cs hbehind).1]

/-- Canonical numerals are told apart by their value: the count gives both parts back
(`countOf_div`, `countOf_mod`), the front has no zero to spare (`Digits.eq_ofNat_of_head?`), and the
places none at the end (`Digits.eq_of_getLast?`). -/
theorem Canonical.eq_of_countOf (hm : m.Canonical places) (hn : n.Canonical places)
    (h : m.countOf places = n.countOf places) : m = n := by
  have hfront : m.front = n.front := by
    rw [Digits.eq_ofNat_of_head? hm.front hm.leading, Digits.eq_ofNat_of_head? hn.front hn.leading,
      ← hm.countOf_div, ← hn.countOf_div, h]
  have hfrac : m.frac = n.frac := by
    refine Digits.eq_of_getLast? (isDigit_frac hn.behind) (isDigit_frac hm.behind) hn.fits hm.fits
      hn.trailing hm.trailing ?_
    rw [← hm.countOf_mod, ← hn.countOf_mod, h]
  have hbehind : m.behind = n.behind := by rw [hm.behind_eq, hn.behind_eq, hfrac]
  cases m
  cases n
  exact congr (congrArg Numeral.mk hfront) hbehind

/-- The digits of a number begin with a zero only where that is all of them, as `Canonical.leading`
asks. -/
theorem head?_ofNat_eq {k : Nat} (h : (Digits.ofNat k).head? = some '0') :
    Digits.ofNat k = ['0'] := by
  rw [Digits.eq_zero_of_head? h]
  rfl

/-- What a number of units is written as is canonical, and worth that number. The two cases are
those of `Digits.fixed`, without a point and with one. -/
theorem exists_canonical (places k : Nat) : ∃ n : Numeral,
    n.chars = Digits.fixed places k ∧ n.Canonical places ∧ n.countOf places = k := by
  have hrun : Digits.Run (Digits.ofNat (k / Nat.pow 10 places)) := Digits.run_ofNat _
  have hsum := Nat.div_add_mod' k (Nat.pow 10 places)
  -- a whole count is written without a point, every other one with the digits that are left
  by_cases hmod : k % Nat.pow 10 places = 0
  · refine ⟨⟨Digits.ofNat (k / Nat.pow 10 places), none⟩, ?_, ?_, ?_⟩
    · rw [chars_of_none rfl, Digits.fixed_of_mod_eq_zero hmod]
    · exact
        { front := hrun
          behind := by rintro _ ⟨⟩
          leading := head?_ofNat_eq
          trailing := nofun
          fits := Nat.zero_le _ }
    · rw [hmod] at hsum
      simpa [countOf, frac, Digits.ofDigitChars_ofNat] using hsum
  · obtain ⟨frac, hfixed, hread, hfits, hvalue, hlast⟩ := Digits.fixed_of_mod_ne_zero hmod
    refine ⟨⟨Digits.ofNat (k / Nat.pow 10 places), some frac⟩, ?_, ?_, ?_⟩
    · rw [chars_of_some rfl, hfixed]
    · exact
        { front := hrun
          behind := by rintro _ ⟨⟩; exact (Digits.value?_eq_some.1 hread).1
          leading := head?_ofNat_eq
          trailing := hlast
          fits := hfits }
    · rw [countOf, Digits.ofDigitChars_ofNat]
      show _ + Nat.ofDigitChars 10 frac 0 * Nat.pow 10 (places - frac.length) = k
      rw [hvalue, hsum]

/-- A text is the one that a number of units is written as exactly if it is canonical and worth that
number: `exists_canonical` in the one direction, `Canonical.eq_of_countOf` in the other. -/
theorem eq_fixed_iff {s : String} : String.ofList (Digits.fixed places k) = s ↔
    (ofText s).Canonical places ∧ (ofText s).value * 10 ^ places = (k : ℚ) := by
  obtain ⟨n, hchars, hn, hcount⟩ := exists_canonical places k
  rw [← hchars]
  show n.text = s ↔ _
  constructor
  · rintro rfl
    rw [ofText_text hn.front.2, hn.countOf_eq_iff]
    exact ⟨hn, hcount⟩
  · rintro ⟨hs, hvalue⟩
    have heq : ofText s = n := hs.eq_of_countOf hn ((hs.countOf_eq_iff.1 hvalue).trans hcount.symm)
    rw [← heq, text_ofText]

end BasisPoints.Numeral

namespace TokenInfo

/-- The text that an amount of a token is shown as stands for just that amount. -/
structure ShowsExactly (t : TokenInfo) (a : Amount) : Prop where
  /-- A whole token is itself an amount. -/
  whole_lt : Nat.pow 10 t.decimals.toNat < Amount.size
  /-- The text is the canonical one of the amount, in whole tokens. -/
  shown_iff : ∀ s, t.formatAmount a = s ↔ (Numeral.ofText s).Canonical t.decimals.toNat ∧
    (Numeral.ofText s).value * 10 ^ t.decimals.toNat = (a.val : ℚ)
  /-- No other amount is shown alike with as many decimals. -/
  eq_of_shown : ∀ (u : TokenInfo) (b : Amount), u.decimals = t.decimals →
    u.formatAmount b = t.formatAmount a → b = a

theorem formatAmount_exact (t : TokenInfo) (h : t.decimals.toNat ≤ 38) (a : Amount) :
    t.ShowsExactly a where
  whole_lt := by
    have hle : Nat.pow 10 t.decimals.toNat ≤ Nat.pow 10 38 := Nat.pow_le_pow_right (by omega) h
    exact Nat.lt_of_le_of_lt hle (by decide)
  shown_iff _ := Numeral.eq_fixed_iff
  eq_of_shown u b hsame heq := by
    -- the one text has one value
    obtain ⟨-, hb⟩ := Numeral.eq_fixed_iff.1 heq
    obtain ⟨-, ha⟩ := Numeral.eq_fixed_iff.1 (rfl : t.formatAmount a = t.formatAmount a)
    rw [hsame, ha, Nat.cast_inj] at hb
    exact Amount.ext hb.symm

/-- Less than one token is shown with a zero in front of the point, and with those behind it. -/
example : (TokenInfo.mk (.native "usei") "SEI" 6).formatAmount (.ofUInt32 20500) = "0.0205" := by
  decide

/-! ### The largest amount with the most decimals -/

namespace Sample

def fine : TokenInfo := ⟨.native "usei", "SEI", 38⟩

theorem formatAmount_exact_max :
    fine.ShowsExactly .max ∧ fine.formatAmount .max = "3.40282366920938463463374607431768211455" :=
  ⟨formatAmount_exact fine (by decide) .max, by decide +kernel⟩

end Sample

end TokenInfo

end PoolMarket
