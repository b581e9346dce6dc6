import Mathlib.Data.List.Basic
import Mathlib.Data.List.Induction
import PoolMarket.Text

/-!
# Texts that read back

The digits of a number have no zero in front that they could do without. Behind a point, the zeros
at the end may be left out: the places that are missing stand for them. Every list of bytes reads
back from its base64 text.

* `Run` — one or more ASCII digits, which is what `value?` accepts (`value?_eq_some`).
* `eq_of_ofDigitChars` — digits of one length are told apart by their value; `length_ofNat_lt` and
  `eq_ofNat_of_head?` follow: the digits without a zero in front are the fewest.
* `length_lt_of_getLast?` — the same at the other end: places without a zero at the end are the
  fewest for their value.
* `fixed_of_mod_eq_zero`, `fixed_of_mod_ne_zero` — the two forms of a number with a point, all that
  the modules about basis points and decimals need of `fixed`.
* `decode?_encode` — base64 reads back.
-/

namespace PoolMarket

namespace Digits

/-- A number is written with digits only, so `value?` never refuses what `ofNat` wrote. -/
theorem isDigit_of_mem_ofNat {n : Nat} {c : Char} (h : c ∈ ofNat n) : c.isDigit = true :=
  Nat.isDigit_of_mem_toDigits (by omega) (by omega) h

/-- The value of the digits of `n` is `n`: the half of `value?_ofNat` without the check that they
are digits, for proofs that have a `Run` in hand already. -/
theorem ofDigitChars_ofNat (n : Nat) : Nat.ofDigitChars 10 (ofNat n) 0 = n := by
  simp [ofNat, Nat.ofDigitChars_toDigits]

/-- Every number has a digit, `0` too, so `ofNat` meets the first half of `Run`. -/
theorem ofNat_ne_nil (n : Nat) : ofNat n ≠ [] := Nat.toDigits_ne_nil

/-- No zero stands in front of the digits of a number, unless it is all of them. By strong
induction: what stands in front of the last digit are the digits of a tenth. -/
theorem head?_ofNat {n : Nat} (h : 0 < n) : (ofNat n).head? ≠ some '0' := by
  induction n using Nat.strongRecOn with
  | ind n ih =>
    by_cases hlt : n < 10
    · have hdigit : ∀ d < 10, 0 < d → [Nat.digitChar d].head? ≠ some '0' := by decide
      rw [ofNat, Nat.toDigits_of_lt_base hlt]
      exact hdigit n hlt h
    · -- what is in front of the last digit are the digits of a tenth
      have hfront : ofNat n = ofNat (n / 10) ++ [Nat.digitChar (n % 10)] :=
        Nat.toDigits_of_base_le (by omega) (by omega)
      have hrest := ih (n / 10) (by omega) (by omega)
      obtain ⟨c, cs, hcons⟩ := List.exists_cons_of_ne_nil (ofNat_ne_nil (n / 10))
      rw [hcons] at hrest
      rw [hfront, hcons]
      exact hrest

/-- The other way round from `head?_ofNat`, as `eq_ofNat_of_head?` is used: only the digits of `0`
begin with a zero. -/
theorem eq_zero_of_head? {n : Nat} (h : (ofNat n).head? = some '0') : n = 0 :=
  Nat.eq_zero_of_not_pos fun hpos => head?_ofNat hpos h

/-! ## Runs of digits

Text reads as a number exactly if it is a `Run`. Leading zeros are read and never written, so a
number has many texts, of which `ofNat` is the shortest; the lemmas here say so without mention of
how the digits come about. All inductions go from the last digit, which is the one that
multiplication by ten leaves alone. -/

/-- One or more ASCII digits: what `value?` accepts (`value?_eq_some`) and every number is written
as (`run_ofNat`). -/
def Run (cs : List Char) : Prop := cs ≠ [] ∧ ∀ c ∈ cs, c.isDigit = true

/-- The digits of a number are a run (`ofNat_ne_nil`, `isDigit_of_mem_ofNat`). -/
theorem run_ofNat (n : Nat) : Run (ofNat n) := ⟨ofNat_ne_nil n, fun _ => isDigit_of_mem_ofNat⟩

/-- A `Run` as the condition that `value?` evaluates, so that its `if` can be rewritten either
way. -/
theorem run_iff {cs : List Char} : Run cs ↔ cs ≠ [] ∧ cs.all Char.isDigit = true := by
  rw [Run, List.all_eq_true]

/-- When text reads as a number, and as which: it is a `Run`, and the number is what its digits
stand for. With `value?_eq_none` this is all that later modules know of `value?`. -/
theorem value?_eq_some {cs : List Char} {n : Nat} :
    value? cs = some n ↔ Run cs ∧ Nat.ofDigitChars 10 cs 0 = n := by
  by_cases hrun : Run cs
  · rw [value?, if_pos (run_iff.1 hrun), Option.some.injEq]
    exact (and_iff_right hrun).symm
  · rw [value?, if_neg (mt run_iff.2 hrun)]
    exact iff_of_false (Option.some_ne_none n).symm fun h => hrun h.1

/-- Text is refused exactly when it is not a `Run`; no run of digits is too long to be a number. -/
theorem value?_eq_none {cs : List Char} : value? cs = none ↔ ¬ Run cs := by
  by_cases hrun : Run cs
  · rw [value?, if_pos (run_iff.1 hrun)]
    exact iff_of_false (Option.some_ne_none _) (not_not_intro hrun)
  · rw [value?, if_neg (mt run_iff.2 hrun)]
    exact iff_of_true rfl hrun

/-- A digit at the end multiplies what stands before it by ten. The inductions of this section take
digits off at this end, as `length_padded` and `trimZeros` count them. -/
theorem ofDigitChars_concat (cs : List Char) (c : Char) :
    Nat.ofDigitChars 10 (cs ++ [c]) 0 = 10 * Nat.ofDigitChars 10 cs 0 + (c.toNat - '0'.toNat) := by
  rw [Nat.ofDigitChars_append, Nat.ofDigitChars_cons, Nat.ofDigitChars_nil]

/-- A digit is worth less than ten, which is what lets `omega` tell two numbers apart digit by
digit. -/
theorem toNat_sub_lt {c : Char} (h : c.isDigit = true) : c.toNat - '0'.toNat < 10 := by
  have hnine : '9'.toNat = '0'.toNat + 9 := rfl
  have hrange := Char.isDigit_iff_toNat.1 h
  omega

/-- As many digits as `cs` has are worth less than ten to that count. By induction from the end
(`ofDigitChars_concat`). -/
theorem ofDigitChars_lt {cs : List Char} (h : ∀ c ∈ cs, c.isDigit = true) :
    Nat.ofDigitChars 10 cs 0 < Nat.pow 10 cs.length := by
  induction cs using List.reverseRecOn with
  | nil => exact Nat.one_pos
  | append_singleton cs c ih =>
    have hfront := ih fun d hd => h d (List.mem_append_left _ hd)
    have hlast := toNat_sub_lt (h c (List.mem_append_right _ (List.mem_singleton_self c)))
    rw [ofDigitChars_concat, List.length_append, List.length_singleton, Nat.pow_eq, Nat.pow_succ]
    rw [Nat.pow_eq] at hfront
    omega

/-- Digits of one length are told apart by their value. By induction from the end: the last digits
agree modulo ten, since each is worth less than that (`toNat_sub_lt`), and what stands before them
agrees in the tenth. -/
theorem eq_of_ofDigitChars {cs ds : List Char} (hcs : ∀ c ∈ cs, c.isDigit = true)
    (hds : ∀ d ∈ ds, d.isDigit = true) (hlength : cs.length = ds.length)
    (h : Nat.ofDigitChars 10 cs 0 = Nat.ofDigitChars 10 ds 0) : cs = ds := by
  -- from the last digit on, which is what division by ten gives back
  induction cs using List.reverseRecOn generalizing ds with
  | nil => exact (List.length_eq_zero_iff.1 hlength.symm).symm
  | append_singleton cs c ih =>
    obtain rfl | ⟨ds, d, rfl⟩ := List.eq_nil_or_concat' ds
    · simp at hlength
    have hc := hcs c (List.mem_append_right _ (List.mem_singleton_self c))
    have hd := hds d (List.mem_append_right _ (List.mem_singleton_self d))
    have hclt := toNat_sub_lt hc
    have hdlt := toNat_sub_lt hd
    rw [ofDigitChars_concat, ofDigitChars_concat] at h
    have hfront : cs = ds := by
      refine ih (fun c' hc' => hcs c' (List.mem_append_left _ hc'))
        (fun d' hd' => hds d' (List.mem_append_left _ hd')) ?_ (by omega)
      rw [List.length_append, List.length_append] at hlength
      exact Nat.add_right_cancel hlength
    have hlast : c = d := by
      have hcle := (Char.isDigit_iff_toNat.1 hc).1
      have hdle := (Char.isDigit_iff_toNat.1 hd).1
      exact Char.toNat_inj.1 (by omega)
    rw [hfront, hlast]

/-- No other digits of a number are as few as those that it is written with: no digits are fewer
(`ofDigitChars_lt`), and as many as that are the same ones (`eq_of_ofDigitChars`). -/
theorem length_ofNat_lt {cs : List Char} (h : Run cs)
    (hne : cs ≠ ofNat (Nat.ofDigitChars 10 cs 0)) :
    (ofNat (Nat.ofDigitChars 10 cs 0)).length < cs.length := by
  have hle : (ofNat (Nat.ofDigitChars 10 cs 0)).length ≤ cs.length :=
    (Nat.length_toDigits_le_iff (by omega) (List.length_pos_iff.2 h.1)).2 (ofDigitChars_lt h.2)
  refine Nat.lt_of_le_of_ne hle fun hlength => hne ?_
  exact eq_of_ofDigitChars h.2 (fun _ => isDigit_of_mem_ofNat) hlength.symm
    (ofDigitChars_ofNat _).symm

/-- Digits that do not begin with a zero are worth at least as much as their length allows; the
bound from below beside `ofDigitChars_lt`. -/
theorem le_ofDigitChars {c : Char} {cs : List Char} (hc : c.isDigit = true) (hzero : c ≠ '0') :
    Nat.pow 10 cs.length ≤ Nat.ofDigitChars 10 (c :: cs) 0 := by
  have hpos : 0 < c.toNat - '0'.toNat := by
    have hle := (Char.isDigit_iff_toNat.1 hc).1
    have hne : c.toNat ≠ '0'.toNat := fun heq => hzero (Char.toNat_inj.1 heq)
    omega
  rw [Nat.ofDigitChars_cons, Nat.mul_zero, Nat.zero_add, Nat.ofDigitChars_eq_ofDigitChars_zero]
  exact Nat.le_trans (Nat.le_mul_of_pos_right _ hpos) (Nat.le_add_right ..)

/-- Digits without a zero in front, unless it is all of them, are those that their number is written
with. Otherwise `length_ofNat_lt` would leave fewer digits for a number that `le_ofDigitChars` says
needs them all. -/
theorem eq_ofNat_of_head? {cs : List Char} (h : Run cs) (hhead : cs.head? = some '0' → cs = ['0']) :
    cs = ofNat (Nat.ofDigitChars 10 cs 0) := by
  by_contra hne
  have hlt := length_ofNat_lt h hne
  obtain ⟨c, rest, rfl⟩ := List.exists_cons_of_ne_nil h.1
  by_cases hzero : c = '0'
  · have hall : c :: rest = ['0'] := hhead (congrArg some hzero)
    rw [hall] at hne
    exact hne rfl
  · have hle : Nat.pow 10 rest.length ≤ Nat.ofDigitChars 10 (c :: rest) 0 :=
      le_ofDigitChars (h.2 c List.mem_cons_self) hzero
    obtain rfl | hrest := List.eq_nil_or_concat' rest
    · have hpos := List.length_pos_iff.2 (ofNat_ne_nil (Nat.ofDigitChars 10 [c] 0))
      rw [List.length_singleton] at hlt
      omega
    · -- so few digits would not be enough
      have hfew := (Nat.length_toDigits_le_iff (by omega) (by
        obtain ⟨_, _, rfl⟩ := hrest
        simp)).1 (Nat.le_of_lt_succ hlt)
      exact Nat.not_lt.2 hle hfew

/-! ## Places behind the point

Here the missing zeros are at the other end: fewer than `places` digits stand for a multiple of a
power of ten. `trimZeros` leaves out as many as it can, and the two lemmas about `fixed` at the end
of the section say what is written in all. -/

/-- What `trimZeros` takes off are zeros, as many as the text gets shorter by. -/
theorem trimZeros_append (cs : List Char) :
    trimZeros cs ++ List.replicate (cs.length - (trimZeros cs).length) '0' = cs := by
  have hsplit : trimZeros cs ++ (cs.reverse.takeWhile (· == '0')).reverse = cs := by
    rw [trimZeros, ← List.reverse_append, List.takeWhile_append_dropWhile, List.reverse_reverse]
  -- all that is trimmed are zeros, as many as the text gets shorter by
  have hzeros : ∀ c ∈ (cs.reverse.takeWhile (· == '0')).reverse, c = '0' := by
    intro c hc
    have hall := List.all_eq_true.1 (List.all_takeWhile (p := (· == '0')) (l := cs.reverse))
    simpa using hall c (List.mem_reverse.1 hc)
  have hlength := congrArg List.length hsplit
  rw [List.length_append] at hlength
  rw [List.eq_replicate_iff.2 ⟨rfl, hzeros⟩] at hsplit
  rw [← hlength, Nat.add_sub_cancel_left]
  exact hsplit

/-- Each zero at the end that is left out stands for a factor of ten (`trimZeros_append`). -/
theorem ofDigitChars_trimZeros (cs : List Char) :
    Nat.ofDigitChars 10 (trimZeros cs) 0 * Nat.pow 10 (cs.length - (trimZeros cs).length) =
      Nat.ofDigitChars 10 cs 0 := by
  conv => rhs; rw [← trimZeros_append cs]
  rw [Nat.ofDigitChars_append, Nat.ofDigitChars_replicate_zero, Nat.mul_comm]
  rfl

/-- Zeros in front change no value, so `padded` digits stand for the number they were filled up
from. -/
theorem ofDigitChars_padded (width n : Nat) : Nat.ofDigitChars 10 (padded width n) 0 = n := by
  rw [padded, Nat.ofDigitChars_append, Nat.ofDigitChars_replicate_zero, Nat.mul_zero,
    ofDigitChars_ofNat]

/-- A number below ten to the `width` fills up to exactly `width` digits: `padded` never has to be
longer. The bound is where `0 < width` is needed, since `0` has a digit of its own. -/
theorem length_padded {width n : Nat} (hwidth : 0 < width) (hn : n < Nat.pow 10 width) :
    (padded width n).length = width := by
  have hle : (ofNat n).length ≤ width := (Nat.length_toDigits_le_iff (by omega) hwidth).2 hn
  rw [padded, List.length_append, List.length_replicate]
  omega

/-- Filling up adds no character that is not a digit, so `padded` digits are a `Run` too. -/
theorem isDigit_of_mem_padded {width n : Nat} {c : Char} (h : c ∈ padded width n) :
    c.isDigit = true := by
  rcases List.mem_append.1 h with hzero | hdigit
  · rw [List.eq_of_mem_replicate hzero]
    decide
  · exact isDigit_of_mem_ofNat hdigit

/-- A run of digits is the number that it stands for, filled up with zeros: two texts of one length
and one value (`eq_of_ofDigitChars`). This turns a run that was read into something that was
written. -/
theorem Run.eq_padded {cs : List Char} (h : Run cs) : cs = padded cs.length (Nat.ofDigitChars 10 cs 0) :=
  eq_of_ofDigitChars h.2 (fun _ => isDigit_of_mem_padded)
    (length_padded (List.length_pos_iff.2 h.1) (ofDigitChars_lt h.2)).symm
    (ofDigitChars_padded ..).symm

/-- What is left by `trimZeros` was there before, so it keeps whatever holds of every character. -/
theorem mem_of_mem_trimZeros {cs : List Char} {c : Char} (h : c ∈ trimZeros cs) : c ∈ cs := by
  rw [← trimZeros_append cs]
  exact List.mem_append_left _ h

/-- No zero is left at the end: the point of `trimZeros`, and the hypothesis of
`length_lt_of_getLast?`. -/
theorem getLast?_trimZeros (cs : List Char) : (trimZeros cs).getLast? ≠ some '0' := by
  rw [trimZeros, List.getLast?_reverse]
  intro hhead
  have hnot := List.head?_dropWhile_not (· == '0') cs.reverse
  rw [hhead] at hnot
  exact absurd hnot (by decide)

/-- No other digits with the value of some places are as few as those that do not end in a zero.
Fewer digits for the same value have to be multiplied by ten to match, and so would make the last
digit of `frac` a zero; as many are the same ones (`eq_of_ofDigitChars`). -/
theorem length_lt_of_getLast? {places : Nat} {frac cs : List Char}
    (hfrac : ∀ c ∈ frac, c.isDigit = true) (hcs : ∀ c ∈ cs, c.isDigit = true)
    (hplaces : frac.length ≤ places) (hlast : frac.getLast? ≠ some '0')
    (h : Nat.ofDigitChars 10 frac 0 * Nat.pow 10 (places - frac.length) =
      Nat.ofDigitChars 10 (cs.take places) 0 * Nat.pow 10 (places - cs.length)) (hne : cs ≠ frac) :
    frac.length < cs.length := by
  by_contra hle
  have hle : cs.length ≤ frac.length := Nat.le_of_not_lt hle
  rw [List.take_of_length_le (Nat.le_trans hle hplaces)] at h
  -- the digits that are fewer stand for more, and those of the other number end in a zero
  have hvalue : Nat.ofDigitChars 10 frac 0 =
      Nat.ofDigitChars 10 cs 0 * Nat.pow 10 (frac.length - cs.length) := by
    have hsplit : places - cs.length = (frac.length - cs.length) + (places - frac.length) := by
      omega
    rw [hsplit, Nat.pow_eq, Nat.pow_eq, Nat.pow_add, ← Nat.mul_assoc] at h
    exact Nat.eq_of_mul_eq_mul_right (Nat.pow_pos (by omega)) h
  cases hmissing : frac.length - cs.length with
  | zero =>
    rw [hmissing, Nat.pow_eq, Nat.pow_zero, Nat.mul_one] at hvalue
    exact hne (eq_of_ofDigitChars hcs hfrac (by omega) hvalue.symm)
  | succ k =>
    obtain rfl | ⟨front, c, rfl⟩ := List.eq_nil_or_concat' frac
    · simp at hmissing
    have hc := hfrac c (List.mem_append_right _ (List.mem_singleton_self c))
    have hclt := toNat_sub_lt hc
    have hcle := (Char.isDigit_iff_toNat.1 hc).1
    rw [hmissing, Nat.pow_eq, Nat.pow_succ, ← Nat.mul_assoc, ofDigitChars_concat] at hvalue
    have hzero : c = '0' := Char.toNat_inj.1 (by omega)
    exact hlast (by rw [List.getLast?_concat, hzero])

/-- Places that do not end in a zero are told apart by their value: by `length_lt_of_getLast?` each
would have to be shorter than the other. -/
theorem eq_of_getLast? {places : Nat} {frac cs : List Char}
    (hfrac : ∀ c ∈ frac, c.isDigit = true) (hcs : ∀ c ∈ cs, c.isDigit = true)
    (hfits : frac.length ≤ places) (hfits' : cs.length ≤ places)
    (hlast : frac.getLast? ≠ some '0') (hlast' : cs.getLast? ≠ some '0')
    (h : Nat.ofDigitChars 10 frac 0 * Nat.pow 10 (places - frac.length) =
      Nat.ofDigitChars 10 cs 0 * Nat.pow 10 (places - cs.length)) : cs = frac := by
  by_contra hne
  -- each would have to be shorter than the other
  have hlt := length_lt_of_getLast? hfrac hcs hfits hlast
    (by rw [List.take_of_length_le hfits', h]) hne
  have hgt := length_lt_of_getLast? hcs hfrac hfits' hlast'
    (by rw [List.take_of_length_le hfits, h]) fun heq => hne heq.symm
  omega

theorem fixed_of_mod_eq_zero {places n : Nat} (h : n % Nat.pow 10 places = 0) :
    fixed places n = ofNat (n / Nat.pow 10 places) := if_pos h

/-- Where there is a point, digits follow it that make up the rest, each missing one a zero, and
none that is there one at the end. The witness is the trimmed padding of `fixed` itself; its value
comes from `ofDigitChars_trimZeros` and its length from `length_padded`. -/
theorem fixed_of_mod_ne_zero {places n : Nat} (h : n % Nat.pow 10 places ≠ 0) :
    ∃ frac, fixed places n = ofNat (n / Nat.pow 10 places) ++ '.' :: frac ∧
      value? frac = some (Nat.ofDigitChars 10 frac 0) ∧ frac.length ≤ places ∧
      Nat.ofDigitChars 10 frac 0 * Nat.pow 10 (places - frac.length) = n % Nat.pow 10 places ∧
      frac.getLast? ≠ some '0' := by
  have hplaces : 0 < places := by
    apply Nat.pos_of_ne_zero
    rintro rfl
    exact h (Nat.mod_one n)
  have hunit : 0 < Nat.pow 10 places := Nat.pow_pos (by omega)
  have hpadded := length_padded hplaces (Nat.mod_lt n hunit)
  have hvalue := ofDigitChars_trimZeros (padded places (n % Nat.pow 10 places))
  rw [ofDigitChars_padded, hpadded] at hvalue
  have hlength : (trimZeros (padded places (n % Nat.pow 10 places))).length ≤ places := by
    have hall := congrArg List.length (trimZeros_append (padded places (n % Nat.pow 10 places)))
    rw [List.length_append, hpadded] at hall
    omega
  -- the digits behind the point are the remainder, padded and without the zeros at its end
  refine ⟨trimZeros (padded places (n % Nat.pow 10 places)), if_neg h, if_pos ⟨?_, ?_⟩, hlength,
    hvalue, getLast?_trimZeros _⟩
  · -- no digits at all would be worth nothing
    intro hnil
    rw [hnil, Nat.ofDigitChars_nil, Nat.zero_mul] at hvalue
    omega
  · rw [List.all_eq_true]
    intro c hc
    exact isDigit_of_mem_padded (mem_of_mem_trimZeros hc)

end Digits

/-! ## Base64

The induction takes three bytes at a time, as `encode` does. In each case the bits are taken apart
and put together by arithmetic on the number that the bytes make, which `omega` settles; what
`omega` cannot see is that a symbol reads back (`value?_symbol`) and is no padding
(`symbol_ne_pad`). -/

namespace Base64

theorem value?_symbol : ∀ n < 64, value? (symbol n) = some n := by decide +kernel

/-- Padding is no symbol, so a group without it is taken whole. -/
theorem symbol_ne_pad : ∀ n < 64, symbol n ≠ '=' := by decide +kernel

/-- A byte comes back from the number that `decode?` puts together, once `omega` has shown that
number to be the byte's own. -/
theorem ofNat_eq {n : Nat} {a : UInt8} (h : n = a.toNat) : UInt8.ofNat n = a := by
  rw [h, UInt8.ofNat_toNat]

/-- Every list of bytes reads back from its base64 text. By induction along `encode`: a whole group
of three, or one of the two padded ends, whose unused bits are zero as `decode?` asks. -/
theorem decode?_encode (bytes : List UInt8) : decode? (encode bytes) = some bytes := by
  induction bytes using encode.induct with
  | case1 => rfl
  | case2 a =>
    -- the second symbol carries two bits, and four that are zero
    have ha := a.toNat_lt
    have hfirst := value?_symbol (a.toNat / 4) (by omega)
    have hsecond := value?_symbol (a.toNat % 4 * 16) (by omega)
    simp only [encode, pad]
    rw [decode?]
    simp only [hfirst, hsecond, Option.bind_eq_bind, Option.bind_some]
    rw [if_pos (by omega), ofNat_eq (a := a) (by omega)]
  | case3 a b =>
    -- the third symbol carries four bits, and two that are zero
    have ha := a.toNat_lt
    have hb := b.toNat_lt
    have hfirst := value?_symbol ((a.toNat * 256 + b.toNat) / 1024) (by omega)
    have hsecond := value?_symbol ((a.toNat * 256 + b.toNat) / 16 % 64) (by omega)
    have hthird := value?_symbol ((a.toNat * 256 + b.toNat) % 16 * 4) (by omega)
    simp only [encode, pad]
    rw [decode?]
    · simp only [hfirst, hsecond, hthird, Option.bind_eq_bind, Option.bind_some]
      rw [if_pos (by omega), ofNat_eq (a := a) (by omega), ofNat_eq (a := b) (by omega)]
    · exact symbol_ne_pad _ (by omega)
  | case4 a b c rest ih =>
    have ha := a.toNat_lt
    have hb := b.toNat_lt
    have hc := c.toNat_lt
    generalize hn : (a.toNat * 256 + b.toNat) * 256 + c.toNat = n
    have hfirst := value?_symbol (n / 262144) (by omega)
    have hsecond := value?_symbol (n / 4096 % 64) (by omega)
    have hthird := value?_symbol (n / 64 % 64) (by omega)
    have hlast := value?_symbol (n % 64) (by omega)
    have hunpadded : symbol (n % 64) ≠ '=' := symbol_ne_pad _ (by omega)
    simp only [encode, hn]
    rw [decode?]
    · simp only [hfirst, hsecond, hthird, hlast, ih, Option.bind_eq_bind, Option.bind_some]
      rw [ofNat_eq (a := a) (by omega), ofNat_eq (a := b) (by omega), ofNat_eq (a := c) (by omega)]
    · intro _ hpad
      exact absurd hpad hunpadded
    · intro hpad
      exact absurd hpad hunpadded

end Base64

end PoolMarket
