import Mathlib.Data.Nat.Digits.Defs
import Mathlib.Tactic.Ring
import PoolMarket.Amount
import PoolMarket.Proofs.Amount.Words
import PoolMarket.Proofs.Text

/-!
# Amounts read and written as digits

A text is an amount if it consists of digits and their number fits. Zeros in front make no
difference to that, and are the only way in which the texts of one amount differ: the one that is
written has none. Read digit by digit in a word of 128 bits, a number is too large as soon as a step
wraps, however many digits follow.

* `Digits.spell`, `Digits.number` — a list of digits as a text and as a number, with no characters
  to check; `Digits.exists_spell` moves between these and runs of characters.
* `Word.foldlM_push?_eq_some` — reading digit by digit, without wrapping, comes to the number.
* `Amount.ofString_eq_ok_iff_zeros` — all the texts of an amount.
-/

namespace PoolMarket

namespace Digits

/-- The text that spells some digits. -/
def spell (ds : List (Fin 10)) : String := String.ofList (ds.map fun d : Fin 10 => Nat.digitChar d)

/-- The number that some digits stand for, the last of which are the units. -/
def number (ds : List (Fin 10)) : Nat := Nat.ofDigits 10 (ds.reverse.map Fin.val)

variable {cs : List Char} {ds : List (Fin 10)}

/-- The first digit counts as many tens as digits follow it; the step of every induction on
digits. -/
theorem number_cons (d : Fin 10) (ds : List (Fin 10)) :
    number (d :: ds) = 10 ^ ds.length * d + number ds := by
  simp only [number, List.map_reverse, List.map_cons, Nat.ofDigits_reverse_cons, List.length_map]
  exact Nat.add_comm ..

/-- What spells digits are digits, so a spelled text passes the check of `Digits.value?`. -/
theorem isDigit_of_mem_spell {c : Char} (h : c ∈ (spell ds).toList) : c.isDigit = true := by
  rw [spell, String.toList_ofList] at h
  obtain ⟨d, -, rfl⟩ := List.mem_map.1 h
  exact Nat.isDigit_digitChar.trans (decide_eq_true d.isLt)

/-- The value that is computed from the characters is the number that the digits stand for. By
induction on the digits (`number_cons`). -/
theorem ofDigitChars_spell (ds : List (Fin 10)) :
    Nat.ofDigitChars 10 (spell ds).toList 0 = number ds := by
  rw [spell, String.toList_ofList]
  induction ds with
  | nil => rfl
  | cons d ds ih =>
    have hd : (Nat.digitChar d).toNat = '0'.toNat + d := Nat.toNat_digitChar_of_lt_ten d.isLt
    rw [List.map_cons, Nat.ofDigitChars_cons, Nat.ofDigitChars_eq_ofDigitChars_zero, ih, number_cons,
      List.length_map, hd, Nat.add_sub_cancel_left, Nat.mul_zero, Nat.zero_add]

/-- Digits are spelled by just their characters: each character that is a digit has a number below
ten (`toNat_sub_lt`) that it is the digit of. -/
theorem exists_map_digitChar (h : ∀ c ∈ cs, c.isDigit = true) :
    ∃ ds : List (Fin 10), ds.map (fun d : Fin 10 => Nat.digitChar d) = cs := by
  induction cs with
  | nil => exact ⟨[], rfl⟩
  | cons c cs ih =>
    obtain ⟨ds, rfl⟩ := ih fun c' hc' => h c' (List.mem_cons_of_mem _ hc')
    have hc := h c List.mem_cons_self
    have hzero := (Char.isDigit_iff_toNat.1 hc).1
    refine ⟨⟨c.toNat - '0'.toNat, toNat_sub_lt hc⟩ :: ds, ?_⟩
    have hsame : Nat.digitChar (c.toNat - '0'.toNat) = c := by
      apply Char.toNat_inj.1
      rw [Nat.toNat_digitChar_of_lt_ten (toNat_sub_lt hc)]
      exact Nat.add_sub_cancel' hzero
    rw [List.map_cons, hsame]

/-- A run of characters is the spelling of some digits, at least one (`Digits.spell`). -/
theorem run_iff_spell {s : String} : Run s.toList ↔ ∃ ds, ds ≠ [] ∧ spell ds = s := by
  constructor
  · rintro ⟨hne, hdigits⟩
    obtain ⟨ds, hds⟩ := exists_map_digitChar hdigits
    refine ⟨ds, ?_, ?_⟩
    · rintro rfl
      exact hne hds.symm
    · rw [spell, hds, String.ofList_toList]
  · rintro ⟨ds, hne, rfl⟩
    refine ⟨?_, fun _ => isDigit_of_mem_spell⟩
    rw [spell, String.toList_ofList]
    exact mt List.map_eq_nil_iff.1 hne

/-- A statement about the digits that a text spells is one about its characters. The fields of the
final statement are over digits, the reader over characters; this is the bridge for all of them. It
is `run_iff_spell` under a quantifier. -/
theorem exists_spell {s : String} {P : Nat → Prop} :
    (∃ ds, ds ≠ [] ∧ spell ds = s ∧ P (number ds)) ↔
      Run s.toList ∧ P (Nat.ofDigitChars 10 s.toList 0) := by
  rw [run_iff_spell]
  constructor
  · rintro ⟨ds, hne, rfl, h⟩
    rw [ofDigitChars_spell]
    exact ⟨⟨ds, hne, rfl⟩, h⟩
  · rintro ⟨⟨ds, hne, rfl⟩, h⟩
    rw [ofDigitChars_spell] at h
    exact ⟨ds, hne, rfl, h⟩

end Digits

/-! ## Digit by digit

What a reader does that keeps one word: multiply by ten, add the next digit, give up where either
wraps. It never gives up too early, because a number only grows by the digits behind it. -/

namespace Word

variable {w : Nat} {x z : BitVec w}

/-- A number with one more digit behind it, `none` where a step wraps. -/
def push? (x : BitVec w) (d : Fin 10) : Option (BitVec w) := do
  let tens ← mul? x (BitVec.ofNat w 10)
  add? tens (BitVec.ofNat w d)

/-- One more digit, without wrapping. Words of four bits or more have room for the constant ten:
`mul?_eq_some`, then `add?_eq_some`. -/
theorem push?_eq_some (hw : 4 ≤ w) {d : Fin 10} :
    push? x d = some z ↔ z.toNat = 10 * x.toNat + d := by
  have hroom : 2 ^ 4 ≤ 2 ^ w := Nat.pow_le_pow_right (by decide) hw
  have hten : (BitVec.ofNat w 10).toNat = 10 := toNat_ofNat_of_lt (by omega)
  have hd : (BitVec.ofNat w d).toNat = d := toNat_ofNat_of_lt (by omega)
  simp only [push?, Option.bind_eq_bind, Option.bind_eq_some_iff, mul?_eq_some, add?_eq_some, hten, hd]
  constructor
  · rintro ⟨tens, htens, hsum⟩
    omega
  · intro hsum
    have hz := z.isLt
    have htens : (BitVec.ofNat w (x.toNat * 10)).toNat = x.toNat * 10 := toNat_ofNat_of_lt (by omega)
    exact ⟨_, htens, by omega⟩

/-- Digits are read behind a number if there is room for all of them. The induction is on the
digits: what the first of them makes too large, the others only make larger (`push?_eq_some`). -/
theorem foldlM_push?_eq_some (hw : 4 ≤ w) {ds : List (Fin 10)} :
    ds.foldlM push? x = some z ↔ z.toNat = 10 ^ ds.length * x.toNat + Digits.number ds := by
  induction ds generalizing x with
  | nil =>
    rw [List.foldlM_nil, Option.pure_def, Option.some.injEq, BitVec.toNat_eq, List.length_nil,
      Nat.pow_zero, Nat.one_mul, eq_comm]
    rfl
  | cons d ds ih =>
    have hpow : 10 ^ (d :: ds).length * x.toNat + Digits.number (d :: ds) =
        10 ^ ds.length * (10 * x.toNat + d) + Digits.number ds := by
      rw [Digits.number_cons, List.length_cons, Nat.pow_succ]
      ring
    rw [hpow, List.foldlM_cons, Option.bind_eq_bind, Option.bind_eq_some_iff]
    simp only [push?_eq_some hw, ih]
    constructor
    · rintro ⟨y, hy, hz⟩
      rw [hz, hy]
    · intro hz
      -- there is room for the number with its first digit, as it is no larger than with all of them
      have hle : 10 * x.toNat + d ≤ 10 ^ ds.length * (10 * x.toNat + d) :=
        Nat.le_mul_of_pos_left _ (Nat.pow_pos (by decide))
      have hlt := z.isLt
      have hy : (BitVec.ofNat w (10 * x.toNat + d)).toNat = 10 * x.toNat + d :=
        toNat_ofNat_of_lt (by omega)
      exact ⟨_, hy, by rw [hy, hz]⟩

end Word

/-! ## Reading and writing

`ofString` decides two questions in turn, whether the text is a run of digits and whether their
number fits. The lemmas answer both for each outcome; those about `text` say that what is written
passes both. -/

namespace Amount

variable {s : String} {a : Amount}

theorem ofString_of_run (h : Digits.Run s.toList) :
    ofString s = ofNatOr .amountText (Nat.ofDigitChars 10 s.toList 0) := by
  rw [ofString, Digits.value?_eq_some.2 ⟨h, rfl⟩]

/-- What is no run of digits is refused as malformed, whatever its length, where `ofString_of_run`
would read it. -/
theorem ofString_of_not_run (h : ¬ Digits.Run s.toList) :
    ofString s = .error (.invalidAmount .notDecimal) := by
  rw [ofString, Digits.value?_eq_none.2 h]

/-- Which texts are read as a given amount: the runs of digits with its value (`ofNatOr_eq_ok`). -/
theorem ofString_eq_ok :
    ofString s = .ok a ↔ Digits.Run s.toList ∧ a.val = Nat.ofDigitChars 10 s.toList 0 := by
  by_cases h : Digits.Run s.toList
  · rw [ofString_of_run h, ofNatOr_eq_ok, and_iff_right h]
  · rw [ofString_of_not_run h]
    exact iff_of_false nofun fun hrun => h hrun.1

/-- Which texts are read at all (`exists_ofNatOr` on the value of the digits). -/
theorem exists_ofString :
    (∃ a, ofString s = .ok a) ↔ Digits.Run s.toList ∧ Nat.ofDigitChars 10 s.toList 0 < size := by
  by_cases h : Digits.Run s.toList
  · rw [ofString_of_run h, exists_ofNatOr, and_iff_right h]
  · rw [ofString_of_not_run h]
    exact iff_of_false nofun fun hrun => h hrun.1

/-- Which texts are too large: runs of digits whose number does not fit (`ofNatOr_eq_error`). -/
theorem ofString_eq_overflow : ofString s = .error (.overflow .amountText) ↔
    Digits.Run s.toList ∧ size ≤ Nat.ofDigitChars 10 s.toList 0 := by
  by_cases h : Digits.Run s.toList
  · rw [ofString_of_run h, ofNatOr_eq_error, and_iff_right rfl, and_iff_right h]
  · rw [ofString_of_not_run h]
    exact iff_of_false nofun fun hrun => h hrun.1

/-- Which texts are malformed: those that are no run of digits, and size plays no part in it. The
fault of `ofNatOr` is another one, so the two refusals are never confused. -/
theorem ofString_eq_notDecimal :
    ofString s = .error (.invalidAmount .notDecimal) ↔ ¬ Digits.Run s.toList := by
  by_cases h : Digits.Run s.toList
  · rw [ofString_of_run h, ofNatOr_eq_error]
    exact iff_of_false nofun (not_not_intro h)
  · rw [ofString_of_not_run h]
    exact iff_of_true rfl h

/-- An amount is written as a run of digits (`Digits.run_ofNat`). -/
theorem run_text (a : Amount) : Digits.Run a.text.toList := by
  rw [text, String.toList_ofList]
  exact Digits.run_ofNat a.val

theorem ofDigitChars_text (a : Amount) : Nat.ofDigitChars 10 a.text.toList 0 = a.val := by
  rw [text, String.toList_ofList, Digits.ofDigitChars_ofNat]

/-- What is written reads back (`run_text`, `ofDigitChars_text`); every JSON value and message that
carries an amount rests on this. -/
theorem ofString_text (a : Amount) : ofString a.text = .ok a :=
  ofString_eq_ok.2 ⟨a.run_text, a.ofDigitChars_text.symm⟩

/-- The texts of an amount are the one that is written, behind any number of zeros. A run of digits
is its number filled up to its own length (`Digits.Run.eq_padded`), and that is zeros and the digits
of the number. -/
theorem ofString_eq_ok_iff_zeros :
    ofString s = .ok a ↔ ∃ k, s.toList = List.replicate k '0' ++ a.text.toList := by
  rw [ofString_eq_ok]
  constructor
  · rintro ⟨hrun, hval⟩
    -- as many zeros as the text is longer than it would have to be
    refine ⟨s.toList.length - (Digits.ofNat a.val).length, ?_⟩
    rw [text, String.toList_ofList, hval]
    exact hrun.eq_padded
  · rintro ⟨k, hs⟩
    rw [hs, Nat.ofDigitChars_append, Nat.ofDigitChars_replicate_zero, Nat.mul_zero]
    refine ⟨⟨by simp [a.run_text.1], fun c hc => ?_⟩, a.ofDigitChars_text.symm⟩
    rcases List.mem_append.1 hc with hzero | hdigit
    · rw [List.eq_of_mem_replicate hzero]
      decide
    · exact a.run_text.2 c hdigit

/-- What is written has no zero in front, unless it is nothing but one
(`Digits.eq_zero_of_head?`). -/
theorem head?_text (a : Amount) (h : a.text.toList.head? = some '0') : a.text = "0" := by
  rw [text, String.toList_ofList] at h
  rw [text, Digits.eq_zero_of_head? h]
  rfl

/-! ### In words

The same reader with its number in a word of 128 bits, taken through the digits one by one. -/

/-- The amount that some digits stand for, read one by one, `none` where a step wraps. -/
def ofDigits? (ds : List (Fin 10)) : Option Amount :=
  (ds.foldlM Word.push? 0#128).map ofWord

/-- Read digit by digit, a list of digits is the amount of its number, and nothing where that does
not fit: `Word.foldlM_push?_eq_some` at a word of zero. -/
theorem ofDigits?_eq (ds : List (Fin 10)) : ofDigits? ds = ofNat? (Digits.number ds) := by
  have hread {z : BitVec 128} :
      ds.foldlM Word.push? 0#128 = some z ↔ z.toNat = Digits.number ds :=
    (Word.foldlM_push?_eq_some (by decide)).trans (by rw [BitVec.toNat_zero, Nat.mul_zero, Nat.zero_add])
  refine Option.ext fun a => ?_
  rw [ofDigits?, Option.map_eq_some_iff, ofNat?_eq_some_iff]
  constructor
  · rintro ⟨z, hz, rfl⟩
    exact hread.1 hz
  · intro ha
    have hword : (a.word 128).toNat = a.val := toNat_word (by decide) a
    exact ⟨a.word 128, hread.2 (hword.trans ha), Amount.ext hword⟩

end Amount

open Digits (number spell)

/-- Texts of one digit or more are read as the number that they spell, or refused as too large, and
no others are read. The text that is written for an amount is the one of them without a zero to
spare. -/
structure AmountTexts : Prop where
  accepts : ∀ s, (∃ a, Amount.ofString s = .ok a) ↔
    ∃ ds, ds ≠ [] ∧ spell ds = s ∧ number ds < 2 ^ 128
  reads : ∀ s a, Amount.ofString s = .ok a ↔ ∃ ds, ds ≠ [] ∧ spell ds = s ∧ a.val = number ds
  tooLarge : ∀ s, Amount.ofString s = .error (.overflow .amountText) ↔
    ∃ ds, ds ≠ [] ∧ spell ds = s ∧ 2 ^ 128 ≤ number ds
  refused : ∀ s, Amount.ofString s = .error (.invalidAmount .notDecimal) ↔
    ¬ ∃ ds, ds ≠ [] ∧ spell ds = s
  /-- Digit by digit in words of 128 bits, the same are too large. -/
  digitwise : ∀ ds, ds ≠ [] → Amount.ofString (spell ds) =
    match Amount.ofDigits? ds with
    | some a => .ok a
    | none => .error (.overflow .amountText)
  readsBack : ∀ a : Amount, Amount.ofString a.text = .ok a
  /-- Zeros in front are the only difference between the texts of an amount. -/
  zeros : ∀ s a, Amount.ofString s = .ok a ↔
    ∃ k, s.toList = List.replicate k '0' ++ a.text.toList
  /-- What is written are the digits of the amount, without a zero in front of them. -/
  writes : ∀ a : Amount, (∃ ds, ds ≠ [] ∧ spell ds = a.text ∧ number ds = a.val) ∧
    (a.text.toList.head? = some '0' → a.text = "0")

theorem amountTexts : AmountTexts where
  accepts s := by
    rw [Amount.exists_ofString, Digits.exists_spell (P := fun n => n < 2 ^ 128)]
    rfl
  reads s a := by
    rw [Amount.ofString_eq_ok, Digits.exists_spell (P := fun n => a.val = n)]
  tooLarge s := by
    rw [Amount.ofString_eq_overflow, Digits.exists_spell (P := fun n => 2 ^ 128 ≤ n)]
    rfl
  refused s := by
    rw [Amount.ofString_eq_notDecimal, Digits.run_iff_spell]
  digitwise ds hne := by
    have hrun : Digits.Run (spell ds).toList := Digits.run_iff_spell.2 ⟨ds, hne, rfl⟩
    rw [Amount.ofString_of_run hrun, Digits.ofDigitChars_spell, Amount.ofDigits?_eq]
    rfl
  readsBack := Amount.ofString_text
  zeros _ _ := Amount.ofString_eq_ok_iff_zeros
  writes a := by
    refine ⟨?_, a.head?_text⟩
    rw [Digits.exists_spell (P := fun n => n = a.val)]
    exact ⟨a.run_text, a.ofDigitChars_text⟩

/-- Zeros in front make no amount too large: 2 ^ 128 is, and one less is not. -/
example :
    Amount.ofString "0000340282366920938463463374607431768211455" = .ok .max ∧
      Amount.ofString "340282366920938463463374607431768211456" =
        .error (.overflow .amountText) := by
  decide +kernel

end PoolMarket
