import Mathlib.Algebra.Order.Field.Rat
import Mathlib.Tactic.FieldSimp
import Mathlib.Tactic.NormNum
import Mathlib.Tactic.Ring
import PoolMarket.BasisPoints
import PoolMarket.Proofs.Text

/-!
# What reads as basis points

A decimal fraction is written with digits and, where there is a point, more of them behind it. The
number it stands for is one thing, whether it can be read as basis points another: it must not be
finer than these, and not too large. What basis points are written as reads back as they were, and
is the shortest text that does.

* `Numeral` — the text taken apart at its point, with its `value` as a rational number and, where it
  is `Legible`, its `units` in basis points; the two agree by `Legible.units_eq`.
* `Numeral.ComesTo` — what reading makes of a numeral, one constructor per outcome;
  `comesTo_ofDecimal` proves it of every text, and the section on outcomes reads the answers off it.
* `ofDecimal_decimal` — what is written reads back.
* `Numeral.Legible.length_fixed_lt` — nothing shorter reads as the same number.
-/

namespace PoolMarket.BasisPoints

/-! ## What is written reads back

Digits hold no point, so the point that `fixed` writes is the first one in the text and
`splitPoint` finds the two parts as they were put down. -/

/-- No digit is a point: the condition under which `splitPoint` runs past it. -/
theorem ne_point_of_isDigit {front : List Char} (h : ∀ c ∈ front, c.isDigit = true) :
    ∀ c ∈ front, (c != '.') = true := by
  intro c hc
  rw [bne_iff_ne]
  rintro rfl
  exact absurd (h '.' hc) (by decide)

/-- Digits alone are all front, with no point behind which anything could stand
(`ne_point_of_isDigit`). -/
theorem splitPoint_of_digits {front : List Char} (h : ∀ c ∈ front, c.isDigit = true) :
    splitPoint front = (front, none) := by
  have hdrop : front.dropWhile (· != '.') = [] := by
    rw [← List.append_nil front, List.dropWhile_append_of_pos (ne_point_of_isDigit h)]
    rfl
  rw [splitPoint, hdrop]

/-- The point behind a run of digits is the first, so `splitPoint` cuts the text there, whatever
follows it. -/
theorem splitPoint_append {front : List Char} (h : ∀ c ∈ front, c.isDigit = true)
    (frac : List Char) : splitPoint (front ++ '.' :: frac) = (front, some frac) := by
  have hdrop : (front ++ '.' :: frac).dropWhile (· != '.') = '.' :: frac := by
    rw [List.dropWhile_append_of_pos (ne_point_of_isDigit h)]
    rfl
  have htake : (front ++ '.' :: frac).takeWhile (· != '.') = front := by
    rw [List.takeWhile_append_of_pos (ne_point_of_isDigit h)]
    simp
  rw [splitPoint, hdrop, htake]

/-- The basis points are the whole part and the places; neither bound of `assemble` is exceeded,
since `b` fits them as it is. -/
theorem assemble_div_mod (b : BasisPoints) : assemble (b.val / whole) (b.val % whole) = .ok b := by
  have hwhole : b.val / whole < size := Nat.lt_of_le_of_lt (Nat.div_le_self ..) b.lt
  have hsum : b.val / whole * whole + b.val % whole = b.val := Nat.div_add_mod' ..
  rw [assemble, if_pos hwhole, hsum, ofNat?, dif_pos b.lt]

/-- What basis points are written as reads back as they were. The two forms of `fixed` are the two
forms that `ofDecimal` reads, and in each the parts go together by `assemble_div_mod`. -/
theorem ofDecimal_decimal (b : BasisPoints) : ofDecimal b.decimal = .ok b := by
  have hdigits : ∀ c ∈ Digits.ofNat (b.val / whole), c.isDigit = true := fun _ =>
    Digits.isDigit_of_mem_ofNat
  have hall := assemble_div_mod b
  rw [ofDecimal, decimal, String.toList_ofList]
  by_cases hmod : b.val % whole = 0
  · have hfixed : Digits.fixed places b.val = Digits.ofNat (b.val / whole) :=
      Digits.fixed_of_mod_eq_zero hmod
    rw [hmod] at hall
    rw [hfixed, splitPoint_of_digits hdigits]
    simp only [Digits.value?_ofNat]
    exact hall
  · have hrest : b.val % Nat.pow 10 places ≠ 0 := hmod
    have hunit : Nat.pow 10 places = whole := rfl
    obtain ⟨frac, hfixed, hread, hlength, hvalue, -⟩ := Digits.fixed_of_mod_ne_zero hrest
    rw [hunit] at hfixed hvalue
    -- no place is beyond the four that count, so none is dropped
    have hplaces : ofPlaces? frac = some (b.val % whole) := by
      rw [ofPlaces?, List.drop_of_length_le hlength, List.take_of_length_le hlength]
      exact congrArg some hvalue
    rw [hfixed, splitPoint_append hdigits]
    simp only [Digits.value?_ofNat, hread, hplaces]
    exact hall

/-! ## Decimal fractions

A text is split at its point before anything else is asked of it, so the statements are about the
parts, a `Numeral`. `value` and `units` are what they stand for, once as a number and once in the
unit that is read; `Legible` is the grammar. -/

/-- A decimal fraction as it is written: what stands in front of the point and, where there is a
point, behind it. -/
structure Numeral where
  front : List Char
  behind : Option (List Char)

namespace Numeral

/-- The characters of the text: the front and, if there is a point, the point with what is behind
it. -/
def chars (n : Numeral) : List Char := n.front ++ (n.behind.map ('.' :: ·)).getD []

/-- The text that the two parts were split from (`text_ofText`). -/
def text (n : Numeral) : String := String.ofList n.chars

/-- The digits behind the point, if any. -/
def frac (n : Numeral) : List Char := n.behind.getD []

/-- One or more digits, and one or more behind the point if there is one, not finer than basis
points. -/
structure Legible (n : Numeral) : Prop where
  front : Digits.Run n.front
  behind : ∀ frac ∈ n.behind, Digits.Run frac
  fine : ∀ c ∈ n.frac.drop 4, c = '0'

/-- The number that the digits stand for. -/
def value (n : Numeral) : ℚ :=
  (Nat.ofDigitChars 10 (n.front ++ n.frac) 0 : ℚ) / 10 ^ n.frac.length

/-- The basis points in a numeral that is not finer than these. -/
def units (n : Numeral) : Nat :=
  Nat.ofDigitChars 10 n.front 0 * whole +
    Nat.ofDigitChars 10 (n.frac.take places) 0 * Nat.pow 10 (places - n.frac.length)

variable {n : Numeral} {s : String}

/-- The places are digits whether or not there is a point, so lemmas about `frac` need no case
split. -/
theorem isDigit_frac (h : ∀ frac ∈ n.behind, Digits.Run frac) : ∀ c ∈ n.frac, c.isDigit = true := by
  intro c hc
  cases hbehind : n.behind with
  | none =>
    rw [frac, hbehind] at hc
    cases hc
  | some frac =>
    rw [Numeral.frac, hbehind] at hc
    exact (h frac hbehind).2 c hc

/-- The places past the fourth are zeros (`Legible.fine`), each of which stands for a factor of ten,
so the four that count carry the whole value. -/
theorem Legible.ofDigitChars_frac (h : n.Legible) :
    Nat.ofDigitChars 10 n.frac 0 =
      Nat.ofDigitChars 10 (n.frac.take places) 0 * Nat.pow 10 (n.frac.length - places) := by
  have hzeros : n.frac.drop places = List.replicate (n.frac.length - places) '0' :=
    List.eq_replicate_iff.2 ⟨List.length_drop, h.fine⟩
  conv => lhs; rw [← List.take_append_drop places n.frac]
  rw [hzeros, Nat.ofDigitChars_append, Nat.ofDigitChars_replicate_zero, Nat.mul_comm]
  rfl

/-- `units` and `value` agree, said without a division: both sides over the power of ten that
`value` divides by. There may be fewer than four places or more, which is why the exponents are
rearranged. -/
theorem Legible.units_mul (h : n.Legible) : n.units * Nat.pow 10 n.frac.length =
    Nat.ofDigitChars 10 (n.front ++ n.frac) 0 * 10000 := by
  have hpow : Nat.pow 10 (places - n.frac.length) * Nat.pow 10 n.frac.length =
      Nat.pow 10 (n.frac.length - places) * 10000 := by
    have hwhole : 10000 = Nat.pow 10 places := rfl
    have hlength : places - n.frac.length + n.frac.length = n.frac.length - places + places := by
      omega
    rw [hwhole, Nat.pow_eq, Nat.pow_eq, Nat.pow_eq, Nat.pow_eq, ← Nat.pow_add, ← Nat.pow_add,
      hlength]
  rw [Nat.ofDigitChars_append, Nat.ofDigitChars_eq_ofDigitChars_zero, h.ofDigitChars_frac, units]
  calc _ = Nat.ofDigitChars 10 n.front 0 * 10000 * Nat.pow 10 n.frac.length +
        Nat.ofDigitChars 10 (n.frac.take places) 0 *
          (Nat.pow 10 (places - n.frac.length) * Nat.pow 10 n.frac.length) := by ring
    _ = _ := by
      rw [hpow, Nat.pow_eq]
      ring

/-- The basis points of a legible numeral are ten thousand times its value, exactly: `units_mul`
divided out. -/
theorem Legible.units_eq (h : n.Legible) : (n.units : ℚ) = n.value * 10000 := by
  have hmul := h.units_mul
  rw [Nat.pow_eq] at hmul
  rw [value, div_mul_eq_mul_div, eq_div_iff (by positivity)]
  exact_mod_cast hmul

/-! ## The numeral of a text

Every text has just one numeral that could be `Legible`, the one that `splitPoint` gives. This
is what turns a statement about some numeral of a text into one about `ofText`, which reading
computes. -/

/-- What stands in front of the first point of a text, and behind it. -/
def ofText (s : String) : Numeral := ⟨(splitPoint s.toList).1, (splitPoint s.toList).2⟩

/-- Splitting loses nothing: the parts of a text, put together again, are the text. -/
theorem text_ofText (s : String) : (ofText s).text = s := by
  have hsplit : s.toList.takeWhile (· != '.') ++ s.toList.dropWhile (· != '.') = s.toList :=
    List.takeWhile_append_dropWhile
  rw [text, chars, ofText, ← String.toList_inj, String.toList_ofList]
  unfold splitPoint
  split
  · simp
  · next c frac hdrop =>
    have hpoint : c = '.' := by
      have hnot := List.head?_dropWhile_not (· != '.') s.toList
      rw [hdrop] at hnot
      simpa using hnot
    rw [hdrop, hpoint] at hsplit
    exact hsplit

/-- Where there are digits in front, they hold no point, so the first is the one between the parts.
The other way round from `text_ofText`, and it needs the digits (`splitPoint_of_digits`). -/
theorem ofText_text (hfront : ∀ c ∈ n.front, c.isDigit = true) : ofText n.text = n := by
  obtain ⟨front, behind⟩ := n
  rw [ofText, text, chars, String.toList_ofList]
  cases behind with
  | none =>
    rw [Option.map_none, Option.getD_none, List.append_nil, splitPoint_of_digits hfront]
  | some frac =>
    rw [Option.map_some, Option.getD_some, splitPoint_append hfront]

theorem Legible.ofText_text (h : n.Legible) : ofText n.text = n := Numeral.ofText_text h.front.2

/-- A text is that of a legible numeral with some property exactly if its own parts are (`ofText`):
`Legible.ofText_text` one way, `text_ofText` the other. Each field of the final statement begins
with it. -/
theorem exists_legible_iff {P : Numeral → Prop} :
    (∃ n : Numeral, n.text = s ∧ n.Legible ∧ P n) ↔ (ofText s).Legible ∧ P (ofText s) := by
  constructor
  · rintro ⟨n, rfl, hlegible, hn⟩
    rw [hlegible.ofText_text]
    exact ⟨hlegible, hn⟩
  · rintro ⟨hlegible, hn⟩
    exact ⟨ofText s, text_ofText s, hlegible, hn⟩

/-! ## Reading

The four ways in which `ofDecimal` can end are gathered in `ComesTo`, each with what holds of the
numeral there. The statement about all texts is proved once, by following `ofDecimal`; its
consequences are case distinctions over the three constructors. -/

/-- What reading a numeral comes to. -/
inductive ComesTo (n : Numeral) : Outcome BasisPoints → Prop where
  | read {b : BasisPoints} (legible : n.Legible) (val_eq : b.val = n.units) : ComesTo n (.ok b)
  | tooLarge {what : OverflowFault} (legible : n.Legible) (size_le : size ≤ n.units) :
      ComesTo n (.error (.overflow what))
  | refused {why : SettingFault} (illegible : ¬ n.Legible) :
      ComesTo n (.error (.invalidSetting why))

/-- `assemble` on the parts of a legible numeral: read if the basis points fit, and too large
otherwise, also where the whole part alone is. -/
theorem Legible.comesTo (h : n.Legible) {wholePart fraction : Nat}
    (hunits : n.units = wholePart * whole + fraction) : n.ComesTo (assemble wholePart fraction) := by
  unfold assemble
  split
  · by_cases hlt : wholePart * whole + fraction < size
    · rw [ofNat?, dif_pos hlt]
      exact .read h hunits.symm
    · rw [ofNat?, dif_neg hlt]
      exact .tooLarge h (hunits ▸ Nat.le_of_not_lt hlt)
  · next hlarge =>
    have hle : wholePart ≤ wholePart * whole := Nat.le_mul_of_pos_right _ (by decide)
    exact .tooLarge h (by omega)

/-- What reading makes of any text. The cases are those of `ofDecimal`: no point, or a point with
both parts made of digits and no place too fine; every other way out is a refusal, and contradicts
one field of `Legible`. -/
theorem comesTo_ofDecimal (s : String) : (ofText s).ComesTo (ofDecimal s) := by
  unfold ofDecimal ofText
  split
  · next front hsplit =>
    rw [hsplit]
    cases hfront : Digits.value? front with
    | none => exact .refused fun h => Digits.value?_eq_none.1 hfront h.front
    | some w =>
      obtain ⟨hrun, rfl⟩ := Digits.value?_eq_some.1 hfront
      have hlegible : (Numeral.mk front none).Legible :=
        { front := hrun
          behind := by rintro _ ⟨⟩
          fine := by simp [frac] }
      exact hlegible.comesTo (by simp [units, frac])
  · next front frac hsplit =>
    rw [hsplit]
    cases hfront : Digits.value? front with
    | none => exact .refused fun h => Digits.value?_eq_none.1 hfront h.front
    | some w =>
      cases hfrac : Digits.value? frac with
      | none => exact .refused fun h => Digits.value?_eq_none.1 hfrac (h.behind frac rfl)
      | some all =>
        obtain ⟨hrun, rfl⟩ := Digits.value?_eq_some.1 hfront
        obtain ⟨hfracRun, rfl⟩ := Digits.value?_eq_some.1 hfrac
        -- the places behind the fourth do not count, and have to be zeros
        by_cases hfine : ∀ c ∈ frac.drop 4, c = '0'
        · have hplaces : ofPlaces? frac =
              some (Nat.ofDigitChars 10 (frac.take places) 0 * Nat.pow 10 (places - frac.length)) :=
            if_pos (List.all_eq_true.2 fun c hc => beq_iff_eq.2 (hfine c hc))
          simp only [hplaces]
          have hlegible : (Numeral.mk front (some frac)).Legible :=
            { front := hrun
              behind := by rintro _ ⟨⟩; exact hfracRun
              fine := hfine }
          exact hlegible.comesTo rfl
        · have hplaces : ofPlaces? frac = none :=
            if_neg fun h => hfine fun c hc => beq_iff_eq.1 (List.all_eq_true.1 h c hc)
          simp only [hplaces]
          exact .refused fun h => hfine h.fine

section Outcomes

variable {out : Outcome BasisPoints} {b : BasisPoints}

/-- A numeral is read exactly if it is legible and its basis points fit 32 bits. The three readings
of `ComesTo` are taken apart by this and by the two that follow. -/
theorem ComesTo.exists_ok (h : n.ComesTo out) :
    (∃ b, out = .ok b) ↔ n.Legible ∧ n.units < size := by
  cases h with
  | @read b legible val_eq => exact iff_of_true ⟨b, rfl⟩ ⟨legible, val_eq ▸ b.lt⟩
  | tooLarge _ size_le => exact iff_of_false nofun fun h => Nat.not_lt.2 size_le h.2
  | refused illegible => exact iff_of_false nofun fun h => illegible h.1

/-- What it is read as: the basis points with the numeral's `units`, and no other. -/
theorem ComesTo.eq_ok (h : n.ComesTo out) : out = .ok b ↔ n.Legible ∧ b.val = n.units := by
  cases h with
  | @read c legible val_eq =>
    rw [Except.ok.injEq, BasisPoints.ext_iff, val_eq, eq_comm]
    exact (and_iff_right legible).symm
  | tooLarge _ size_le => exact iff_of_false nofun fun h => Nat.not_lt.2 size_le (h.2 ▸ b.lt)
  | refused illegible => exact iff_of_false nofun fun h => illegible h.1

/-- Only size leads to an overflow, and a legible numeral that is too large leads to nothing else
(`ComesTo.exists_ok`). -/
theorem ComesTo.exists_overflow (h : n.ComesTo out) :
    (∃ what, out = .error (.overflow what)) ↔ n.Legible ∧ size ≤ n.units := by
  cases h with
  | @read b _ val_eq => exact iff_of_false nofun fun h => Nat.not_lt.2 h.2 (val_eq ▸ b.lt)
  | tooLarge legible size_le => exact iff_of_true ⟨_, rfl⟩ ⟨legible, size_le⟩
  | refused illegible => exact iff_of_false nofun fun h => illegible h.1

/-- Only the grammar leads to a refusal, whatever the size. What is legible does not come to it, by
`ComesTo`. -/
theorem ComesTo.exists_invalidSetting (h : n.ComesTo out) :
    (∃ why, out = .error (.invalidSetting why)) ↔ ¬ n.Legible := by
  cases h with
  | read legible _ => exact iff_of_false nofun (not_not_intro legible)
  | tooLarge legible _ => exact iff_of_false nofun (not_not_intro legible)
  | refused illegible => exact iff_of_true ⟨_, rfl⟩ illegible

end Outcomes

/-! ## Writing

`decimal` writes `fixed places`, so the shortest text is a matter of the digits in front of the
point (`Digits.length_ofNat_lt`) and of those behind it (`Digits.length_lt_of_getLast?`). Whether
there is a point at all splits the proof in two. -/

/-- The places make up less than a whole, so `units` can be divided back into its two parts. -/
theorem Legible.places_lt (h : n.Legible) :
    Nat.ofDigitChars 10 (n.frac.take places) 0 * Nat.pow 10 (places - n.frac.length) < whole := by
  have hlt : Nat.ofDigitChars 10 (n.frac.take places) 0 <
      Nat.pow 10 (n.frac.take places).length :=
    Digits.ofDigitChars_lt fun c hc => isDigit_frac h.behind c (List.mem_of_mem_take hc)
  have hwhole : Nat.pow 10 (n.frac.take places).length * Nat.pow 10 (places - n.frac.length) =
      whole := by
    have hlength : (n.frac.take places).length + (places - n.frac.length) = places := by
      rw [List.length_take]
      omega
    rw [Nat.pow_eq, Nat.pow_eq, ← Nat.pow_add, hlength]
    rfl
  rw [← hwhole]
  exact Nat.mul_lt_mul_of_pos_right hlt (Nat.pow_pos (by omega))

/-- The whole part of the basis points is the number in front of the point (`places_lt`). -/
theorem Legible.units_div (h : n.Legible) : n.units / whole = Nat.ofDigitChars 10 n.front 0 := by
  rw [units, Nat.add_comm, Nat.add_mul_div_right _ _ (by decide), Nat.div_eq_of_lt h.places_lt,
    Nat.zero_add]

/-- The rest of the basis points is what the places stand for (`places_lt`). -/
theorem Legible.units_mod (h : n.Legible) : n.units % whole =
    Nat.ofDigitChars 10 (n.frac.take places) 0 * Nat.pow 10 (places - n.frac.length) := by
  rw [units, Nat.add_comm, Nat.add_mul_mod_self_right, Nat.mod_eq_of_lt h.places_lt]

/-- What is written in front of the point is no longer than what was there
(`Digits.length_ofNat_lt`). -/
theorem Legible.length_front_le (h : n.Legible) :
    (Digits.ofNat (Nat.ofDigitChars 10 n.front 0)).length ≤ n.front.length := by
  by_cases heq : n.front = Digits.ofNat (Nat.ofDigitChars 10 n.front 0)
  · exact Nat.le_of_eq (congrArg List.length heq.symm)
  · exact Nat.le_of_lt (Digits.length_ofNat_lt h.front heq)

theorem chars_of_none (h : n.behind = none) : n.chars = n.front := by
  rw [chars, h, Option.map_none, Option.getD_none, List.append_nil]

theorem chars_of_some {cs : List Char} (h : n.behind = some cs) :
    n.chars = n.front ++ '.' :: cs := by
  rw [chars, h, Option.map_some, Option.getD_some]

/-- No place is written where none is worth anything: a text of the same number with a point is
longer by the point, and one without it by a zero in front (`Digits.fixed_of_mod_eq_zero`). -/
theorem Legible.length_fixed_lt_of_whole (h : n.Legible) (hzero : n.units % whole = 0)
    (hne : n.chars ≠ Digits.fixed places n.units) :
    (Digits.fixed places n.units).length < n.chars.length := by
  have hfixed : Digits.fixed places n.units = Digits.ofNat (n.units / whole) :=
    Digits.fixed_of_mod_eq_zero hzero
  rw [h.units_div] at hfixed
  rw [hfixed] at hne ⊢
  cases hbehind : n.behind with
  | none =>
    rw [chars_of_none hbehind] at hne ⊢
    exact Digits.length_ofNat_lt h.front hne
  | some cs =>
    have hle := h.length_front_le
    rw [chars_of_some hbehind, List.length_append, List.length_cons]
    omega

/-- No zero is written at the end of the places. A different text of the same number differs in its
places, and is longer there by `Digits.length_lt_of_getLast?`, or has the same places and is longer
in front. -/
theorem Legible.length_fixed_lt_of_places (h : n.Legible) (hsome : n.units % whole ≠ 0)
    (hne : n.chars ≠ Digits.fixed places n.units) :
    (Digits.fixed places n.units).length < n.chars.length := by
  have hrest : n.units % Nat.pow 10 places ≠ 0 := hsome
  have hunit : Nat.pow 10 places = whole := rfl
  obtain ⟨frac, hfixed, hread, hlength, hvalue, hlast⟩ := Digits.fixed_of_mod_ne_zero hrest
  rw [hunit, h.units_mod] at hvalue
  rw [hunit, h.units_div] at hfixed
  cases hbehind : n.behind with
  | none =>
    -- there are no places, so nothing would be left
    rw [h.units_mod, Numeral.frac, hbehind] at hsome
    exact absurd (Nat.zero_mul _) hsome
  | some cs =>
    have hcs : n.frac = cs := by rw [Numeral.frac, hbehind, Option.getD_some]
    rw [hcs] at hvalue
    have hle := h.length_front_le
    rw [hfixed, chars_of_some hbehind] at hne ⊢
    rw [List.length_append, List.length_append, List.length_cons, List.length_cons]
    by_cases hsame : cs = frac
    · have hfront : n.front ≠ Digits.ofNat (Nat.ofDigitChars 10 n.front 0) := fun heq =>
        hne (by rw [← heq, hsame])
      have hlt := Digits.length_ofNat_lt h.front hfront
      rw [hsame]
      omega
    · have hlt := Digits.length_lt_of_getLast? (Digits.value?_eq_some.1 hread).1.2
        (h.behind cs hbehind).2 hlength hlast hvalue hsame
      omega

/-- No other text of a numeral is as short as the one that its basis points are written as. The two
cases are those of `fixed`: no point (`length_fixed_lt_of_whole`) and a point
(`length_fixed_lt_of_places`). -/
theorem Legible.length_fixed_lt (h : n.Legible) (hne : n.chars ≠ Digits.fixed places n.units) :
    (Digits.fixed places n.units).length < n.chars.length := by
  by_cases hzero : n.units % whole = 0
  · exact h.length_fixed_lt_of_whole hzero hne
  · exact h.length_fixed_lt_of_places hzero hne

end Numeral

open Numeral

/-- Decimal fractions are read exactly, or refused for what is wrong with them, and written as
shortly as can be. The four ways of reading are stated over numerals, so that "the number that the
text stands for" is `Numeral.value` and not what the reader computes. -/
structure DecimalsExact : Prop where
  accepts : ∀ s, (∃ b, ofDecimal s = .ok b) ↔
    ∃ n : Numeral, n.text = s ∧ n.Legible ∧ n.value * 10000 < 2 ^ 32
  reads : ∀ s b, ofDecimal s = .ok b ↔
    ∃ n : Numeral, n.text = s ∧ n.Legible ∧ (b.val : ℚ) = n.value * 10000
  tooLarge : ∀ s, (∃ what, ofDecimal s = .error (.overflow what)) ↔
    ∃ n : Numeral, n.text = s ∧ n.Legible ∧ 2 ^ 32 ≤ n.value * 10000
  refused : ∀ s, (∃ why, ofDecimal s = .error (.invalidSetting why)) ↔
    ¬ ∃ n : Numeral, n.text = s ∧ n.Legible
  readsBack : ∀ b : BasisPoints, ofDecimal b.decimal = .ok b
  shortest : ∀ s b, ofDecimal s = .ok b → s ≠ b.decimal → b.decimal.length < s.length

theorem decimalsExact : DecimalsExact where
  accepts s := by
    rw [exists_legible_iff, (comesTo_ofDecimal s).exists_ok]
    refine and_congr_right fun h => ?_
    rw [← h.units_eq]
    norm_cast
  reads s b := by
    rw [exists_legible_iff, (comesTo_ofDecimal s).eq_ok]
    refine and_congr_right fun h => ?_
    rw [← h.units_eq, Nat.cast_inj]
  tooLarge s := by
    rw [exists_legible_iff, (comesTo_ofDecimal s).exists_overflow]
    refine and_congr_right fun h => ?_
    rw [← h.units_eq]
    norm_cast
  refused s := by
    rw [(comesTo_ofDecimal s).exists_invalidSetting, not_iff_not]
    constructor
    · exact fun h => ⟨ofText s, text_ofText s, h⟩
    · rintro ⟨n, rfl, h⟩
      rwa [h.ofText_text]
  readsBack := ofDecimal_decimal
  shortest s b h hne := by
    obtain ⟨hlegible, hval⟩ := (comesTo_ofDecimal s).eq_ok.1 h
    have htext : s = String.ofList (ofText s).chars := (text_ofText s).symm
    -- any other text of the same value is longer
    have hlt := hlegible.length_fixed_lt fun hchars => hne (by rw [htext, hchars, ← hval]; rfl)
    rw [decimal, htext, String.length_ofList, String.length_ofList, hval]
    exact hlt

/-- Zeros that make no difference are read, and not written. -/
example : (ofDecimal "007.50000").map decimal = .ok "7.5" := by decide +kernel

end PoolMarket.BasisPoints
