import PoolMarket.Json.Reader
import PoolMarket.Json.Writer
import PoolMarket.Proofs.Json.FreeForm
import PoolMarket.Proofs.Text

/-!
# Text that reads back

A value without doubles reads back from its compact text. Each reader takes what the writer of its
part has written and leaves the rest, whatever follows; a number has to be followed by something
that does not go on with it. The bound on nested parts is no less than the length of the text, and
every reader uses up less of it than of the text.

* `exact` — the values that have a text of their own.
* `readString?_quoted`, `readUnsigned?_ofNat` — the two leaves whose end has to be found.
* `readValue?_chars`, with `readItems?_chars` and `readMembers?_chars` — the mutual induction along
  the writer. Its steps are the lemmas in front of it, one for each branch of a reader, so that the
  readers are unfolded there and nowhere else.
* `ofText?_text` — a whole text; `freeForm?_canonical` is its counterpart for free-form values.
-/

namespace PoolMarket.Json

mutual

/-- The value has a text of its own: no doubles, no integers beyond 64 bits, nothing unusable. -/
def exact : Json → Bool
  | .num (.int n) => -9223372036854775808 ≤ n && n < 18446744073709551616
  | .num (.double _) => false
  | .arr items => exactItems items
  | .obj members => exactMembers members
  | .unusable => false
  | _ => true

/-- Every item has a text of its own. -/
def exactItems : List Json → Bool
  | [] => true
  | j :: rest => j.exact && exactItems rest

/-- So does every member's value; its name is a string and always has. -/
def exactMembers : List (String × Json) → Bool
  | [] => true
  | (_, j) :: rest => j.exact && exactMembers rest

end

/-! ## Strings

What is written for a character is either itself or an escape, and no escape is the beginning of
another part. `stringPart?` therefore takes just what `escape` wrote, and a string follows by
induction up to the closing quote, which is never the first character of an escape. -/

/-- A control character is below 32, so two of its four digits are zeros and there are only 32 cases
to look at. So `decide` goes through them. -/
theorem hex4_control : ∀ n < 32,
    hex4 n = ['0', '0', Nat.digitChar (n / 16), Nat.digitChar (n % 16)] := by decide

theorem hex4?_control : ∀ n < 32,
    hex4? '0' '0' (Nat.digitChar (n / 16)) (Nat.digitChar (n % 16)) = some n := by decide

/-- A control character written by its number reads back as that character, and as no half of a pair
(`hex4?_control`). -/
theorem stringPart?_control {n : Nat} (h : n < 32) (rest : List Char) :
    stringPart? ('\\' :: 'u' :: (hex4 n ++ rest)) = some (.char (Char.ofNat n), rest) := by
  have hread := hex4?_control n h
  have hhigh : isHighSurrogate n = false := by simp [isHighSurrogate]; omega
  have hlow : isLowSurrogate n = false := by simp [isLowSurrogate]; omega
  have hafter : afterUnicode n rest = (.char (Char.ofNat n), rest) := by
    simp [afterUnicode, hhigh, hlow]
  rw [hex4_control n h]
  simp only [List.cons_append, List.nil_append]
  rw [stringPart?, hread, Option.map_some, hafter]

/-- A character that needs no escape stands for itself. The other cases of `stringPart?` begin with
a quote or a backslash. -/
theorem stringPart?_plain {c : Char} (hquote : c ≠ '"') (hbackslash : c ≠ '\\')
    (hprinted : ¬ c.toNat < 32) (rest : List Char) :
    stringPart? (c :: rest) = some (.char c, rest) := by
  have hplain : ¬ (c.toNat < 32 ∨ c = '\\') := by
    rintro (hcontrol | rfl)
    · exact hprinted hcontrol
    · exact hbackslash rfl
  rw [stringPart?, if_neg hplain]
  -- the cases before this one are a quote and two that begin with a backslash
  · exact hquote
  · intro _ _ _ _ _ h _
    exact hbackslash h
  · intro _ _ h _
    exact hbackslash h

/-- A character of a string reads back from its escape, whatever follows: one of those with a short
escape, a control character, or any other, which stands for itself: `stringPart?_control`,
`stringPart?_plain`, or by looking at it. -/
theorem stringPart?_escape (c : Char) (rest : List Char) :
    stringPart? (escape c ++ rest) = some (.char c, rest) := by
  unfold escape
  split
  case h_8 hquote hbackslash _ _ _ _ _ =>
    split
    · next hcontrol =>
      have hread := stringPart?_control hcontrol rest
      rw [Char.ofNat_toNat] at hread
      exact hread
    · next hprinted => exact stringPart?_plain hquote hbackslash hprinted rest
  -- the others have an escape of their own
  all_goals rfl

/-- The characters of a string read back up to the closing quote. By induction on them; each uses up
one unit of the bound and the quote the last (`stringPart?_escape`). -/
theorem readString?_escaped (s rest : List Char) {bound : Nat} (h : s.length < bound) :
    readString? bound (s.flatMap escape ++ '"' :: rest) = some (some s, rest) := by
  induction s generalizing bound with
  | nil =>
    obtain ⟨bound, rfl⟩ := Nat.exists_eq_succ_of_ne_zero (Nat.ne_of_gt h)
    rfl
  | cons c s ih =>
    obtain ⟨bound, rfl⟩ := Nat.exists_eq_succ_of_ne_zero (Nat.ne_of_gt (Nat.zero_lt_of_lt h))
    rw [List.length_cons] at h
    rw [List.flatMap_cons, List.append_assoc, readString?, stringPart?_escape]
    simp only [ih (Nat.lt_of_succ_lt_succ h)]
    rfl

/-! ## Numbers

Digits have no closing mark, so a number ends where what follows does not go on with it. `Ends`
names that condition; in a value it is met by a comma, a bracket, a brace and the end of the
text. -/

/-- What follows a number and does not go on with it. -/
def Ends (rest : List Char) : Prop :=
  ∀ c ∈ rest.head?, c.isDigit = false ∧ c ≠ '.' ∧ c ≠ 'e' ∧ c ≠ 'E'

theorem ends_cons {c : Char} (h : c.isDigit = false ∧ c ≠ '.' ∧ c ≠ 'e' ∧ c ≠ 'E')
    (rest : List Char) : Ends (c :: rest) := by
  rintro _ ⟨⟩
  exact h

/-- The digits of a number are all taken, and nothing behind them
(`Digits.isDigit_of_mem_ofNat`). -/
theorem readDigits?_ofNat (n : Nat) {rest : List Char} (h : Ends rest) :
    readDigits? (Digits.ofNat n ++ rest) = some (Digits.ofNat n, rest) := by
  have hdigits : ∀ c ∈ Digits.ofNat n, c.isDigit = true := fun _ => Digits.isDigit_of_mem_ofNat
  have hnone : rest.takeWhile Char.isDigit = [] ∧ rest.dropWhile Char.isDigit = rest := by
    cases rest with
    | nil => exact ⟨rfl, rfl⟩
    | cons c rest => simp [(h c rfl).1]
  rw [readDigits?, List.takeWhile_append_of_pos hdigits, hnone.1, List.append_nil,
    List.dropWhile_append_of_pos hdigits, hnone.2]
  split
  · next hnil => exact absurd hnil (Digits.ofNat_ne_nil n)
  · rfl

/-- No zero stands in front (`Digits.eq_zero_of_head?`), so the digits are all taken as the whole
part. -/
theorem readWhole?_ofNat (n : Nat) {rest : List Char} (h : Ends rest) :
    readWhole? (Digits.ofNat n ++ rest) = some (Digits.ofNat n, rest) := by
  have hfront : ¬ ((Digits.ofNat n).head? = some '0' ∧ 1 < (Digits.ofNat n).length) := by
    rintro ⟨hzero, hlength⟩
    have hn : n = 0 := Digits.eq_zero_of_head? hzero
    rw [hn] at hlength
    exact absurd hlength (by decide)
  rw [readWhole?, readDigits?_ofNat n h]
  exact if_neg hfront

/-- No point follows, so there are no places (`Ends`). -/
theorem readFrac?_of_ends {rest : List Char} (h : Ends rest) :
    readFrac? rest = some (none, rest) := by
  cases rest with
  | nil => rfl
  | cons c rest =>
    rw [readFrac?]
    rintro _ ⟨⟩
    exact (h _ rfl).2.1 rfl

theorem readExponent?_of_ends {rest : List Char} (h : Ends rest) :
    readExponent? rest = some (none, rest) := by
  cases rest with
  | nil => rfl
  | cons c rest =>
    obtain ⟨-, -, hsmall, hcapital⟩ := h c rfl
    simp [readExponent?, hsmall, hcapital]

/-- Digits alone are read as the literal that they make. What that is depends on the sign and the
size, and comes from the hypothesis (`ofLiteral?_ofNat`, `ofLiteral?_negative`). -/
theorem readUnsigned?_ofNat (negative : Bool) (n : Nat) {m : Number}
    (hliteral : Number.ofLiteral? negative (Digits.ofNat n) none none = some m) {rest : List Char}
    (h : Ends rest) :
    readUnsigned? negative (Digits.ofNat n ++ rest) = some (.num m, rest) := by
  rw [readUnsigned?]
  simp only [readWhole?_ofNat n h, readFrac?_of_ends h, readExponent?_of_ends h, hliteral,
    Option.bind_eq_bind, Option.bind_some]
  rfl

theorem ofLiteral?_ofNat {n : Nat} (h : n < UInt64.size) :
    Number.ofLiteral? false (Digits.ofNat n) none none = some (.int n) := by
  simp [Number.ofLiteral?, Digits.ofDigitChars_ofNat, h]

/-- A negative number that a signed word of 64 bits holds is an integer, as a natural one is
(`ofLiteral?_ofNat`); minus zero is a double and not meant here. -/
theorem ofLiteral?_negative {n : Nat} (hpos : 0 < n) (h : 2 * n ≤ UInt64.size) :
    Number.ofLiteral? true (Digits.ofNat n) none none = some (.int (-n)) := by
  simp [Number.ofLiteral?, Digits.ofDigitChars_ofNat, hpos, h]

/-! ## Values

For each branch of `readValue?`, `readItems?` and `readMembers?` there is one lemma that says what
it gives if the readers inside it succeed. The mutual induction at the end of the section follows
the writer and cites them; the bound on nested parts goes down along with the length of the text. -/

theorem not_blank_of_isDigit {c : Char} (h : c.isDigit = true) : isBlank c = false := by
  cases hblank : isBlank c with
  | false => rfl
  | true =>
    simp only [isBlank, Bool.or_eq_true, beq_iff_eq] at hblank
    rcases hblank with ((rfl | rfl) | rfl) | rfl <;> exact absurd h (by decide)

/-- Nothing is skipped in front of what is no blank. The compact text has no blanks, so this is used
for every mark (`readValue?`). -/
theorem skipBlanks_cons {c : Char} (h : isBlank c = false) (rest : List Char) :
    skipBlanks (c :: rest) = c :: rest := by
  rw [skipBlanks, List.dropWhile_cons_of_neg (by simp [h])]

/-- Neither a blank nor the end of a list is in front of a value. What it begins with tells its
kind, and there always is such a character. By the kinds of `Json`. -/
theorem exists_chars {j : Json} (h : j.exact = true) :
    ∃ c cs, j.chars = c :: cs ∧ isBlank c = false ∧ c ≠ ']' := by
  -- what a value begins with tells its kind
  cases j with
  | null => exact ⟨'n', _, rfl, rfl, by decide⟩
  | bool b =>
    cases b with
    | false => exact ⟨'f', _, rfl, rfl, by decide⟩
    | true => exact ⟨'t', _, rfl, rfl, by decide⟩
  | num m =>
    cases m with
    | int n =>
      cases n with
      | ofNat n =>
        obtain ⟨c, cs, hcons⟩ := List.exists_cons_of_ne_nil (Digits.ofNat_ne_nil n)
        have hdigit : c.isDigit = true := Digits.isDigit_of_mem_ofNat (hcons ▸ List.mem_cons_self)
        refine ⟨c, cs, hcons, not_blank_of_isDigit hdigit, ?_⟩
        rintro rfl
        exact absurd hdigit (by decide)
      | negSucc n => exact ⟨'-', _, rfl, rfl, by decide⟩
    | double x => cases h
  | str s => exact ⟨'"', _, rfl, rfl, by decide⟩
  | arr items => exact ⟨'[', _, rfl, rfl, by decide⟩
  | obj members => exact ⟨'\x7b', _, rfl, rfl, by decide⟩
  | unusable => cases h

/-- What begins with a digit is read as a number without a sign, as every other kind begins with a
mark of its own (`not_blank_of_isDigit`). -/
theorem readValue?_of_isDigit {c : Char} (h : c.isDigit = true) (bound : Nat) (rest : List Char) :
    readValue? (bound + 1) (c :: rest) = readUnsigned? false (c :: rest) := by
  have hmark : ∀ d : Char, d.isDigit = false → c ≠ d := by
    rintro d hd rfl
    rw [hd] at h
    cases h
  rw [readValue?, skipBlanks_cons (not_blank_of_isDigit h)]
  split
  case h_8 => rfl
  -- the other kinds begin with a mark of their own
  all_goals next heq => exact absurd (List.cons.inj heq).1 (hmark _ (by decide))

/-- An integer of 64 bits reads back, signed or not, if what follows ends it
(`readUnsigned?_ofNat`). -/
theorem readValue?_int {n : Int} (h : (Json.num (.int n)).exact = true) (bound : Nat)
    {rest : List Char} (hrest : Ends rest) :
    readValue? (bound + 1) ((Json.num (.int n)).chars ++ rest) = some (.num (.int n), rest) := by
  simp only [exact, Bool.and_eq_true, decide_eq_true_eq] at h
  cases n with
  | ofNat n =>
    have hsize : (Int.ofNat n) = (n : Int) := rfl
    have hliteral := ofLiteral?_ofNat (n := n) (by simp only [UInt64.size]; omega)
    have hread := readUnsigned?_ofNat false n hliteral hrest
    have hdigits : ∀ c ∈ Digits.ofNat n, c.isDigit = true := fun _ => Digits.isDigit_of_mem_ofNat
    rw [chars, Number.chars]
    -- the first character decides how the text is read, and it is a digit
    obtain ⟨c, cs, hcons⟩ := List.exists_cons_of_ne_nil (Digits.ofNat_ne_nil n)
    rw [hcons] at hread hdigits ⊢
    rw [List.cons_append, readValue?_of_isDigit (hdigits c List.mem_cons_self)]
    exact hread
  | negSucc n =>
    have hliteral := ofLiteral?_negative (n := n + 1) (by omega)
      (by simp only [UInt64.size]; omega)
    exact readUnsigned?_ofNat true (n + 1) hliteral hrest

theorem readValue?_str {bound : Nat} {cs s rest : List Char}
    (h : readString? bound cs = some (some s, rest)) :
    readValue? (bound + 1) ('"' :: cs) = some (.str (String.ofList s), rest) := by
  show (readString? bound cs).map _ = _
  rw [h]
  rfl

/-- A bracket that is not closed at once is followed by items (`skipBlanks_cons`). -/
theorem readValue?_arr {c : Char} (hblank : isBlank c = false) (hclose : c ≠ ']') {bound : Nat}
    {cs rest : List Char} {items : List Json}
    (h : readItems? bound (c :: cs) = some (items, rest)) :
    readValue? (bound + 1) ('[' :: c :: cs) = some (.arr items, rest) := by
  rw [readValue?, skipBlanks_cons (by decide)]
  simp only [skipBlanks_cons hblank]
  split
  · next heq => exact absurd (List.cons.inj heq).1 hclose
  · rw [h]
    rfl

theorem readValue?_obj {bound : Nat} {cs rest : List Char}
    {members : List (Option (List Char) × Json)}
    (h : readMembers? bound ('"' :: cs) = some (members, rest)) :
    readValue? (bound + 1) ('\x7b' :: '"' :: cs) = some (ofMembers members, rest) := by
  show (readMembers? bound ('"' :: cs)).map _ = _
  rw [h]
  rfl

theorem readItems?_last {bound : Nat} {cs rest : List Char} {j : Json}
    (h : readValue? bound cs = some (j, ']' :: rest)) :
    readItems? (bound + 1) cs = some ([j], rest) := by
  rw [readItems?, h]
  rfl

/-- An item that a comma follows is not the last. It is the step of `readItems?_chars`. -/
theorem readItems?_more {bound : Nat} {cs more rest : List Char} {j : Json} {items : List Json}
    (h : readValue? bound cs = some (j, ',' :: more))
    (hmore : readItems? bound more = some (items, rest)) :
    readItems? (bound + 1) cs = some (j :: items, rest) := by
  rw [readItems?, h]
  show (readItems? bound more).bind _ = _
  rw [hmore]
  rfl

theorem readMembers?_last {bound : Nat} {cs value rest : List Char} {name : Option (List Char)}
    {j : Json} (hname : readString? bound cs = some (name, ':' :: value))
    (h : readValue? bound value = some (j, '\x7d' :: rest)) :
    readMembers? (bound + 1) ('"' :: cs) = some ([(name, j)], rest) := by
  rw [readMembers?]
  show (readString? bound cs).bind _ = _
  rw [hname]
  show (readValue? bound value).bind _ = _
  rw [h]
  rfl

/-- A member that a comma follows is not the last. The name is read with the same bound as its
value. It is the step of `readMembers?_chars`. -/
theorem readMembers?_more {bound : Nat} {cs value more rest : List Char}
    {name : Option (List Char)} {j : Json} {members : List (Option (List Char) × Json)}
    (hname : readString? bound cs = some (name, ':' :: value))
    (h : readValue? bound value = some (j, ',' :: more))
    (hmore : readMembers? bound more = some (members, rest)) :
    readMembers? (bound + 1) ('"' :: cs) = some ((name, j) :: members, rest) := by
  rw [readMembers?]
  show (readString? bound cs).bind _ = _
  rw [hname]
  show (readValue? bound value).bind _ = _
  rw [h]
  show (readMembers? bound more).bind _ = _
  rw [hmore]
  rfl

/-- What every element reads back as, the list of them does. By induction on the list, as
`List.mapM` goes. -/
theorem mapM_map_eq_some {α β : Type} {write : α → β} {read : β → Option α}
    (h : ∀ a, read (write a) = some a) (xs : List α) : (xs.map write).mapM read = some xs := by
  induction xs with
  | nil => rfl
  | cons a rest ih =>
    rw [List.map_cons, List.mapM_cons, h, ih]
    rfl

/-- Names without half a pair in them make an object with just these names; what is written is
always so (`usable_of_exact`). -/
theorem ofMembers_names (members : List (String × Json)) :
    ofMembers (members.map fun m => (some m.1.toList, m.2)) = .obj members := by
  rw [ofMembers, mapM_map_eq_some fun m => by simp]

theorem length_escape_pos (c : Char) : 0 < (escape c).length := by
  unfold escape
  split
  case h_8 => split <;> simp
  all_goals simp

/-- Escapes do not make a string shorter, so a bound that covers the text covers the characters. By
induction on the characters, with `length_escape_pos` for each. -/
theorem length_le_escaped (s : List Char) : s.length ≤ (s.flatMap escape).length := by
  induction s with
  | nil => simp
  | cons c s ih =>
    have hc := length_escape_pos c
    rw [List.flatMap_cons, List.length_append, List.length_cons]
    omega

/-- A quoted string is read past its opening quote up to its closing one (`readString?_escaped`).
The bound is in terms of what was written, as the callers have it. -/
theorem readString?_quoted (s : String) (rest : List Char) {bound : Nat}
    (h : (quoted s).length ≤ bound + 1) :
    ∃ cs, quoted s ++ rest = '"' :: cs ∧ readString? bound cs = some (some s.toList, rest) := by
  refine ⟨s.toList.flatMap escape ++ '"' :: rest, ?_, readString?_escaped _ _ ?_⟩
  · simp [quoted]
  · have hlength := length_le_escaped s.toList
    simp only [quoted, List.cons_append, List.length_cons, List.length_append,
      List.length_nil] at h
    omega

/-- Items begin with what their first one begins with (`exists_chars`). -/
theorem exists_charsItems {j : Json} (h : j.exact = true) (items : List Json) :
    ∃ c cs, charsItems (j :: items) = c :: cs ∧ isBlank c = false ∧ c ≠ ']' := by
  obtain ⟨c, cs, hcons, hblank, hclose⟩ := exists_chars h
  refine ⟨c, cs ++ charsMoreItems items, ?_, hblank, hclose⟩
  rw [charsItems, hcons, List.cons_append]

mutual

/-- A value with a text of its own reads back from it, whatever follows that does not go on with a
number, as long as the bound covers the text. By recursion on the value, together with the two
lemmas about its parts; the text of a part is shorter by the mark in front of it. The parts are
`readItems?_chars` and `readMembers?_chars`. -/
theorem readValue?_chars (j : Json) (h : j.exact = true) {bound : Nat} {rest : List Char}
    (hbound : j.chars.length ≤ bound) (hrest : Ends rest) :
    readValue? bound (j.chars ++ rest) = some (j, rest) := by
  -- a text is never empty, so the bound leaves one for the parts
  obtain ⟨bound, rfl⟩ : ∃ b, bound = b + 1 := by
    obtain ⟨c, cs, hcons, -⟩ := exists_chars h
    rw [hcons, List.length_cons] at hbound
    exact ⟨bound - 1, by omega⟩
  match j, h with
  | .null, _ => rfl
  | .bool b, _ => cases b <;> rfl
  | .num (.int n), h => exact readValue?_int h bound hrest
  | .str s, _ =>
    obtain ⟨cs, hcs, hread⟩ := readString?_quoted s rest hbound
    rw [chars, hcs, readValue?_str hread, String.ofList_toList]
  | .arr [], _ => rfl
  | .arr (j :: items), h =>
    rw [exact] at h
    rw [chars, List.length_cons] at hbound
    have hread : readItems? bound (charsItems (j :: items) ++ rest) = some (j :: items, rest) :=
      readItems?_chars (j :: items) nofun h (by omega)
    obtain ⟨c, cs, hcons, hblank, hclose⟩ :=
      exists_charsItems (Bool.and_eq_true_iff.1 h).1 items
    rw [hcons, List.cons_append] at hread
    rw [chars, hcons, List.cons_append, List.cons_append]
    exact readValue?_arr hblank hclose hread
  | .obj [], _ => rfl
  | .obj (m :: members), h =>
    rw [exact] at h
    rw [chars, List.length_cons] at hbound
    have hread : readMembers? bound (charsMembers (m :: members) ++ rest) =
        some ((m :: members).map fun m => (some m.1.toList, m.2), rest) :=
      readMembers?_chars (m :: members) nofun h (by omega)
    have hvalue := readValue?_obj hread
    rw [ofMembers_names] at hvalue
    exact hvalue

/-- Items read back up to the bracket. Behind each stands a comma or the bracket, which `Ends` the
number that it may be. -/
theorem readItems?_chars (items : List Json) (hsome : items ≠ []) (h : exactItems items = true)
    {bound : Nat} {rest : List Char} (hbound : (charsItems items).length ≤ bound) :
    readItems? bound (charsItems items ++ rest) = some (items, rest) := by
  match items, h with
  | [], _ => exact absurd rfl hsome
  | [j], h =>
    rw [exactItems, exactItems, Bool.and_true] at h
    rw [charsItems, charsMoreItems, List.length_append, List.length_singleton] at hbound
    obtain ⟨bound, rfl⟩ : ∃ b, bound = b + 1 := ⟨bound - 1, by omega⟩
    have hread : readValue? bound (j.chars ++ ']' :: rest) = some (j, ']' :: rest) :=
      readValue?_chars j h (by omega) (ends_cons (by decide) rest)
    rw [charsItems, charsMoreItems, List.append_assoc, List.singleton_append]
    exact readItems?_last hread
  | j :: k :: more, h =>
    rw [exactItems, Bool.and_eq_true] at h
    -- what follows the comma is the text of the items that are left
    have htext : charsItems (j :: k :: more) = j.chars ++ ',' :: charsItems (k :: more) := rfl
    rw [htext, List.length_append, List.length_cons] at hbound
    obtain ⟨bound, rfl⟩ : ∃ b, bound = b + 1 := ⟨bound - 1, by omega⟩
    have hread : readValue? bound (j.chars ++ ',' :: (charsItems (k :: more) ++ rest)) =
        some (j, ',' :: (charsItems (k :: more) ++ rest)) :=
      readValue?_chars j h.1 (by omega) (ends_cons (by decide) _)
    have hmore : readItems? bound (charsItems (k :: more) ++ rest) = some (k :: more, rest) :=
      readItems?_chars (k :: more) nofun h.2 (by omega)
    rw [htext, List.append_assoc, List.cons_append]
    exact readItems?_more hread hmore

/-- Members read back up to the brace: the name (`readString?_quoted`), the colon, and the value. -/
theorem readMembers?_chars (members : List (String × Json)) (hsome : members ≠ [])
    (h : exactMembers members = true) {bound : Nat} {rest : List Char}
    (hbound : (charsMembers members).length ≤ bound) :
    readMembers? bound (charsMembers members ++ rest) =
      some (members.map fun m => (some m.1.toList, m.2), rest) := by
  match members, h with
  | [], _ => exact absurd rfl hsome
  | [(name, j)], h =>
    rw [exactMembers, exactMembers, Bool.and_true] at h
    -- the last member is followed by the closing brace
    have htext : charsMembers [(name, j)] = quoted name ++ ':' :: (j.chars ++ ['\x7d']) := by
      simp [charsMembers, charsMoreMembers]
    rw [htext, List.length_append, List.length_cons, List.length_append] at hbound
    obtain ⟨bound, rfl⟩ : ∃ b, bound = b + 1 := ⟨bound - 1, by omega⟩
    have hquoted : (quoted name).length ≤ bound + 1 := by omega
    obtain ⟨cs, hcs, hname⟩ := readString?_quoted name (':' :: (j.chars ++ '\x7d' :: rest)) hquoted
    have hread : readValue? bound (j.chars ++ '\x7d' :: rest) = some (j, '\x7d' :: rest) :=
      readValue?_chars j h (by omega) (ends_cons (by decide) rest)
    have hall : charsMembers [(name, j)] ++ rest = '"' :: cs := by
      rw [htext, ← hcs]
      simp
    rw [hall]
    exact readMembers?_last hname hread
  | (name, j) :: m :: more, h =>
    rw [exactMembers, Bool.and_eq_true] at h
    -- a member with others behind it is followed by a comma
    have htext : charsMembers ((name, j) :: m :: more) =
        quoted name ++ ':' :: (j.chars ++ ',' :: charsMembers (m :: more)) := by
      simp [charsMembers, charsMoreMembers]
    rw [htext, List.length_append, List.length_cons, List.length_append, List.length_cons] at hbound
    obtain ⟨bound, rfl⟩ : ∃ b, bound = b + 1 := ⟨bound - 1, by omega⟩
    have hquoted : (quoted name).length ≤ bound + 1 := by omega
    obtain ⟨cs, hcs, hname⟩ := readString?_quoted name
      (':' :: (j.chars ++ ',' :: (charsMembers (m :: more) ++ rest))) hquoted
    have hread : readValue? bound (j.chars ++ ',' :: (charsMembers (m :: more) ++ rest)) =
        some (j, ',' :: (charsMembers (m :: more) ++ rest)) :=
      readValue?_chars j h.1 (by omega) (ends_cons (by decide) _)
    have hmore : readMembers? bound (charsMembers (m :: more) ++ rest) =
        some ((m :: more).map fun m => (some m.1.toList, m.2), rest) :=
      readMembers?_chars (m :: more) nofun h.2 (by omega)
    have hall : charsMembers ((name, j) :: m :: more) ++ rest = '"' :: cs := by
      rw [htext, ← hcs]
      simp
    rw [hall]
    exact readMembers?_more hname hread hmore

end

/-- A value without doubles reads back from its text: nothing follows it, and twice the length is
bound enough (`readValue?_chars`). -/
theorem ofText?_text {j : Json} (h : j.exact = true) : ofText? j.text = some j := by
  have hread : readValue? (2 * j.chars.length + 2) (j.chars ++ []) = some (j, []) :=
    readValue?_chars j h (by omega) nofun
  rw [List.append_nil] at hread
  rw [ofText?, text, String.toList_ofList]
  simp only [hread, Option.bind_eq_bind, Option.bind_some]
  rfl

/-! ## The text of a free-form value

A value that is kept as it came is checked and sorted, `freeForm?`, and later written. Both leave
an `exact` value exact, so what was sorted before is read as it is. -/

/-- Items have texts of their own if each has, for inductions that speak of all items at once
(`nested_induction`). -/
theorem exactItems_iff {items : List Json} :
    exactItems items = true ↔ ∀ j ∈ items, j.exact = true := by
  induction items with
  | nil => simp [exactItems]
  | cons j rest ih => simp [exactItems, ih]

theorem exactMembers_iff {members : List (String × Json)} :
    exactMembers members = true ↔ ∀ m ∈ members, m.2.exact = true := by
  induction members with
  | nil => simp [exactMembers]
  | cons m rest ih => rw [exactMembers, Bool.and_eq_true, ih, List.forall_mem_cons]

/-- Sorting keeps every value, so it keeps them exact. By `nested_induction`. -/
theorem exact_canonical {j : Json} (h : j.exact = true) : j.canonical.exact = true := by
  induction j using nested_induction with
  | leaf j hleaf => rwa [canonical_of_leaf hleaf]
  | arr items ih =>
    rw [exact, exactItems_iff] at h
    rw [canonical, exact, canonicalItems_map, exactItems_iff]
    intro j hj
    obtain ⟨x, hx, rfl⟩ := List.mem_map.1 hj
    exact ih x hx (h x hx)
  | obj members ih =>
    rw [exact, exactMembers_iff] at h
    rw [canonical, exact, exactMembers_iff]
    intro m hm
    rcases mem_canonicalMembers hm with ⟨x, hx, rfl⟩ | hnone
    · exact ih x hx (h x hx)
    · cases hnone

theorem usableItems_iff {items : List Json} :
    usableItems items = true ↔ ∀ j ∈ items, j.usable = true := by
  induction items with
  | nil => simp [usableItems]
  | cons j rest ih => simp [usableItems, ih]

theorem usableMembers_iff {members : List (String × Json)} :
    usableMembers members = true ↔ ∀ m ∈ members, m.2.usable = true := by
  induction members with
  | nil => simp [usableMembers]
  | cons m rest ih => rw [usableMembers, Bool.and_eq_true, ih, List.forall_mem_cons]

/-- A value with a text of its own has no part that cannot be read; doubles are usable and yet not
exact, so not the other way round. By `nested_induction`. -/
theorem usable_of_exact {j : Json} (h : j.exact = true) : j.usable = true := by
  induction j using nested_induction with
  | leaf j hleaf => cases j <;> simp_all [exact, usable, depth]
  | arr items ih =>
    rw [exact, exactItems_iff] at h
    rw [usable, usableItems_iff]
    exact fun j hj => ih j hj (h j hj)
  | obj members ih =>
    rw [exact, exactMembers_iff] at h
    rw [usable, usableMembers_iff]
    exact fun m hm => ih m hm (h m hm)

/-- What is kept as a free-form value is not changed when it is read as one: it is usable, no deeper
than before (`depth_canonical_le`), and sorted already (`canonical_canonical`). -/
theorem freeForm?_canonical {j : Json} (h : j.exact = true) {room : Nat} (hroom : j.depth ≤ room) :
    freeForm? room j.canonical = some j.canonical := by
  have husable := usable_of_exact (exact_canonical h)
  have hdepth : j.canonical.depth ≤ room := Nat.le_trans (depth_canonical_le j) hroom
  rw [freeForm?, husable, canonical_canonical, Bool.true_and, if_pos (decide_eq_true hdepth)]

end PoolMarket.Json
