import PoolMarket.Proofs.Asset.Validated

/-!
# Texts and keys that tell apart

A denom is made from a text, from a text checked to be one of a native coin, or from the address of
a token. However it was made, its text is read as it and as nothing else, and the key of two of them
tells which they are and in which order. No character of a text comes before the NUL between the
two, so a key that ends its first text early comes first: keys are ordered by their first texts, and
those with one first text by the second.

* `Denom.Made` — the three ways, each of which gives a validated denom (`Made.validated`).
* `append_separator_lt` — the order of lists that are joined by a least character.
* `DenomPair.Validated.compare_key` — the order of keys, as that of the two texts.
-/

namespace PoolMarket

namespace Denom

/-- The ways there are to come by a denom. -/
inductive Made (d : Denom) : Prop where
  | read {s : String} (h : ofString s = .ok d)
  | native {s : String} (h : ofNativeText s = .ok d)
  | token {contract : Addr} (h : d = token contract)

/-- The text of a native coin is not that of a token, so reading it checks it in the same way and
gives the same coin. The two ways of making a coin, `ofNativeText` and `ofString`, are brought
together by this. -/
theorem ofString_of_ofNativeText {s : String} {d : Denom} (h : ofNativeText s = .ok d) :
    ofString s = .ok d := by
  have hmark : tokenMark.isPrefixOf s.toList = false := by
    unfold ofNativeText at h
    split at h
    · next hnative =>
      cases hchars : s.toList with
      | nil => rfl
      | cons c rest =>
        rw [hchars] at hnative
        simp only [isNativeText, Bool.and_eq_true, Bool.not_eq_true'] at hnative
        exact hnative.2
    · cases h
  rw [ofString, hmark]
  exact h

/-- However a denom was made, its text reads as it, which is all that the lemmas about validated
denoms ask for. By the three ways of `Made`: read, checked (`ofString_of_ofNativeText`), or made of
an address (`ofString_token`). -/
theorem Made.validated {d : Denom} (h : d.Made) : d.Validated := by
  cases h with
  | read h => exact ⟨_, h⟩
  | native h => exact ⟨_, ofString_of_ofNativeText h⟩
  | @token contract h => exact ⟨(Denom.token contract).text, h ▸ ofString_token contract⟩

/-- Every character of a text comes after the separator of keys: the separator is the first of all
characters, and no text holds it (`Validated.separator_notMem`). -/
theorem Validated.separator_lt {d : Denom} (h : d.Validated) :
    ∀ c ∈ d.text.toList, PairKey.separator < c := by
  intro c hc
  have hne : c ≠ PairKey.separator := by
    rintro rfl
    exact h.separator_notMem hc
  -- the separator is the first of all characters
  have hpos : c.toNat ≠ PairKey.separator.toNat := fun heq => hne (Char.toNat_inj.1 heq)
  exact Char.lt_def.2 (Nat.pos_of_ne_zero hpos)

end Denom

/-! ## The order of keys

Keys are compared as texts, character by character. The separator is the least character, so the
shorter of two first texts, one of which begins with the other, comes first as it does on its own;
without that, `uat` and `uatom` could be ordered by what follows them. -/

/-- Where two lists end in front of a separator that is less than all they hold, the lists that go
on behind it are ordered by what they begin with, and then by the rest. By induction on the first
list; the case in which one ends early is decided by the separator. It is applied to two keys by
`Validated.key_text_lt`. -/
theorem append_separator_lt {separator : Char} {a b : List Char} (ha : ∀ x ∈ a, separator < x)
    (hb : ∀ x ∈ b, separator < x) (c d : List Char) :
    a ++ separator :: c < b ++ separator :: d ↔ a < b ∨ a = b ∧ c < d := by
  induction a generalizing b with
  | nil =>
    cases b with
    | nil => simp
    | cons y b => simp [List.cons_lt_cons_iff, hb y List.mem_cons_self]
  | cons x a ih =>
    have hx := ha x List.mem_cons_self
    cases b with
    | nil =>
      -- the shorter text goes on with the separator, which lies below every character of the longer
      -- one
      have hlt : ¬ x < separator := Char.lt_asymm hx
      have hne : x ≠ separator := fun heq => Char.lt_irrefl _ (heq ▸ hx)
      simp [List.cons_lt_cons_iff, hlt, hne]
    | cons y b =>
      have hrest := ih (fun z hz => ha z (List.mem_cons_of_mem _ hz))
        (b := b) fun z hz => hb z (List.mem_cons_of_mem _ hz)
      rw [List.cons_append, List.cons_append, List.cons_lt_cons_iff, hrest, List.cons_lt_cons_iff,
        List.cons.injEq]
      tauto

/-- Two orders are the same if they agree on what comes first, either way round, so `compare` is
settled by lemmas about `<`. -/
theorem Ordering.eq_of_lt_iff_of_gt_iff {o o' : Ordering} (hlt : o = .lt ↔ o' = .lt)
    (hgt : o = .gt ↔ o' = .gt) : o = o' := by
  cases o <;> cases o' <;> simp_all

theorem compare_eq_lt_iff {a b : String} : compare a b = .lt ↔ a < b := compareOfLessAndEq_eq_lt

theorem compare_eq_gt_iff {a b : String} : compare a b = .gt ↔ b < a := by
  rw [Std.OrientedOrd.eq_swap, Ordering.swap_eq_gt, compare_eq_lt_iff]

namespace DenomPair

/-- Both assets have been made. -/
def Made (p : DenomPair) : Prop := p.first.Made ∧ p.second.Made

variable {p q : DenomPair}

theorem Made.validated (h : p.Made) : p.Validated := ⟨h.1.validated, h.2.validated⟩

theorem Validated.inverse (h : p.Validated) : p.inverse.Validated := ⟨h.2, h.1⟩

/-- Keys tell pairs of validated denoms apart; `Genuine.eq_of_key` with a stronger hypothesis on the
one side. -/
theorem Validated.eq_of_key (hp : p.Validated) (hq : q.Validated) (h : p.key = q.key) : p = q :=
  hq.genuine.eq_of_key hp h

theorem inverse_ne (p : DenomPair) : p.inverse ≠ p := fun h =>
  p.distinct (congrArg DenomPair.second h)

/-- A key comes before another if its first text does, or if that is the same and its second does
(`append_separator_lt` on the characters of both). -/
theorem Validated.key_text_lt (hp : p.Validated) (hq : q.Validated) :
    p.key.text < q.key.text ↔ p.first.text < q.first.text ∨
      p.first.text = q.first.text ∧ p.second.text < q.second.text := by
  have hkey := append_separator_lt hp.1.separator_lt hq.1.separator_lt p.second.text.toList
    q.second.text.toList
  rw [← toList_key, ← toList_key, String.toList_inj] at hkey
  exact hkey

/-- The comparison of keys is the lexicographic one of their texts, first and then second
(`key_text_lt`, in both directions). -/
theorem Validated.compare_key (hp : p.Validated) (hq : q.Validated) : compare p.key q.key =
    (compare p.first.text q.first.text).then (compare p.second.text q.second.text) := by
  have hcompare : compare p.key q.key = compare p.key.text q.key.text := rfl
  rw [hcompare]
  apply Ordering.eq_of_lt_iff_of_gt_iff
  · rw [compare_eq_lt_iff, hp.key_text_lt hq, Ordering.then_eq_lt, compare_eq_lt_iff,
      compare_eq_lt_iff, Std.compare_eq_iff_eq]
  · rw [compare_eq_gt_iff, hq.key_text_lt hp, Ordering.then_eq_gt, compare_eq_gt_iff,
      compare_eq_gt_iff, Std.compare_eq_iff_eq, eq_comm]

end DenomPair

/-! ## Texts and keys -/

/-- Texts tell denoms apart and read as them, and keys tell pairs of denoms apart and order them.
The fields are over `Made` denoms, so they hold of everything that the program can build. -/
structure TextsTell : Prop where
  text_of_read : ∀ (s : String) (d : Denom), Denom.ofString s = .ok d → d.text = s
  read_text : ∀ d : Denom, d.Made → Denom.ofString d.text = .ok d
  /-- No native coin has the text of a token. -/
  kinds_apart : ∀ (s : String) (contract : Addr), (Denom.native s).Made →
    (Denom.native s).text ≠ (Denom.token contract).text
  eq_of_key : ∀ p q : DenomPair, p.Made → q.Made → p.key = q.key → p = q
  key_inverse : ∀ p : DenomPair, p.Made → p.inverse.key ≠ p.key
  compare_key : ∀ p q : DenomPair, p.Made → q.Made → compare p.key q.key =
    (compare p.first.text q.first.text).then (compare p.second.text q.second.text)

theorem texts_tell : TextsTell where
  text_of_read _ _ := Denom.text_of_ofString
  read_text _ h := h.validated.ofString_text
  kinds_apart _ contract h heq := h.validated.genuine contract (congrArg Denom.native heq)
  eq_of_key _ _ hp hq := hp.validated.eq_of_key hq.validated
  key_inverse p h hkey := p.inverse_ne (h.validated.inverse.eq_of_key h.validated hkey)
  compare_key _ _ hp hq := hp.validated.compare_key hq.validated

/-! ### A text that another begins with -/

namespace TextsTell.Sample

def short : Denom := .native "uat"

def long : Denom := .native "uatom"

def token : Denom := .token ⟨"uat", by decide, by decide⟩

theorem made_short : short.Made := .native (s := "uat") (by decide)

theorem made_long : long.Made := .read (s := "uatom") (by decide)

/-- The pair whose first text ends early comes first, whatever the second texts are. -/
theorem compare_key_short :
    (DenomPair.mk short token (by decide)).Made ∧ (DenomPair.mk long short (by decide)).Made ∧
      compare (DenomPair.mk short token (by decide)).key (DenomPair.mk long short (by decide)).key =
        .lt := by
  have hfirst : (DenomPair.mk short token (by decide)).Made := ⟨made_short, .token rfl⟩
  have hsecond : (DenomPair.mk long short (by decide)).Made := ⟨made_long, made_short⟩
  refine ⟨hfirst, hsecond, ?_⟩
  rw [texts_tell.compare_key _ _ hfirst hsecond]
  decide

end TextsTell.Sample

end PoolMarket
