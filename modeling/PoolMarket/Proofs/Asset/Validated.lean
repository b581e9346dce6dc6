import Mathlib.Data.List.Basic
import PoolMarket.Asset.DenomPair

/-!
# Validated denoms

A denom is validated if some text was read as it. Its own text is that one, so it reads back as the
same denom, and a pair of validated denoms reads back from its two texts. No such text holds a NUL,
so the key of a pair tells its two assets, also against denoms of other origin that only keep off
the texts of tokens.

* `Denom.Validated` — read from a text; every denom that comes over the wire is.
* `Denom.Genuine` — no native coin that looks like a token. This is weaker, and just enough for
  `DenomPair.Genuine.eq_of_key`: a key of a validated pair tells that pair.
* `Denom.Validated.separator_notMem` — the reason why keys can be taken apart at the NUL.
-/

namespace PoolMarket

namespace Denom

/-- The denom has been read from a text. -/
def Validated (d : Denom) : Prop := ∃ s, ofString s = .ok d

/-- A denom has the text that it was read from. The two ways of reading are the two kinds of denom:
behind the mark of a token stands an address, whose text is what was read
(`Addr.text_of_ofString?`). -/
theorem text_of_ofString {s : String} {d : Denom} (h : ofString s = .ok d) : d.text = s := by
  unfold ofString at h
  split at h
  · next hmark =>
    -- behind the mark stands the address of the token
    split at h
    · next a ha =>
      cases h
      obtain ⟨rest, hrest⟩ := List.isPrefixOf_iff_prefix.1 hmark
      have htext := Addr.text_of_ofString? ha
      rw [← hrest, List.drop_left] at htext
      rw [text, htext, ← String.ofList_append, hrest, String.ofList_toList]
    · cases h
  · unfold ofNativeText at h
    split at h
    · cases h
      rfl
    · cases h

/-- The text of a validated denom reads back as the same denom: it is the text that it was read from
(`text_of_ofString`). -/
theorem Validated.ofString_text {d : Denom} (h : d.Validated) : ofString d.text = .ok d := by
  obtain ⟨s, hs⟩ := h
  rw [text_of_ofString hs, hs]

/-- The text of any token reads as that token, whatever the address is; there is no length to exceed
(`Addr.ofString?_text`). -/
theorem ofString_token (a : Addr) : ofString (token a).text = .ok (token a) := by
  have hchars : (token a).text.toList = tokenMark ++ a.text.toList := by
    rw [text, String.toList_append, String.toList_ofList]
  have hmark : tokenMark.isPrefixOf (token a).text.toList = true := by
    rw [hchars]
    exact List.isPrefixOf_iff_prefix.2 (List.prefix_append ..)
  rw [ofString, if_pos hmark, hchars, List.drop_left, String.ofList_toList, a.ofString?_text]

/-- The denom is no native coin with the text of a token. Whoever reads denoms never meets such a
coin, but the type has it. -/
def Genuine (d : Denom) : Prop := ∀ contract : Addr, d ≠ native (token contract).text

/-- No denom that was read is a native coin with the text of a token: its text would read as the
token (`ofString_token`), and it reads as itself. -/
theorem Validated.genuine {d : Denom} (h : d.Validated) : d.Genuine := by
  rintro a rfl
  have hread : ofString (token a).text = .ok (native (token a).text) := h.ofString_text
  rw [ofString_token] at hread
  cases hread

/-- The text of a genuine denom is that of no validated denom but itself. Two native coins with one
text are the same, and so are two tokens; a coin and a token are kept apart by `ofString_token` on
the one side and by `Genuine` on the other. -/
theorem Genuine.eq_of_text {d e : Denom} (hd : d.Genuine) (he : e.Validated)
    (h : e.text = d.text) : e = d := by
  cases d with
  | token a =>
    have hread := he.ofString_text
    rw [h, ofString_token] at hread
    exact (Except.ok.inj hread).symm
  | native s =>
    cases e with
    | token a => exact absurd (congrArg native h.symm) (hd a)
    | native t => exact congrArg native h

/-- Neither addresses nor the texts of native coins hold a NUL: each character was checked when the
denom was read, and the mark of tokens has none. By the two kinds of `Denom`. -/
theorem Validated.separator_notMem {d : Denom} (h : d.Validated) :
    PairKey.separator ∉ d.text.toList := by
  obtain ⟨s, hs⟩ := h
  intro hmem
  unfold ofString at hs
  split at hs
  · split at hs
    · next a ha =>
      cases hs
      rw [text, String.toList_append, String.toList_ofList, List.mem_append] at hmem
      -- a text of this form is the mark and then an address, and neither has the separator
      rcases hmem with hmark | haddr
      · exact absurd hmark (by decide)
      · have hchar := List.all_eq_true.1 a.chars _ haddr
        exact absurd hchar (by decide)
    · cases hs
  · unfold ofNativeText at hs
    split at hs
    · next hnative =>
      cases hs
      have hmem : PairKey.separator ∈ s.toList := hmem
      cases hchars : s.toList with
      | nil =>
        rw [hchars] at hmem
        cases hmem
      | cons c rest =>
        rw [hchars] at hmem hnative
        simp only [isNativeText, Bool.and_eq_true] at hnative
        obtain ⟨⟨⟨⟨halpha, hbody⟩, -⟩, -⟩, -⟩ := hnative
        -- the first character is a letter, the others are looked at one by one
        rcases List.mem_cons.1 hmem with rfl | hmem
        · exact absurd halpha (by decide)
        · exact absurd (List.all_eq_true.1 hbody _ hmem) (by decide)
    · cases hs

end Denom

namespace DenomPair

/-- Both assets are validated. -/
def Validated (p : DenomPair) : Prop := p.first.Validated ∧ p.second.Validated

/-- A validated pair reads back from its two texts, in the same order (`Validated.ofString_text`,
twice). -/
theorem Validated.ofStrings_toStrings {p : DenomPair} (h : p.Validated) :
    ofStrings p.toStrings = .ok p := by
  have hfirst : Denom.ofString p.toStrings.first = .ok p.first := h.1.ofString_text
  have hsecond : Denom.ofString p.toStrings.second = .ok p.second := h.2.ofString_text
  rw [ofStrings, hfirst, hsecond]
  exact dif_neg p.distinct

/-- A pair is read denom by denom (`Outcome.bind_eq_ok`). -/
theorem ofString_of_ofStrings {raw : Both String} {p : DenomPair} (h : ofStrings raw = .ok p) :
    Denom.ofString raw.first = .ok p.first ∧ Denom.ofString raw.second = .ok p.second := by
  unfold ofStrings at h
  simp only [Outcome.bind_eq_ok] at h
  obtain ⟨first, hfirst, second, hsecond, h⟩ := h
  unfold ofDenoms at h
  split at h
  · cases h
  · cases h
    exact ⟨hfirst, hsecond⟩

theorem validated_of_ofStrings {raw : Both String} {p : DenomPair} (h : ofStrings raw = .ok p) :
    p.Validated :=
  ⟨⟨_, (ofString_of_ofStrings h).1⟩, ⟨_, (ofString_of_ofStrings h).2⟩⟩

/-- A pair has the texts that it was read from, so a listing can be compared with what the chain
sent (`Denom.text_of_ofString`). -/
theorem toStrings_of_ofStrings {raw : Both String} {p : DenomPair} (h : ofStrings raw = .ok p) :
    p.toStrings = raw :=
  Both.ext (Denom.text_of_ofString (ofString_of_ofStrings h).1)
    (Denom.text_of_ofString (ofString_of_ofStrings h).2)

/-- The characters of a key: the two texts with the separator between them. The order of keys and
their injectivity both start here (`Validated.key_text_lt`, `Genuine.eq_of_key`). -/
theorem toList_key (p : DenomPair) :
    p.key.text.toList = p.first.text.toList ++ PairKey.separator :: p.second.text.toList := by
  rw [key, String.toList_append, String.toList_append, String.toList_singleton, List.append_assoc]
  rfl

/-- Both assets are genuine. -/
def Genuine (p : DenomPair) : Prop := p.first.Genuine ∧ p.second.Genuine

/-- A pair that was read has no coin in it that looks like a token (`Denom.Validated.genuine`). -/
theorem Validated.genuine {p : DenomPair} (h : p.Validated) : p.Genuine :=
  ⟨h.1.genuine, h.2.genuine⟩

theorem Genuine.inverse {p : DenomPair} (h : p.Genuine) : p.inverse.Genuine := ⟨h.2, h.1⟩

/-- The key of a validated pair is that of no genuine pair but itself. The validated texts hold no
separator, so the key splits where it was joined, and each text tells its denom
(`Denom.Genuine.eq_of_text`). -/
theorem Genuine.eq_of_key {p q : DenomPair} (hp : p.Genuine) (hq : q.Validated)
    (h : q.key = p.key) : q = p := by
  have htexts : q.key.text.toList = p.key.text.toList := by rw [h]
  rw [toList_key, toList_key, List.append_cons_inj_of_notMem hq.1.separator_notMem
    hq.2.separator_notMem] at htexts
  obtain ⟨hfirst, -, hsecond⟩ := htexts
  exact DenomPair.ext (hp.1.eq_of_text hq.1 (String.toList_inj.1 hfirst))
    (hp.2.eq_of_text hq.2 (String.toList_inj.1 hsecond))

end DenomPair

/-! ### A deployment

The contracts that examples are about, wherever it is all the same which they are. -/

namespace Deployment

def factory : Addr := ⟨"sei1factory", by decide, by decide⟩

def router : Addr := ⟨"sei1router", by decide, by decide⟩

end Deployment

end PoolMarket
