import PoolMarket.Proofs.Market.Worth

/-!
# There and back

The way back of some hops takes them from the last to the first, each from its target to its source.
Where no two assets are registered in both orders, what served a hop serves the hop back, on its
other side. So the outermost hop of a round trip gains nothing if what lies behind it gains nothing,
and no round trip does.

* `serving_back` — the pair of a hop and that of the hop back are one, on opposite sides.
* `Snapshot.value_back_le` — one pair, there and back; the induction over the hops is around it.
* `Hop.Genuine` — denoms as they are parsed. The `Sample` shows what happens without.
-/

namespace PoolMarket

/-! ## The way back -/

namespace Hop

/-- The hop in the other direction. -/
def back (h : Hop) : Hop := ⟨h.target, h.source⟩

/-- All hops in the other direction, from the last to the first. -/
def wayBack (hops : List Hop) : List Hop := (hops.map back).reverse

theorem wayBack_cons (h : Hop) (hops : List Hop) :
    wayBack (h :: hops) = wayBack hops ++ [h.back] := by
  rw [wayBack, List.map_cons, List.reverse_cons, wayBack]

/-- Neither asset of the hop is a native coin with the text of a token. -/
def Genuine (h : Hop) : Prop := h.source.Genuine ∧ h.target.Genuine

theorem Genuine.back {h : Hop} (hh : h.Genuine) : h.back.Genuine := ⟨hh.2, hh.1⟩

end Hop

/-- Two pairs that lead from side to side between the same two assets, the one forth and the other
back, are the same pair, or each is the inverse of the other. By the four combinations of sides
(`DenomPair.ext`). -/
theorem DenomPair.eq_or_eq_inverse {p q : DenomPair} {s t : Side} (hsource : q.get t.opposite = p.get s)
    (htarget : q.get t = p.get s.opposite) : (q = p ∧ t = s.opposite) ∨ q = p.inverse := by
  cases s with
  | first =>
    cases t with
    | first => exact Or.inr (DenomPair.ext htarget hsource)
    | second => exact Or.inl ⟨DenomPair.ext hsource htarget, rfl⟩
  | second =>
    cases t with
    | first => exact Or.inl ⟨DenomPair.ext htarget hsource, rfl⟩
    | second => exact Or.inr (DenomPair.ext hsource htarget)

/-! ## What serves a hop back

A pair is looked up by the key of two assets, in their order or in the other. For genuine denoms
the key stands for the denoms (`assets_of_get?`), so what is found is a pair of the two assets. If
it is not the one that served the hop there, it is listed in the other order, which `OneWay`
excludes. -/

namespace Registry

variable {r : Registry} {p q : Loaded}

/-- No two assets are registered in both orders. -/
def OneWay (r : Registry) : Prop :=
  ∀ p ∈ r.all, ∀ q ∈ r.all, q.pair.assets ≠ p.pair.assets.inverse

/-- Registered pairs of the same two assets in the same order are one pair, since they have one key.
Both stand under that key (`Proper`). -/
theorem Proper.eq_of_assets (hr : r.Proper) (hp : p ∈ r.all) (hq : q ∈ r.all)
    (h : q.pair.assets = p.pair.assets) : q = p := by
  obtain ⟨key, hp⟩ := mem_all.1 hp
  obtain ⟨other, hq⟩ := mem_all.1 hq
  have hkey : other = key := by rw [← hr.keyed _ _ hp, ← hr.keyed _ _ hq, h]
  rw [hkey, hp, Option.some.injEq] at hq
  exact hq.symm

/-- What is found for two assets is a pair of them, in this order or the other:
`Proper.assets_of_get?`, at both keys that `Registry.find?` tries. -/
theorem Proper.assets_of_find? (hr : r.Proper) {assets : DenomPair} (hgenuine : assets.Genuine)
    (h : r.find? assets true = some p) :
    p ∈ r.all ∧ (p.pair.assets = assets ∨ p.pair.assets = assets.inverse) := by
  unfold find? at h
  cases hexact : r.get? assets.key with
  | some found =>
    rw [hexact, Option.some.injEq] at h
    subst h
    exact ⟨mem_all.2 ⟨_, hexact⟩, Or.inl (hr.assets_of_get? hgenuine hexact)⟩
  | none =>
    rw [hexact] at h
    have hinverse : r.get? assets.inverse.key = some p := h
    exact ⟨mem_all.2 ⟨_, hinverse⟩, Or.inr (hr.assets_of_get? hgenuine.inverse hinverse)⟩

end Registry

namespace Market

variable {m : Market} {a v w : Amount} {c c' : Bool} {h : Hop} {hops : List Hop}
  {p q : Pair} {side other : Side}

/-- A hop is served by a registered pair of its two assets, on the side of its source
(`Proper.assets_of_find?`). -/
theorem assets_of_serving (hm : m.registry.Proper) (hgenuine : h.Genuine)
    (hserving : m.serving h = .ok (p, side)) :
    (∃ loaded ∈ m.registry.all, loaded.pair = p) ∧
      p.assets.get side = h.source ∧ p.assets.get side.opposite = h.target := by
  obtain ⟨hdistinct, loaded, hfind, rfl, rfl⟩ := serving_eq_ok.1 hserving
  have hpair : DenomPair.Genuine ⟨h.source, h.target, hdistinct⟩ := hgenuine
  obtain ⟨hall, hassets⟩ := hm.assets_of_find? hpair hfind
  refine ⟨⟨loaded, hall, rfl⟩, ?_⟩
  rcases hassets with hassets | hassets
  · rw [hassets, if_pos rfl]
    exact ⟨rfl, rfl⟩
  · have hother : ¬ loaded.pair.assets.first = h.source := by
      rw [hassets]
      exact hdistinct.symm
    rw [if_neg hother, hassets]
    exact ⟨rfl, rfl⟩

/-- The hop back is served by the same pair, on its other side. Of the two pairs that
`DenomPair.eq_or_eq_inverse` allows, the inverse is not registered. -/
theorem serving_back (hm : m.registry.Proper) (hone : m.registry.OneWay) (hgenuine : h.Genuine)
    (hthere : m.serving h = .ok (p, side)) (hback : m.serving h.back = .ok (q, other)) :
    q = p ∧ other = side.opposite := by
  obtain ⟨⟨there, hp, rfl⟩, hsource, htarget⟩ := assets_of_serving hm hgenuine hthere
  obtain ⟨⟨back, hq, rfl⟩, htarget', hsource'⟩ := assets_of_serving hm hgenuine.back hback
  rcases DenomPair.eq_or_eq_inverse (hsource'.trans hsource.symm) (htarget'.trans htarget.symm) with
    ⟨hassets, hother⟩ | hinverse
  · exact ⟨congrArg Loaded.pair (hm.eq_of_assets hp hq hassets), hother⟩
  · exact absurd hinverse (hone _ hp _ hq)

/-! ## Round trips -/

/-- No amount gains by going there and back, with the fees taken off on either way or not. The
induction is on the hops of the way there: the first of them is the last one back
(`valueAlong_append_eq_ok`), and behind it no more comes back to it than has gone out. The hops are
of denoms as they are parsed: a native coin made with the text of a token would be looked up as the
token, but be taken for the other asset of the pair. -/
theorem valueAlong_wayBack_le (hm : m.registry.Proper) (hone : m.registry.OneWay)
    (hgenuine : ∀ h ∈ hops, h.Genuine) (hthere : m.valueAlong a c hops = .ok v)
    (hback : m.valueAlong v c' (Hop.wayBack hops) = .ok w) : w ≤ a := by
  induction hops generalizing a w with
  | nil =>
    rw [valueAlong_nil_eq_ok] at hthere
    subst hthere
    exact Nat.le_of_eq (congrArg Amount.val (valueAlong_nil_eq_ok.1 hback).symm)
  | cons h rest ih =>
    obtain ⟨p, side, next, hserving, hnext, hrest⟩ := valueAlong_cons_eq_ok.1 hthere
    rw [Hop.wayBack_cons, valueAlong_append_eq_ok] at hback
    obtain ⟨returned, hreturned, hlast⟩ := hback
    obtain ⟨q, other, last, hservingBack, hvalue, hend⟩ := valueAlong_cons_eq_ok.1 hlast
    rw [valueAlong_nil_eq_ok] at hend
    subst hend
    have hle : returned ≤ next := ih (fun g hg => hgenuine g (List.mem_cons_of_mem h hg)) hrest hreturned
    obtain ⟨rfl, rfl⟩ :=
      serving_back hm hone (hgenuine h List.mem_cons_self) hserving hservingBack
    exact q.snapshot.value_back_le hnext hle hvalue

/-! ### Through two pools and back -/

namespace Sample

theorem proper_row : row.registry.Proper := by
  have hsei : sei.Validated := ⟨"usei", by decide⟩
  have hatom : atom.Validated := ⟨"uatom", by decide⟩
  have husdc : usdc.Validated := ⟨"uusdc", by decide⟩
  exact (Registry.proper_empty.register ⟨hsei, hatom⟩).register ⟨husdc, hatom⟩

/-- Of 1001 there comes back 1000: a unit is lost on the way, which `row` rounds twice in either
direction. -/
theorem wayBack_row :
    row.registry.Proper ∧ row.registry.OneWay ∧ (∀ h ∈ way, h.Genuine) ∧
      row.valueAlong (.ofUInt32 1001) false way = .ok (.ofUInt32 5254) ∧
      row.valueAlong (.ofUInt32 5254) false (Hop.wayBack way) = .ok (.ofUInt32 1000) ∧
      Amount.ofUInt32 1000 ≤ .ofUInt32 1001 := by
  have hone : row.registry.OneWay := by
    unfold Registry.OneWay
    decide +kernel
  have hgenuine : ∀ h ∈ way, h.Genuine := by
    have hatom : atom.Genuine := Denom.Validated.genuine ⟨"uatom", by decide⟩
    intro h hh
    rcases List.mem_pair.1 hh with rfl | rfl
    · exact ⟨Denom.Validated.genuine ⟨"usei", by decide⟩, hatom⟩
    · exact ⟨hatom, Denom.Validated.genuine ⟨"uusdc", by decide⟩⟩
  have hthere : row.valueAlong (.ofUInt32 1001) false way = .ok (.ofUInt32 5254) := by
    decide +kernel
  have hback : row.valueAlong (.ofUInt32 5254) false (Hop.wayBack way) = .ok (.ofUInt32 1000) := by
    decide +kernel
  exact ⟨proper_row, hone, hgenuine, hthere, hback,
    valueAlong_wayBack_le proper_row hone hgenuine hthere hback⟩

/-! ### A token that is taken for a coin

The restriction to genuine denoms cannot be dropped. A native coin that is made with the text of a
token, and not read from one, has the key of the token: `Registry.find?` finds the token's pair for
it. But `Market.serving` compares the denoms themselves to tell the side of the source, and takes the
coin for the other asset. So both directions are served on one side, and both multiply. -/

/-- The text of the token, as a native coin. -/
def lookalike : Denom := .native "cw20/sei1tok"

/-- The pair of the token, which is listed first, and `sei`. -/
def tokenPair : Loaded :=
  funded (load 3 ⟨"tokenpair", by decide, by decide⟩
    ⟨.token ⟨"sei1tok", by decide, by decide⟩, sei, by decide⟩) ⟨.ofUInt32 9000, .ofUInt32 4000⟩

/-- A market that knows the pair of the token only. -/
def tokenMarket : Market := { market with registry := (Registry.empty.register tokenPair).1 }

theorem proper_tokenMarket : tokenMarket.registry.Proper := by
  have htoken : Denom.Validated (.token ⟨"sei1tok", by decide, by decide⟩) :=
    ⟨_, Denom.ofString_token _⟩
  exact Registry.proper_empty.register ⟨htoken, ⟨"usei", by decide⟩⟩

/-- Along any hops at all a round trip can gain: from 1000 to 2250, and back to 5062
(`tokenMarket`). -/
theorem wayBack_gains :
    ¬ ∀ (m : Market) (hops : List Hop) (a v w : Amount) (c c' : Bool),
        m.registry.Proper → m.registry.OneWay → m.valueAlong a c hops = .ok v →
        m.valueAlong v c' (Hop.wayBack hops) = .ok w → w ≤ a := by
  intro h
  have hone : tokenMarket.registry.OneWay := by
    unfold Registry.OneWay
    decide +kernel
  have hthere : tokenMarket.valueAlong (.ofUInt32 1000) false [⟨lookalike, sei⟩] =
      .ok (.ofUInt32 2250) := by decide +kernel
  have hback : tokenMarket.valueAlong (.ofUInt32 2250) false (Hop.wayBack [⟨lookalike, sei⟩]) =
      .ok (.ofUInt32 5062) := by decide +kernel
  have hle := h tokenMarket _ _ _ _ false false proper_tokenMarket hone hthere hback
  exact absurd hle (by decide)

end Sample

end Market

end PoolMarket
