import PoolMarket.Proofs.Market.Swaps
import PoolMarket.Proofs.Pool.Worth

/-!
# Worth along a route

An amount is worth along some hops what the last of them makes of what the ones before have made of
it. Each hop keeps the order of two amounts, so the route does, however often it is rounded on the
way; and since a smaller amount never fails where a larger one does not, neither does the route.

The step is `Snapshot.value_mono`, at one hop, and the induction is `valueAlong_mono`. It is for
both comparisons at once: of a smaller amount, and of one whose fees are taken off.
-/

namespace PoolMarket

namespace Market

variable {m : Market} {a b v : Amount} {c c' : Bool} {hops more : List Hop} {h : Hop}

/-! ## One hop after the other

`Market.valueAlong` as three equivalences, for no hops, for one hop and more, and for hops behind
hops. Nothing else opens it. -/

theorem valueAlong_nil_eq_ok : m.valueAlong a c [] = .ok v ↔ a = v := by
  rw [valueAlong, Except.ok.injEq]

/-- The first hop needs a pair that serves it and makes something of the amount, and the rest goes
on with that (`Outcome.bind_eq_ok`). -/
theorem valueAlong_cons_eq_ok :
    m.valueAlong a c (h :: more) = .ok v ↔
      ∃ p side next, m.serving h = .ok (p, side) ∧ p.snapshot.value side a c = .ok next ∧
        m.valueAlong next c more = .ok v := by
  rw [valueAlong]
  simp only [Outcome.bind_eq_ok, Prod.exists]
  constructor
  · rintro ⟨p, side, hserving, next, hnext, hmore⟩
    exact ⟨p, side, next, hserving, hnext, hmore⟩
  · rintro ⟨p, side, next, hserving, hnext, hmore⟩
    exact ⟨p, side, hserving, next, hnext, hmore⟩

/-- Hops behind hops go on from what the first have made of the amount. By induction on the first
(`valueAlong_cons_eq_ok`). -/
theorem valueAlong_append_eq_ok :
    m.valueAlong a c (hops ++ more) = .ok v ↔
      ∃ next, m.valueAlong a c hops = .ok next ∧ m.valueAlong next c more = .ok v := by
  induction hops generalizing a with
  | nil =>
    simp only [List.nil_append, valueAlong_nil_eq_ok, exists_eq_left']
  | cons h rest ih =>
    simp only [List.cons_append, valueAlong_cons_eq_ok, ih]
    constructor
    · rintro ⟨p, side, first, hserving, hfirst, next, hrest, hmore⟩
      exact ⟨next, ⟨p, side, first, hserving, hfirst, hrest⟩, hmore⟩
    · rintro ⟨next, ⟨p, side, first, hserving, hfirst, hrest⟩, hmore⟩
      exact ⟨p, side, first, hserving, hfirst, next, hrest, hmore⟩

/-! ## More and less -/

/-- A smaller amount, or one with its fees taken off, is worth no more, and is worth something where
the other is. The induction is on the hops that are left: what comes out of the first of them is no
larger (`Snapshot.value_mono`), and the pair that serves it is the same. -/
theorem valueAlong_mono (hv : m.valueAlong b c hops = .ok v) (hab : a ≤ b) (hfees : c ≤ c') :
    ∃ u, m.valueAlong a c' hops = .ok u ∧ u ≤ v := by
  induction hops generalizing a b with
  | nil =>
    rw [valueAlong_nil_eq_ok] at hv
    subst hv
    exact ⟨a, rfl, hab⟩
  | cons h rest ih =>
    obtain ⟨p, side, next, hserving, hnext, hrest⟩ := valueAlong_cons_eq_ok.1 hv
    obtain ⟨less, hless, hle⟩ := p.snapshot.value_mono hnext hab hfees
    obtain ⟨u, hu, huv⟩ := ih hrest hle
    exact ⟨u, valueAlong_cons_eq_ok.2 ⟨p, side, less, hserving, hless, hu⟩, huv⟩

/-- How what different amounts are worth along some hops compares. -/
structure WorthGrows (m : Market) (hops : List Hop) : Prop where
  /-- What is worth something is worth no less than a smaller amount, and that is worth something,
  too. -/
  amount : ∀ (a b v : Amount) (feesIncluded : Bool), a ≤ b →
    m.valueAlong b feesIncluded hops = .ok v →
      ∃ u, m.valueAlong a feesIncluded hops = .ok u ∧ u ≤ v
  /-- With the fees taken off at every hop it is worth no more, but still worth something. -/
  fees : ∀ b v : Amount, m.valueAlong b false hops = .ok v →
    ∃ w, m.valueAlong b true hops = .ok w ∧ w ≤ v

/-- On any market and along any hops, whether they chain or not, a smaller amount is worth no more
than a larger one, and an amount with the fees no more than without. Both are `valueAlong_mono`,
with the other comparison left equal. -/
theorem worthGrows (m : Market) (hops : List Hop) : m.WorthGrows hops where
  amount _ _ _ _ hab hv := valueAlong_mono hv hab (Bool.le_refl _)
  fees _ _ hv := valueAlong_mono hv (Nat.le_refl _) (Bool.false_le _)

/-! ### Two pools with fees -/

namespace Sample

/-- The fees of both pools. -/
def fees : Fees := ⟨.ofUInt16 25, .ofUInt16 75, by decide⟩

/-- A loaded pair whose pool holds something. -/
def funded (p : Loaded) (reserves : Both Amount) : Loaded :=
  { p with pair := { p.pair with snapshot := ⟨reserves, .ofUInt32 6000, fees⟩ } }

/-- Listed in the direction of the hops. -/
def toAtom : Loaded := funded there ⟨.ofUInt32 4000, .ofUInt32 9000⟩

/-- Listed against it. -/
def fromUsdc : Loaded := funded behind ⟨.ofUInt32 700, .ofUInt32 300⟩

/-- Two pools in a row, the second of which is listed against the direction of the hops. -/
def row : Market :=
  { market with registry := ((Registry.empty.register toAtom).1.register fromUsdc).1 }

/-- From one end to the other. -/
def way : List Hop := [⟨sei, atom⟩, ⟨atom, usdc⟩]

theorem worthGrows_row :
    row.valueAlong (.ofUInt32 1001) false way = .ok (.ofUInt32 5254) ∧
      (∃ u, row.valueAlong (.ofUInt32 1000) false way = .ok u ∧ u ≤ .ofUInt32 5254) ∧
      ∃ w, row.valueAlong (.ofUInt32 1001) true way = .ok w ∧ w ≤ .ofUInt32 5254 := by
  have hworth : row.valueAlong (.ofUInt32 1001) false way = .ok (.ofUInt32 5254) := by
    decide +kernel
  obtain ⟨hamount, hfees⟩ := worthGrows row way
  exact ⟨hworth, hamount _ _ _ _ (by decide) hworth, hfees _ _ hworth⟩

end Sample

end Market

end PoolMarket
