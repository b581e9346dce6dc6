import PoolMarket.Proofs.Chain.Routing

/-!
# Offering less

Whatever a pool accepts of an offer it accepts of a smaller one, and pays no more for it. Since what
one pool pays is the offer to the next, the same holds along any row of pools, through some of them
more than once.

`quoteSwap_mono` is one pool, `routed_mono` the induction over the row. Both include that the
smaller offer has a price at all.
-/

namespace PoolMarket.Chain

namespace Pool

variable {p : Pool} {side : Side} {a b : Amount} {denom : Denom} {result : SwapResult}

/-- A smaller offer is accepted where a larger one is, as all bounds are from above. So
`quoteSwap_mono` needs no hypothesis about the smaller offer. -/
theorem Accepts.mono (h : p.Accepts side b) (hab : a ≤ b) : p.Accepts side a := by
  have hab : a.val ≤ b.val := hab
  have hnaive : p.naive side a ≤ p.naive side b :=
    Nat.div_le_div_right (Nat.mul_le_mul_right _ hab)
  have hlt := h.naive
  have hafter := h.after
  exact ⟨h.poolIn, h.poolOut, by omega, by omega⟩

/-- It draws no more, since more has to remain. -/
theorem drawn_mono (p : Pool) {side : Side} (hin : 0 < (p.reserves.get side).val) (hab : a ≤ b) :
    p.drawn side a ≤ p.drawn side b := by
  unfold drawn remaining
  apply Nat.sub_le_sub_left
  exact Nat.div_le_div_left (Nat.add_le_add_left hab _) (Nat.add_pos_left hin _)

/-- A smaller offer has a price where a larger one has (`Accepts.mono`), and is paid no more: what
is drawn is no more (`drawn_mono`), and neither is what fees leave of it (`Fees.rest_mono`). -/
theorem quoteSwap_mono (h : p.quoteSwap ⟨b, denom⟩ = .ok result) (hab : a ≤ b) :
    ∃ less, p.quoteSwap ⟨a, denom⟩ = .ok less ∧ less.paid ≤ result.paid := by
  obtain ⟨side, hside, haccepts, hpays⟩ := quoteSwap_eq_ok.1 h
  have hless : p.Accepts side (⟨a, denom⟩ : Coin).amount := haccepts.mono hab
  obtain ⟨less, hquote, hpaysLess⟩ := hless.exists_quoteSwap hside
  refine ⟨less, hquote, ?_⟩
  show less.paid.val ≤ result.paid.val
  rw [hpaysLess.paid, hpaysLess.totalFee, hpays.paid, hpays.totalFee]
  exact Fees.rest_mono p.fees.total_le (p.drawn_mono haccepts.poolIn hab)

end Pool

namespace Ledger

variable {l : Ledger} {a b slip : Amount} {denom : Denom} {swappers : List Addr} {r : RoutedResult}

/-- A smaller offer passes the same pools. The induction is on the hops that are left; what the hops
before have paid is smaller, and the slip, which is that of the last hop only, is free. It is
`quoteSwap_mono` at each hop. -/
theorem routed_mono (h : l.routed ⟨b, denom⟩ slip swappers = .ok r) (hab : a ≤ b) (slip' : Amount) :
    ∃ s, l.routed ⟨a, denom⟩ slip' swappers = .ok s ∧ s.denom = r.denom ∧ s.amount ≤ r.amount := by
  induction swappers generalizing a b denom slip slip' with
  | nil =>
    rw [routed, Except.ok.injEq] at h
    subst h
    exact ⟨_, rfl, rfl, hab⟩
  | cons contract rest ih =>
    obtain ⟨p, result, next, slipNext, hp, hquote, hnext, -, hrest⟩ := routed_cons_eq_ok.1 h
    obtain ⟨less, hless, hpaid⟩ := Pool.quoteSwap_mono hquote hab
    obtain ⟨atRate, hatRate⟩ := Pool.exists_quoteNaive hless
    obtain ⟨s, hs, hdenom, hamount⟩ := ih hrest hpaid (atRate.paid.monus less.paid)
    refine ⟨s, ?_, hdenom, hamount⟩
    exact routed_cons_eq_ok.2 ⟨p, less, next, _, hp, hless, hnext, ⟨atRate, hatRate, rfl⟩, hs⟩

/-- On any chain and through any pools, some perhaps more than once: where the router has a preview
for an offer, it has one for every smaller offer of the same asset, of the same asset and no larger
(`routed_mono`). -/
theorem previewSwaps_mono (h : l.previewSwaps ⟨b, denom⟩ swappers = .ok r) (hab : a ≤ b) :
    ∃ s, l.previewSwaps ⟨a, denom⟩ swappers = .ok s ∧ s.denom = r.denom ∧ s.amount ≤ r.amount := by
  have hsome : swappers ≠ [] := by
    rintro rfl
    cases h
  rw [previewSwaps_eq hsome] at h ⊢
  exact routed_mono h hab .zero

end Ledger

namespace Sample

open Deployment (factory router)

/-- There and back through one pool. -/
def thereAndBack : List Addr := [contract, contract]

theorem previewSwaps_mono_thereAndBack :
    ((Ledger.new factory router).run opening).previewSwaps
        ⟨.ofUInt32 6001, assets.first⟩ thereAndBack =
          .ok ⟨assets.first, .ofUInt32 658, .ofUInt32 520⟩ ∧
      Amount.ofUInt32 1 ≤ .ofUInt32 6001 ∧
      ∃ s, ((Ledger.new factory router).run opening).previewSwaps
          ⟨.ofUInt32 1, assets.first⟩ thereAndBack = .ok s ∧
        s.denom = assets.first ∧ s.amount ≤ .ofUInt32 658 := by
  have hlarge : ((Ledger.new factory router).run opening).previewSwaps
      ⟨.ofUInt32 6001, assets.first⟩ thereAndBack =
        .ok ⟨assets.first, .ofUInt32 658, .ofUInt32 520⟩ := by decide +kernel
  have hle : Amount.ofUInt32 1 ≤ .ofUInt32 6001 := by decide
  exact ⟨hlarge, hle, Ledger.previewSwaps_mono hlarge hle⟩

end Sample

end PoolMarket.Chain
