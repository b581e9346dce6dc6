import PoolMarket.Proofs.Chain.PoolHistory
import PoolMarket.Proofs.Chain.Pricing

/-!
# Where the amounts of a swap go

An offer has a price just where both reserves hold something and neither the reserve that takes it
nor its worth at the rate before the swap is too large. What the swap draws from the other reserve
is then the exact worth of the offer, rounded up. The fees are shares of that; the trader and the
maker get what leaves the pool, and nothing else on the chain changes.

`Fees.Splits` states the split in terms of the two reserves and the offer alone, without the names
that the price is computed by; `Pays.splits` derives it from what a price is.
-/

namespace PoolMarket

/-- All that a swap draws from the reserve it is paid from: the payment and the fees. -/
def SwapResult.gross (r : SwapResult) : Nat := r.paid.val + r.totalFee.val

/-- How a swap between two reserves is split. -/
structure Fees.Splits (f : Fees) (poolIn poolOut offered : Nat) (r : SwapResult) : Prop where
  gross : r.gross = poolOut - poolIn * poolOut / (poolIn + offered)
  gross_le : r.gross ≤ poolOut
  /-- No less is drawn than the offer is worth once the pool has taken it. -/
  worth_le : offered * poolOut ≤ r.gross * (poolIn + offered)
  /-- It is more by less than one unit. -/
  lt_worth : r.gross * (poolIn + offered) < offered * poolOut + (poolIn + offered)
  totalFee : r.totalFee.val = r.gross * f.total.val / BasisPoints.whole
  makerFee : r.makerFee.val = r.gross * f.maker.val / BasisPoints.whole
  makerFee_le : r.makerFee.val ≤ r.totalFee.val
  spread : r.spread.val = offered * poolOut / poolIn - r.gross

theorem Both.set_get_opposite {α : Type} (b c : Both α) (s : Side) :
    (b.set s (c.get s)).set s.opposite (c.get s.opposite) = c := by
  cases s <;> rfl

namespace Chain

namespace Pool

variable {p q : Pool} {side : Side} {offer : Coin} {result : SwapResult}

/-- What is paid and what is charged are together what is drawn (`Pays.totalFee_le`). -/
theorem Pays.gross (h : p.Pays side offer.amount result) :
    result.gross = p.drawn side offer.amount := by
  have hfee := h.totalFee_le
  have hpaid := h.paid
  unfold SwapResult.gross
  omega

/-- A price is split as the fees say. That the amount drawn is the worth of the offer, rounded up,
is `drawn_mul` with its remainder bounded by the divisor. -/
theorem Pays.splits (h : p.Pays side offer.amount result) (haccepts : p.Accepts side offer.amount) :
    p.fees.Splits (p.reserves.get side).val (p.reserves.get side.opposite).val offer.amount.val
      result := by
  have hgross := h.gross
  have hworth := p.drawn_mul side offer.amount
  rw [← hgross] at hworth
  -- the quotient and the remainder give both bounds on what the offer is worth
  have hrest : (p.reserves.get side).val * (p.reserves.get side.opposite).val %
      ((p.reserves.get side).val + offer.amount.val) <
        (p.reserves.get side).val + offer.amount.val :=
    Nat.mod_lt _ (Nat.add_pos_left haccepts.poolIn _)
  constructor
  case gross => exact hgross
  case gross_le =>
    rw [hgross]
    exact Nat.sub_le _ _
  case worth_le => omega
  case lt_worth => omega
  case totalFee =>
    rw [hgross]
    exact h.totalFee
  case makerFee =>
    rw [hgross]
    exact h.makerFee
  case makerFee_le => exact h.makerFee_le
  case spread =>
    rw [hgross]
    exact h.spread

/-- An offer has a price exactly if it is of an asset of the pool and is accepted on its side
(`Accepts.exists_quoteSwap`). -/
theorem exists_quoteSwap_iff :
    (∃ result, p.quoteSwap offer = .ok result) ↔
      ∃ side, p.assets.side? offer.denom = some side ∧ p.Accepts side offer.amount := by
  constructor
  · intro h
    obtain ⟨result, hquote⟩ := h
    obtain ⟨side, hside, haccepts, -⟩ := quoteSwap_eq_ok.1 hquote
    exact ⟨side, hside, haccepts⟩
  · intro h
    obtain ⟨side, hside, haccepts⟩ := h
    obtain ⟨result, hquote, -⟩ := haccepts.exists_quoteSwap hside
    exact ⟨result, hquote⟩

end Pool

namespace Ledger

/-- A swap at a pool has a price just where the offer is of one of its assets, both reserves hold
something, and the reserve that takes the offer and the worth of the offer at the rate before both
stay in range. It then succeeds. What it draws from the other reserve is split as the fees say; the
offer is added on its side, the payment and the maker's fee leave the other, and all else on the
chain is as it was. When it has a price is `exists_quoteSwap_iff`, and where everything goes are
`swap_moves` and `Pays.splits`. -/
theorem swap_accounts {l : Ledger} {contract : Addr} {p : Pool} (hp : l.pools[contract]? = some p)
    (offer : Coin) :
    ((∃ result, p.quoteSwap offer = .ok result) ↔
      ∃ side, p.assets.side? offer.denom = some side ∧ p.Accepts side offer.amount) ∧
    ∀ result, p.quoteSwap offer = .ok result →
      ∃ side poolIn poolOut, p.assets.side? offer.denom = some side ∧
        p.fees.Splits (p.reserves.get side).val (p.reserves.get side.opposite).val
          offer.amount.val result ∧
        poolIn.val = (p.reserves.get side).val + offer.amount.val ∧
        poolOut.val + (result.paid.val + result.makerFee.val) =
          (p.reserves.get side.opposite).val ∧
        l.swap contract offer = .ok (result, { l with
          pools := l.pools.insert contract { p with
            reserves := (p.reserves.set side poolIn).set side.opposite poolOut } }) := by
  refine ⟨Pool.exists_quoteSwap_iff, fun result hquote => ?_⟩
  obtain ⟨side, hside, haccepts, hpays⟩ := Pool.quoteSwap_eq_ok.1 hquote
  obtain ⟨q, hon⟩ := Pool.swap_eq_ok.2 hquote
  obtain ⟨hin, hout, hrest⟩ := Pool.swap_moves hon hside
  refine ⟨side, q.reserves.get side, q.reserves.get side.opposite, hside, hpays.splits haccepts, hin,
    hout, ?_⟩
  rw [Both.set_get_opposite, ← hrest]
  exact update_eq_ok.2 ⟨p, q, hp, hon, rfl⟩

end Ledger

namespace Sample

open Deployment (factory router)

/-- An offer that is worth a fraction over 800 units. -/
def large : Coin := ⟨.ofUInt32 6001, assets.first⟩

theorem swap_accounts_large :
    ∃ result n, opened.quoteSwap large = .ok result ∧ result.gross = 801 ∧
      ((Ledger.new factory router).run opening).swap contract large = .ok (result, n) ∧
      n.pools[contract]? =
        some { opened with reserves := ⟨.ofUInt32 7501, .ofUInt32 205⟩ } := by
  have hquote : opened.quoteSwap large =
      .ok ⟨.ofUInt32 793, .ofUInt32 3199, .ofUInt32 8, .ofUInt32 2⟩ := rfl
  obtain ⟨-, hprice⟩ := Ledger.swap_accounts pool_opening large
  obtain ⟨side, poolIn, poolOut, hside, -, hin, hout, hswap⟩ := hprice _ hquote
  obtain rfl : Side.first = side := Option.some.inj hside
  obtain rfl : poolIn = .ofUInt32 7501 := Amount.ext hin
  obtain rfl : poolOut = .ofUInt32 205 := by
    apply Amount.ext
    have hout : poolOut.val + 795 = 1000 := hout
    show poolOut.val = 205
    omega
  exact ⟨_, _, hquote, rfl, hswap, Std.TreeMap.getElem?_insert_self⟩

end Sample

end Chain

end PoolMarket
