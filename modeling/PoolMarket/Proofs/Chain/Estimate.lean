import PoolMarket.Proofs.Chain.PoolHistory
import PoolMarket.Proofs.Chain.Pricing
import PoolMarket.Proofs.Market.PoolReading
import PoolMarket.Proofs.Pool.Worth

/-!
# Estimates against the rate of a pool

What an offer would bring at the rate of a pool is found out in two ways. The pool converts the
offer and takes its fees off what comes out. An estimate on a snapshot takes the fees off the offer
and converts the rest, so it is rounded elsewhere; it stays on the safe side.
-/

namespace PoolMarket.Chain

namespace Pool

variable {p : Pool} {side : Side} {a : Amount} {result : NaiveResult}

/-- Where a pool has a result at its rate, its snapshot has the estimates: without the fees, what
the pool pays and charges together; with them, no more than what it pays. The two differ by what is
rounded off before the conversion or behind it (`Fees.converted_add_taken_le`). -/
theorem estimates_of_quoteNaive (h : p.quoteNaive ⟨a, p.assets.get side⟩ = .ok result) :
    (∃ gross, p.snapshot.value side a false = .ok gross ∧
        gross.val = result.paid.val + result.totalFee.val) ∧
      ∃ net, p.snapshot.value side a true = .ok net ∧ net ≤ result.paid := by
  obtain ⟨side', hside, hin, -, hnaive, htotal, -, hpaid⟩ := quoteNaive_eq_ok.1 h
  rw [p.assets.side?_get side, Option.some.injEq] at hside
  subst hside
  have hgross : p.snapshot.value side a false = .ok ⟨_, hnaive⟩ :=
    Snapshot.value_eq_ok.2 ⟨hin, rfl⟩
  obtain ⟨net, hnet, -⟩ := Snapshot.value_mono hgross (Nat.le_refl _) (Bool.false_le true)
  obtain ⟨-, hval⟩ := Snapshot.value_eq_ok.1 hnet
  -- the fees that the pool takes and what is left without them are parts of the whole worth
  have hparts : net.val + result.totalFee.val ≤ p.naive side a := by
    rw [hval, htotal]
    exact Fees.converted_add_taken_le p.fees.kept_add_total
  have hfee : result.totalFee.val ≤ p.naive side a := Nat.le_trans (Nat.le_add_left ..) hparts
  refine ⟨⟨_, hgross, ?_⟩, net, hnet, ?_⟩
  · show p.naive side a = _
    rw [hpaid, Nat.sub_add_cancel hfee]
  · show net.val ≤ result.paid.val
    rw [hpaid]
    exact Nat.le_sub_of_add_le hparts

end Pool

namespace Sample

/-- The estimate with the fees falls short of what the pool pays by a unit. -/
theorem estimates_opened :
    opened.quoteNaive ⟨.ofUInt32 1001, opened.assets.get .first⟩ =
        .ok ⟨.ofUInt32 661, .ofUInt32 6, .ofUInt32 1⟩ ∧
      opened.snapshot.value .first (.ofUInt32 1001) false = .ok (.ofUInt32 667) ∧
      opened.snapshot.value .first (.ofUInt32 1001) true = .ok (.ofUInt32 660) ∧
      Amount.ofUInt32 660 ≤ .ofUInt32 661 := by
  have hquote : opened.quoteNaive ⟨.ofUInt32 1001, opened.assets.get .first⟩ =
      .ok ⟨.ofUInt32 661, .ofUInt32 6, .ofUInt32 1⟩ := rfl
  obtain ⟨⟨gross, hgross, hsum⟩, net, hnet, hle⟩ := Pool.estimates_of_quoteNaive hquote
  obtain rfl : gross = .ofUInt32 667 := Amount.ext hsum
  obtain rfl : net = .ofUInt32 660 := by
    have hestimate : opened.snapshot.value .first (.ofUInt32 1001) true = .ok (.ofUInt32 660) := rfl
    rw [hnet] at hestimate
    exact Except.ok.inj hestimate
  exact ⟨hquote, hgross, hnet, hle⟩

end Sample

end PoolMarket.Chain
