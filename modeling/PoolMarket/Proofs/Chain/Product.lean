import PoolMarket.Proofs.Chain.PoolHistory
import PoolMarket.Proofs.Chain.Pricing

/-!
# The product of the reserves

What a swap leaves of the reserve that it draws on is rounded down, in favour of whoever swaps. So
the product of the reserves need not grow. It shrinks just where the pool keeps nothing of the fees
and the division has a remainder, and then by less than the reserve that has taken the offer.

* `swap_product` — the product after a swap as one quotient, multiplied back.
* `product_le_of_fee` — a unit of fees that stays in the pool makes up for the remainder.
* `product_le_run` — along any run, as long as each swap of the pool leaves it such a unit
  (`KeepsFee`).
-/

namespace PoolMarket.Chain

namespace Pool

variable {p q : Pool} {offer : Coin} {result : SwapResult}

/-- The product of the two reserves. -/
def product (p : Pool) : Nat := p.reserves.first.val * p.reserves.second.val

theorem product_eq (p : Pool) (side : Side) :
    p.product = (p.reserves.get side).val * (p.reserves.get side.opposite).val := by
  cases side with
  | first => rfl
  | second => exact Nat.mul_comm ..

/-! ## A quotient rounded down and multiplied back

Two facts about `d * (n / d + k)`, where `k` is what the pool keeps of the fees: when it reaches
`n` again, and by how much it can fail to. -/

/-- The product is reached again exactly if something is added or nothing was lost. With `k` for the
product and `d` for the reserve, it is about `k % d` (`Nat.div_add_mod`). -/
theorem le_mul_div_add_iff {n d k : Nat} (hd : 0 < d) : n ≤ d * (n / d + k) ↔ 0 < k ∨ d ∣ n := by
  have hdivided := Nat.div_add_mod n d
  have hmod := Nat.mod_lt n hd
  rw [Nat.mul_add, Nat.dvd_iff_mod_eq_zero]
  rcases Nat.eq_zero_or_pos k with rfl | hk
  · omega
  · have hwhole : d ≤ d * k := Nat.le_mul_of_pos_right d hk
    omega

/-- It never falls short by as much as the divisor. It is the other half of `le_mul_div_add_iff`,
which says when it falls short at all. -/
theorem lt_mul_div_add (n k : Nat) {d : Nat} (hd : 0 < d) : n < d * (n / d + k) + d := by
  have hdivided := Nat.div_add_mod n d
  have hmod := Nat.mod_lt n hd
  rw [Nat.mul_add]
  omega

/-! ## One swap

-/

/-- A swap divides the product by the reserve that has taken the offer, and multiplies it back with
the fees of the pool added (`swap_reserves`). -/
theorem swap_product (h : (swap offer).on p = (.ok result, q)) :
    ∃ side, p.assets.side? offer.denom = some side ∧ 0 < (q.reserves.get side).val ∧
      q.product = (q.reserves.get side).val *
        (p.product / (q.reserves.get side).val + (result.totalFee.val - result.makerFee.val)) := by
  obtain ⟨side, hside, haccepts, -, hin, hout⟩ := swap_reserves h
  refine ⟨side, hside, ?_, ?_⟩
  · rw [hin]
    exact Nat.add_pos_left haccepts.poolIn _
  · rw [q.product_eq side, hout, p.product_eq side, hin]
    rfl

/-- The product does not shrink if some of the fees stay in the pool (`le_mul_div_add_iff`). -/
theorem product_le_of_fee (h : (swap offer).on p = (.ok result, q))
    (hfee : result.makerFee < result.totalFee) : p.product ≤ q.product := by
  obtain ⟨side, -, hpos, hproduct⟩ := swap_product h
  rw [hproduct, le_mul_div_add_iff hpos]
  exact Or.inl (Nat.sub_pos_of_lt hfee)

end Pool

/-! ## Runs of swaps

Deposits and withdrawals change the product for other reasons and are excluded. The hypothesis on
the swaps is about the chain at the time of each, not about the pool at the beginning. -/

/-- The call is a deposit or a withdrawal at a contract. -/
def Call.resizesAt (contract : Addr) : Call → Bool
  | .deposit other _ => other == contract
  | .withdraw other _ => other == contract
  | _ => false

namespace Ledger

/-- If a swap of an offer succeeds now, then some of its fees stay in the pool. An offer that has no
price is of no concern, so a failed swap meets this. -/
def KeepsFee (l : Ledger) (contract : Addr) (offer : Coin) : Prop :=
  ∀ result n, l.swap contract offer = .ok (result, n) → result.makerFee < result.totalFee

instance (l : Ledger) (contract : Addr) (offer : Coin) : Decidable (l.KeepsFee contract offer) :=
  match h : l.swap contract offer with
  | .error _ => isTrue fun _ _ hok => by
    rw [h] at hok
    cases hok
  | .ok out => decidable_of_iff (out.1.makerFee < out.1.totalFee)
    ⟨fun hlt _ _ hok => by
      rw [h] at hok
      cases hok
      exact hlt, fun hkeeps => hkeeps out.1 out.2 h⟩

/-- Swaps that leave some of their fees in the pool, among whatever else but deposits and
withdrawals, never lower the product: `run_related`, with `product_le_of_fee` for the one turn in
which reserves move. -/
theorem product_le_run {l : Ledger} {contract : Addr} {calls : List Call} {p q : Pool}
    (hcalls : ∀ call ∈ calls, call.resizesAt contract = false)
    (hfees : ∀ before offer, before ++ [.swap contract offer] <+: calls →
      (l.run before).KeepsFee contract offer)
    (hp : l.pools[contract]? = some p) (hq : (l.run calls).pools[contract]? = some q) :
    p.product ≤ q.product := by
  refine run_related (R := fun p q => p.product ≤ q.product) (fun p => Nat.le_refl _) ?_ ?_ hp hq
  · exact fun _ _ _ _ _ _ hpq hqr => Nat.le_trans hpq hqr
  · intro before call hbefore p q hp hq hturns
    have hresizes := hcalls call (hbefore.subset (by simp))
    -- only a swap can change the product here: deposits and withdrawals are ruled out
    cases hturns with
    | deposit done =>
      rw [Call.resizesAt, beq_self_eq_true] at hresizes
      cases hresizes
    | withdraw done =>
      rw [Call.resizesAt, beq_self_eq_true] at hresizes
      cases hresizes
    | swap done =>
      exact Pool.product_le_of_fee done
        (hfees before _ hbefore _ _ (update_eq_ok.2 ⟨_, _, hp, done, rfl⟩))
    | setFees done =>
      obtain rfl := Pool.Transaction.on_modify_eq_ok.1 done
      exact Nat.le_refl _

/-- A swap does not lower the product of the reserves just if some of the fees stay in the pool or
the reserve that has taken the offer divides the product. It never lowers it by as much as that
reserve. So a run of swaps of which each leaves some of its fees never lowers it at all. One swap is
`swap_product`, and the run is an induction with it (`product_le_run`). -/
theorem run_product (factory router : Addr) (history : List Call) (contract : Addr) :
    (∀ (offer : Coin) (result : SwapResult) (n : Ledger) (p q : Pool),
        ((new factory router).run history).swap contract offer = .ok (result, n) →
        ((new factory router).run history).pools[contract]? = some p →
        n.pools[contract]? = some q →
        ∃ side, p.assets.side? offer.denom = some side ∧
          (p.product ≤ q.product ↔
            result.makerFee < result.totalFee ∨ (q.reserves.get side).val ∣ p.product) ∧
          p.product < q.product + (q.reserves.get side).val) ∧
      ∀ (calls : List Call) (p q : Pool),
        (∀ call ∈ calls, call.resizesAt contract = false) →
        (∀ before offer, before ++ [.swap contract offer] <+: calls →
          (((new factory router).run history).run before).KeepsFee contract offer) →
        ((new factory router).run history).pools[contract]? = some p →
        (((new factory router).run history).run calls).pools[contract]? = some q →
        p.product ≤ q.product := by
  refine ⟨fun offer result n p q hswap hp hq => ?_,
    fun calls p q hcalls hfees hp hq => product_le_run hcalls hfees hp hq⟩
  obtain ⟨p', q', hp', hon, rfl⟩ := update_eq_ok.1 hswap
  obtain rfl : p' = p := by
    rw [hp', Option.some.injEq] at hp
    exact hp
  obtain rfl : q' = q := by
    rw [Std.TreeMap.getElem?_insert_self, Option.some.injEq] at hq
    exact hq
  obtain ⟨side, hside, hpos, hproduct⟩ := Pool.swap_product hon
  refine ⟨side, hside, ?_, ?_⟩
  · -- the product grows by the part of the fee the pool keeps, less what the rounding takes
    rw [hproduct, Pool.le_mul_div_add_iff hpos, Nat.sub_pos_iff_lt]
    rfl
  · rw [hproduct]
    exact Pool.lt_mul_div_add _ _ hpos

end Ledger

namespace Sample

open Deployment (factory router)

/-- The smallest offer there is. The fees on it come to nothing. -/
def least : Coin := ⟨.ofUInt32 1, assets.first⟩

/-- The pool that has paid a whole unit for it, which is more than its rate. -/
def shaved : Pool := { opened with reserves := ⟨.ofUInt32 1501, .ofUInt32 999⟩ }

theorem swap_least :
    ∃ result n, ((Ledger.new factory router).run opening).swap contract least = .ok (result, n) ∧
      n.pools[contract]? = some shaved := by
  have hquote : opened.quoteSwap least = .ok ⟨.ofUInt32 1, .zero, .zero, .zero⟩ := rfl
  obtain ⟨q, hon⟩ := Pool.swap_eq_ok.2 hquote
  have hq : ((Pool.swap least).on opened).2 = shaved := by decide +kernel
  rw [hon] at hq
  exact ⟨_, _, Ledger.update_eq_ok.2 ⟨opened, q, pool_opening, hon, rfl⟩,
    hq ▸ Std.TreeMap.getElem?_insert_self⟩

theorem product_shrinks :
    ¬ ∀ (factory router : Addr) (history : List Call) (contract : Addr) (offer : Coin)
        (result : SwapResult) (n : Ledger) (p q : Pool),
        ((Ledger.new factory router).run history).swap contract offer = .ok (result, n) →
        ((Ledger.new factory router).run history).pools[contract]? = some p →
        n.pools[contract]? = some q →
        p.reserves.first.val * p.reserves.second.val ≤
          q.reserves.first.val * q.reserves.second.val := by
  intro h
  obtain ⟨result, n, hswap, hshaved⟩ := swap_least
  have hle := h factory router opening contract least result n opened shaved hswap pool_opening
    hshaved
  exact absurd hle (by decide)

/-- One swap each way, of which some fees stay in the pool. -/
def trades : List Call :=
  [.swap contract ⟨.ofUInt32 300, assets.first⟩, .swap contract ⟨.ofUInt32 200, assets.second⟩]

theorem product_trades :
    (∃ side, assets.side? least.denom = some side ∧
        opened.product < shaved.product + (shaved.reserves.get side).val) ∧
      ∃ traded, (((Ledger.new factory router).run opening).run trades).pools[contract]? =
          some traded ∧ opened.product ≤ traded.product := by
  obtain ⟨hswap, hrun⟩ := Ledger.run_product factory router opening contract
  constructor
  · obtain ⟨result, n, hleast, hshaved⟩ := swap_least
    obtain ⟨side, hside, -, hlt⟩ := hswap least result n opened shaved hleast pool_opening hshaved
    exact ⟨side, hside, hlt⟩
  · have htraded : (((Ledger.new factory router).run opening).run trades).pools[contract]? =
        some { opened with reserves := ⟨.ofUInt32 1454, .ofUInt32 1034⟩ } := by decide +kernel
    have hfirst : (((Ledger.new factory router).run opening).run []).KeepsFee contract
        ⟨.ofUInt32 300, assets.first⟩ := by decide +kernel
    have hsecond : (((Ledger.new factory router).run opening).run
        [.swap contract ⟨.ofUInt32 300, assets.first⟩]).KeepsFee contract
          ⟨.ofUInt32 200, assets.second⟩ := by decide +kernel
    refine ⟨_, htraded, hrun trades opened _ (by decide) ?_ pool_opening htraded⟩
    intro before offer hbefore
    rcases before with _ | ⟨call, _ | ⟨next, rest⟩⟩
    · simp only [trades, List.nil_append, List.cons_prefix_cons, Call.swap.injEq] at hbefore
      obtain ⟨⟨-, rfl⟩, -⟩ := hbefore
      exact hfirst
    · simp only [trades, List.cons_append, List.nil_append, List.cons_prefix_cons,
        Call.swap.injEq] at hbefore
      obtain ⟨rfl, ⟨-, rfl⟩, -⟩ := hbefore
      exact hsecond
    · simp [trades] at hbefore

end Sample

end PoolMarket.Chain
