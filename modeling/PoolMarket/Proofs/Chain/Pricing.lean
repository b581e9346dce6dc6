import PoolMarket.Proofs.Chain.Transactions
import PoolMarket.Proofs.Fees

/-!
# What a swap pays

A swap that succeeds is read off as numbers: what it draws from the reserve on the other side, and
how that is split into fees and payment. Once the price is found, nothing in the transaction behind
it can fail.

* `naive`, `remaining`, `drawn` — the three quotients of a swap, as natural numbers.
* `Accepts`, `Pays` — when an offer has a price, and what the price is; `quoteSwap_eq_ok` is the two
  together.
* `swap_eq_ok`, `swap_reserves` — the transaction behind the price: it succeeds, and these are the
  reserves it leaves.
-/

namespace PoolMarket.Chain.Pool

variable {p q : Pool} {side : Side} {offer : Coin} {result : SwapResult}

/-- The side of an asset is the one on which it stands (`DenomPair.side?`). -/
theorem side_eq_ok {d : Denom} : p.side d = .ok side ↔ p.assets.side? d = some side := by
  unfold Pool.side
  cases p.assets.side? d with
  | none => simp
  | some s => simp

theorem reserves_pos (side : Side) :
    0 < p.reserves.first.val ∧ 0 < p.reserves.second.val ↔
      0 < (p.reserves.get side).val ∧ 0 < (p.reserves.get side.opposite).val := by
  cases side with
  | first => rfl
  | second => exact and_comm

/-! ## The price

All but the fees is determined by the two reserves and the offer. The definitions here are the
terms of `quoteSwap` without the checks for size, which are gathered in `Accepts`; what is drawn is
bounded by the reserve, so no more has to be asked. -/

/-- What an offer on a side is worth in the other asset at the rate before the swap. -/
def naive (p : Pool) (side : Side) (offered : Amount) : Nat :=
  offered.val * (p.reserves.get side.opposite).val / (p.reserves.get side).val

/-- What a swap leaves of the other reserve before the fees are split: as much as keeps the product
of the reserves, rounded down. -/
def remaining (p : Pool) (side : Side) (offered : Amount) : Nat :=
  (p.reserves.get side).val * (p.reserves.get side.opposite).val /
    ((p.reserves.get side).val + offered.val)

/-- What a swap draws from the other reserve, the fees included. -/
def drawn (p : Pool) (side : Side) (offered : Amount) : Nat :=
  (p.reserves.get side.opposite).val - p.remaining side offered

theorem remaining_le (p : Pool) (side : Side) (offered : Amount) :
    p.remaining side offered ≤ (p.reserves.get side.opposite).val :=
  Nat.div_le_of_le_mul (Nat.mul_le_mul_right _ (Nat.le_add_right ..))

theorem drawn_lt (p : Pool) (side : Side) (offered : Amount) : p.drawn side offered < Amount.size :=
  Nat.lt_of_le_of_lt (Nat.sub_le ..) (p.reserves.get side.opposite).lt

/-- An offer on a side is worth something to the pool, and both it and its worth can be counted. -/
structure Accepts (p : Pool) (side : Side) (offered : Amount) : Prop where
  poolIn : 0 < (p.reserves.get side).val
  poolOut : 0 < (p.reserves.get side.opposite).val
  naive : p.naive side offered < Amount.size
  after : (p.reserves.get side).val + offered.val < Amount.size

/-- A result as it follows from what is drawn. -/
structure Pays (p : Pool) (side : Side) (offered : Amount) (result : SwapResult) : Prop where
  totalFee : result.totalFee.val = p.drawn side offered * p.fees.total.val / BasisPoints.whole
  makerFee : result.makerFee.val = p.drawn side offered * p.fees.maker.val / BasisPoints.whole
  paid : result.paid.val = p.drawn side offered - result.totalFee.val
  spread : result.spread.val = p.naive side offered - p.drawn side offered

/-- When a swap has a price, and which. The checks of the code are `Accepts`; that neither the
subtractions nor the fees fail follows from `remaining_le` and `Fees.share_le`. -/
theorem quoteSwap_eq_ok :
    p.quoteSwap offer = .ok result ↔
      ∃ side, p.assets.side? offer.denom = some side ∧ p.Accepts side offer.amount ∧
        p.Pays side offer.amount result := by
  unfold quoteSwap
  simp only [Outcome.bind_eq_ok, side_eq_ok, checkReserves_eq_ok, Amount.mulDiv_eq_ok,
    Amount.plus_eq_ok, Amount.minus_eq_ok]
  constructor
  · -- what the quote computed, step by step, is what the pool draws, charges and pays
    rintro ⟨side, hside, _, hreserves, naive, ⟨-, hnaive⟩, after, hafter, remaining,
      ⟨-, hremaining⟩, actual, ⟨-, hactual⟩, ⟨totalFee, makerFee⟩, hcharged, paid, ⟨-, hpaid⟩, hresult⟩
    cases hresult
    obtain ⟨htotal, hmaker⟩ := Fees.charged_eq_ok.1 hcharged
    obtain ⟨hin, hout⟩ := (reserves_pos side).1 hreserves
    have hdrawn : actual.val = p.drawn side offer.amount := by
      rw [hactual, hremaining, hafter]
      rfl
    have hworth : naive.val = p.naive side offer.amount := hnaive
    rw [hdrawn] at htotal hmaker hpaid
    refine ⟨side, hside, ⟨hin, hout, hworth ▸ naive.lt, hafter ▸ after.lt⟩,
      ⟨htotal, hmaker, hpaid, ?_⟩⟩
    rw [← hdrawn, ← hworth]
    rfl
  · rintro ⟨side, hside, ⟨hin, hout, hnaive, hafter⟩, ⟨htotal, hmaker, hpaid, hspread⟩⟩
    -- no step can fail: the pool keeps less than its reserve, and the fee is less than what was
    -- drawn
    have hremaining := p.remaining_le side offer.amount
    have hwhole : p.fees.total.val ≤ BasisPoints.whole := p.fees.total_le
    have hfee : result.totalFee.val ≤ p.drawn side offer.amount :=
      htotal ▸ Fees.share_le hwhole
    refine ⟨side, hside, ⟨⟩, (reserves_pos side).2 ⟨hin, hout⟩, ⟨_, hnaive⟩, ⟨by omega, rfl⟩,
      ⟨_, hafter⟩, rfl, ⟨_, Nat.lt_of_le_of_lt hremaining (p.reserves.get side.opposite).lt⟩,
      ⟨by simp; omega, rfl⟩, ⟨_, p.drawn_lt side offer.amount⟩, ⟨hremaining, rfl⟩,
      (result.totalFee, result.makerFee), Fees.charged_eq_ok.2 ⟨htotal, hmaker⟩, result.paid,
      ⟨hfee, hpaid⟩, ?_⟩
    have hsame : Amount.monus ⟨_, hnaive⟩ ⟨_, p.drawn_lt side offer.amount⟩ = result.spread :=
      Amount.ext hspread.symm
    simp only [hsame]
    rfl

/-- What is drawn is the exact worth of the offer after the swap, rounded up: with the remainder of
the division it comes to the product of the offer and the other reserve. Every bound on what a swap
pays or keeps is read off this equation. -/
theorem drawn_mul (p : Pool) (side : Side) (offered : Amount) :
    p.drawn side offered * ((p.reserves.get side).val + offered.val) =
      offered.val * (p.reserves.get side.opposite).val +
        (p.reserves.get side).val * (p.reserves.get side.opposite).val %
          ((p.reserves.get side).val + offered.val) := by
  unfold drawn remaining
  generalize (p.reserves.get side).val = poolIn
  generalize (p.reserves.get side.opposite).val = poolOut
  have hdivided := Nat.div_add_mod (poolIn * poolOut) (poolIn + offered.val)
  have hall : poolOut * (poolIn + offered.val) = poolIn * poolOut + offered.val * poolOut := by
    rw [Nat.mul_comm, Nat.add_mul]
  rw [Nat.sub_mul, hall, Nat.mul_comm (poolIn * poolOut / (poolIn + offered.val))]
  omega

/-- Every offer that is accepted has a price: the amounts are there because they are bounded by what
is drawn (`drawn_lt`, `Fees.exists_charged`). -/
theorem Accepts.exists_quoteSwap (h : p.Accepts side offer.amount)
    (hside : p.assets.side? offer.denom = some side) :
    ∃ result, p.quoteSwap offer = .ok result ∧ p.Pays side offer.amount result := by
  let drawn : Amount := ⟨_, p.drawn_lt side offer.amount⟩
  obtain ⟨totalFee, makerFee, hcharged⟩ := p.fees.exists_charged drawn
  have hfees := Fees.charged_eq_ok.1 hcharged
  let result : SwapResult :=
    { paid := drawn.monus totalFee
      spread := Amount.monus ⟨_, h.naive⟩ drawn
      totalFee, makerFee }
  have hpays : p.Pays side offer.amount result := ⟨hfees.1, hfees.2, rfl, rfl⟩
  exact ⟨result, quoteSwap_eq_ok.2 ⟨side, hside, h, hpays⟩, hpays⟩

/-- A result at the rate before a swap, as it follows from what the offer is worth there. -/
structure PaysNaive (p : Pool) (side : Side) (offered : Amount) (result : NaiveResult) : Prop where
  totalFee : result.totalFee.val = p.naive side offered * p.fees.total.val / BasisPoints.whole
  makerFee : result.makerFee.val = p.naive side offered * p.fees.maker.val / BasisPoints.whole
  paid : result.paid.val = p.naive side offered - result.totalFee.val

/-- The rate needs something on both sides, and a worth that can be counted. Unlike a swap it does
not ask for room in the reserve that would take the offer. By the steps of `Pool.quoteNaive`
(`Outcome.bind_eq_ok`). -/
theorem quoteNaive_eq_ok {result : NaiveResult} :
    p.quoteNaive offer = .ok result ↔
      ∃ side, p.assets.side? offer.denom = some side ∧ 0 < (p.reserves.get side).val ∧
        0 < (p.reserves.get side.opposite).val ∧ p.naive side offer.amount < Amount.size ∧
        p.PaysNaive side offer.amount result := by
  unfold quoteNaive
  simp only [Outcome.bind_eq_ok, side_eq_ok, checkReserves_eq_ok, Amount.mulDiv_eq_ok,
    Amount.minus_eq_ok]
  constructor
  · rintro ⟨side, hside, _, hreserves, naive, ⟨-, hnaive⟩, ⟨totalFee, makerFee⟩, hcharged, paid,
      ⟨-, hpaid⟩, hresult⟩
    cases hresult
    obtain ⟨htotal, hmaker⟩ := Fees.charged_eq_ok.1 hcharged
    obtain ⟨hin, hout⟩ := (reserves_pos side).1 hreserves
    have hworth : naive.val = p.naive side offer.amount := hnaive
    rw [hworth] at htotal hmaker hpaid
    exact ⟨side, hside, hin, hout, hworth ▸ naive.lt, htotal, hmaker, hpaid⟩
  · rintro ⟨side, hside, hin, hout, hnaive, htotal, hmaker, hpaid⟩
    -- the fee is a share of the naive worth, so it can be taken from it
    have hfee : result.totalFee.val ≤ p.naive side offer.amount := by
      rw [htotal]
      exact Fees.share_le p.fees.total_le
    exact ⟨side, hside, ⟨⟩, (reserves_pos side).2 ⟨hin, hout⟩, ⟨_, hnaive⟩,
      ⟨Nat.ne_of_gt hin, rfl⟩, (result.totalFee, result.makerFee),
      Fees.charged_eq_ok.2 ⟨htotal, hmaker⟩, result.paid, ⟨hfee, hpaid⟩, rfl⟩

/-- Where a swap has a price, so it has at the rate before it, as its checks are among those of the
swap. By the equations for the two, `quoteSwap_eq_ok` and `quoteNaive_eq_ok`. -/
theorem exists_quoteNaive (h : p.quoteSwap offer = .ok result) :
    ∃ atRate, p.quoteNaive offer = .ok atRate := by
  obtain ⟨side, hside, haccepts, -⟩ := quoteSwap_eq_ok.1 h
  obtain ⟨totalFee, makerFee, hcharged⟩ := p.fees.exists_charged ⟨_, haccepts.naive⟩
  have hfees := Fees.charged_eq_ok.1 hcharged
  exact ⟨⟨Amount.monus ⟨_, haccepts.naive⟩ totalFee, totalFee, makerFee⟩,
    quoteNaive_eq_ok.2 ⟨side, hside, haccepts.poolIn, haccepts.poolOut, haccepts.naive, hfees.1,
      hfees.2, rfl⟩⟩

/-! ## The swap behind a price

The transaction computes the price and then moves the reserves, with three more operations that
could fail. They do not: what leaves the pool is less than what was drawn, and that was part of the
reserve. -/

/-- The maker's fee is part of the total, being a share by no more basis points
(`Fees.maker_le_total`). -/
theorem Pays.makerFee_le (h : p.Pays side offer.amount result) :
    result.makerFee.val ≤ result.totalFee.val := by
  rw [h.makerFee, h.totalFee]
  exact Nat.div_le_div_right (Nat.mul_le_mul_left _ p.fees.maker_le_total)

/-- The fees are no more than what is drawn (`Fees.share_le`). -/
theorem Pays.totalFee_le (h : p.Pays side offer.amount result) :
    result.totalFee.val ≤ p.drawn side offer.amount := by
  rw [h.totalFee]
  exact Fees.share_le p.fees.total_le

/-- What leaves the pool is less than what is drawn by what it keeps of the fees. Stated as a sum,
so that `omega` can solve it for any of the four. -/
theorem Pays.out (h : p.Pays side offer.amount result) :
    result.paid.val + result.makerFee.val + (result.totalFee.val - result.makerFee.val) =
      p.drawn side offer.amount := by
  have hmaker := h.makerFee_le
  have htotal := h.totalFee_le
  have hpaid := h.paid
  omega

/-- A price that is quoted is one at which the swap succeeds, and no swap succeeds at another
(`swap_ok`, and back through the steps of `Pool.swap`). -/
theorem swap_eq_ok :
    (∃ q, (swap offer).on p = (.ok result, q)) ↔ p.quoteSwap offer = .ok result := by
  constructor
  · rintro ⟨q, h⟩
    exact (swap_ok h).1
  · intro hquote
    obtain ⟨side, hside, haccepts, hpays⟩ := quoteSwap_eq_ok.1 hquote
    have hout := hpays.out
    have hdrawn : p.drawn side offer.amount ≤ (p.reserves.get side.opposite).val := Nat.sub_le ..
    -- what leaves the pool is what was drawn at most, and that is part of the reserve
    have hfits : result.paid.val + result.makerFee.val < Amount.size := by
      have hlt := (p.reserves.get side.opposite).lt
      omega
    unfold swap
    simp only [Transaction.on_bind_eq_ok, Transaction.on_get_eq_ok, Transaction.on_lift_eq_ok,
      Transaction.on_set_eq_ok, Transaction.on_modify_eq_ok, Transaction.on_pure_eq_ok,
      side_eq_ok, Amount.plus_eq_ok, Amount.minus_eq_ok]
    refine ⟨_, p, p, ⟨rfl, rfl⟩, result, p, ⟨hquote, rfl⟩, side, p, ⟨hside, rfl⟩, ⟨_, hfits⟩, p,
      ⟨rfl, rfl⟩, ⟨_, haccepts.after⟩, p, ⟨rfl, rfl⟩, ⟨⟩, _, rfl,
      (p.reserves.get side.opposite).monus ⟨_, hfits⟩, _, ⟨⟨?_, rfl⟩, rfl⟩, ⟨⟩, _, rfl, rfl, rfl⟩
    show result.paid.val + result.makerFee.val ≤ _
    omega

/-- A swap moves the two reserves of its pool and changes nothing else of it (`swap_ok`). -/
theorem swap_moves (h : (swap offer).on p = (.ok result, q))
    (hside : p.assets.side? offer.denom = some side) :
    (q.reserves.get side).val = (p.reserves.get side).val + offer.amount.val ∧
      (q.reserves.get side.opposite).val + (result.paid.val + result.makerFee.val) =
        (p.reserves.get side.opposite).val ∧
      q = { p with reserves := q.reserves } := by
  obtain ⟨-, side', hside', hin, hle, hout, hshares, hassets, hfees⟩ := swap_ok h
  have hsame : side' = side := by
    rw [side_eq_ok, hside, Option.some.injEq] at hside'
    exact hside'.symm
  rw [hsame] at hin hle hout
  refine ⟨hin, by omega, ?_⟩
  rw [← hshares, ← hassets, ← hfees]

/-- A swap leaves the offer on its side, and on the other what the price leaves and the fees of the
pool (`Pays.out`). -/
theorem swap_reserves (h : (swap offer).on p = (.ok result, q)) :
    ∃ side, p.assets.side? offer.denom = some side ∧ p.Accepts side offer.amount ∧
      p.Pays side offer.amount result ∧
      (q.reserves.get side).val = (p.reserves.get side).val + offer.amount.val ∧
      (q.reserves.get side.opposite).val =
        p.remaining side offer.amount + (result.totalFee.val - result.makerFee.val) := by
  obtain ⟨side, hside, haccepts, hpays⟩ := quoteSwap_eq_ok.1 (swap_ok h).1
  obtain ⟨hin, hout, -⟩ := swap_moves h hside
  refine ⟨side, hside, haccepts, hpays, hin, ?_⟩
  have hleaves := hpays.out
  have hremaining := p.remaining_le side offer.amount
  have hdrawn : p.drawn side offer.amount =
    (p.reserves.get side.opposite).val - p.remaining side offer.amount := rfl
  omega

end PoolMarket.Chain.Pool
