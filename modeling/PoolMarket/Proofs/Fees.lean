import Mathlib.Tactic.Ring
import PoolMarket.Fees
import PoolMarket.Proofs.Amount.Exact

/-!
# What fees take and what they leave

Fees are at most the whole, so no amount is too large to be charged, and what they take and what
they leave both grow with it. An amount that is converted at a rate may have its fees taken off
before that or after it. Whoever takes them off before, never comes to more.

* `ofParts_eq_ok`, `ofTotal_eq_ok` — which fees are made of which shares.
* `portion_eq_ok`, `charged_eq_ok`, `after_eq_ok` — what is taken and what is left, as quotients of
  natural numbers; `exists_portion` and `exists_charged` say that there always is such an amount.
* `net` — an amount with its fees taken off or not, so that both kinds of worth have one proof.
* `converted_add_taken_le` — fees before the conversion against fees after it.
-/

namespace PoolMarket.Fees

variable {f : Fees} {a b total maker : Amount}

/-! ## What is reported

Fees come to the market as two numbers of basis points, of which one may be the sum. Both
constructors are inverted here; the refusals that another module needs are stated beside them. -/

/-- Fees are made of just the two shares that they hold. That these are at most the whole is in the
type of `f` and need not be said. -/
theorem ofParts_eq_ok {maker pool : BasisPoints} :
    ofParts maker pool = .ok f ↔ f.maker = maker ∧ f.pool = pool := by
  unfold ofParts
  constructor
  · intro h
    split at h
    · cases h
    · split at h
      · cases h
        exact ⟨rfl, rfl⟩
      · cases h
  · rintro ⟨rfl, rfl⟩
    have hsmall : ¬ BasisPoints.size ≤ f.maker.val + f.pool.val :=
      Nat.not_le_of_lt (Nat.lt_of_le_of_lt f.total_le (by decide))
    rw [if_neg hsmall, dif_pos f.total_le]

/-- Fees of at most the whole are told by their sum and the maker's part of it (`ofParts_eq_ok` on
the difference). -/
theorem ofTotal_eq_ok {total maker : BasisPoints} :
    ofTotal total maker = .ok f ↔ f.maker = maker ∧ f.maker.val + f.pool.val = total.val := by
  unfold ofTotal
  split
  · next hover =>
    constructor
    · intro h
      cases h
    · rintro ⟨rfl, htotal⟩
      omega
  · next hmaker =>
    rw [ofParts_eq_ok]
    constructor
    · rintro ⟨rfl, hpool⟩
      have hpool : f.pool.val = total.val - f.maker.val := congrArg BasisPoints.val hpool
      exact ⟨rfl, by omega⟩
    · rintro ⟨rfl, htotal⟩
      refine ⟨rfl, BasisPoints.ext ?_⟩
      show f.pool.val = total.val - f.maker.val
      omega

theorem ofTotal_of_lt {total maker : BasisPoints} (h : total.val < maker.val) :
    ofTotal total maker = .error (.invalidFee .makerOverTotal) := if_pos h

/-- The parts of a total that is too high add up to it, so it is refused as too high and not as too
wide. By the guards of `Fees.ofTotal`, in their order. -/
theorem ofTotal_of_whole_lt {total maker : BasisPoints} (hmaker : maker.val ≤ total.val)
    (h : BasisPoints.whole < total.val) :
    ofTotal total maker = .error (.invalidFee .overHundredPercent) := by
  have hsum : maker.val + (total.val - maker.val) = total.val := Nat.add_sub_cancel' hmaker
  have hlt := total.lt
  unfold ofTotal ofParts
  simp only [hsum]
  rw [if_neg (Nat.not_lt_of_le hmaker), if_neg (Nat.not_le_of_lt hlt),
    dif_neg (Nat.not_le_of_lt h)]

/-! ## What is taken

A fee is the whole part of a share, so it never exceeds what it is taken from (`share_le`) and
grows with both factors (`share_mono`). All bounds on fees are instances of these two. -/

/-- A share of an amount is the quotient rounded down; it divides by the whole, which is not zero
(`Amount.mulDiv_eq_ok`). -/
theorem portion_eq_ok {b : BasisPoints} {c : Amount} :
    portion a b = .ok c ↔ c.val = a.val * b.val / BasisPoints.whole := by
  unfold portion
  rw [Amount.mulDiv_eq_ok]
  exact and_iff_right (by decide)

/-- What is charged are two shares of one amount, the maker's and all of it, each rounded down on
its own (`portion_eq_ok`). -/
theorem charged_eq_ok :
    f.charged a = .ok (total, maker) ↔
      total.val = a.val * f.total.val / BasisPoints.whole ∧
        maker.val = a.val * f.maker.val / BasisPoints.whole := by
  unfold charged
  simp only [Outcome.bind_eq_ok, portion_eq_ok]
  constructor
  · rintro ⟨t, ht, m, hm, heq⟩
    cases heq
    exact ⟨ht, hm⟩
  · rintro ⟨ht, hm⟩
    exact ⟨total, ht, maker, hm, rfl⟩

/-- A share of at most the whole is no more than what it is a share of. -/
theorem share_le {n bps : Nat} (h : bps ≤ BasisPoints.whole) : n * bps / BasisPoints.whole ≤ n :=
  Nat.div_le_of_le_mul (by
    rw [Nat.mul_comm BasisPoints.whole]
    exact Nat.mul_le_mul_left n h)

theorem share_mono {m n bps bps' : Nat} (hmn : m ≤ n) (hbps : bps ≤ bps') :
    m * bps / BasisPoints.whole ≤ n * bps' / BasisPoints.whole :=
  Nat.div_le_div_right (Nat.mul_le_mul hmn hbps)

theorem maker_le_total (f : Fees) : f.maker.val ≤ f.total.val := Nat.le_add_right ..

/-- No share of at most the whole is too large, as it is bounded by the amount itself
(`share_le`). -/
theorem exists_portion {b : BasisPoints} (h : b.val ≤ BasisPoints.whole) (a : Amount) :
    ∃ c, portion a b = .ok c :=
  ⟨⟨_, Nat.lt_of_le_of_lt (share_le h) a.lt⟩, portion_eq_ok.2 rfl⟩

/-- Charging an amount never fails: both shares are at most the whole (`exists_portion`). -/
theorem exists_charged (f : Fees) (a : Amount) : ∃ total maker, f.charged a = .ok (total, maker) := by
  have hwhole : f.total.val ≤ BasisPoints.whole := f.total_le
  obtain ⟨total, htotal⟩ := exists_portion hwhole a
  obtain ⟨maker, hmaker⟩ := exists_portion (Nat.le_trans f.maker_le_total hwhole) a
  exact ⟨total, maker, charged_eq_ok.2 ⟨portion_eq_ok.1 htotal, portion_eq_ok.1 hmaker⟩⟩

/-- What a fee of at most the whole leaves of an amount grows with the amount: one more unit adds at
most one to the fee (`share_le`). -/
theorem rest_mono {m n bps : Nat} (h : bps ≤ BasisPoints.whole) (hmn : m ≤ n) :
    m - m * bps / BasisPoints.whole ≤ n - n * bps / BasisPoints.whole := by
  have hpos : 0 < BasisPoints.whole := by decide
  -- the fee grows by no more than the amount does
  have hfee : n * bps / BasisPoints.whole ≤ m * bps / BasisPoints.whole + (n - m) := by
    calc n * bps / BasisPoints.whole
        = (m * bps + (n - m) * bps) / BasisPoints.whole := by
          rw [← Nat.add_mul, Nat.add_sub_cancel' hmn]
      _ ≤ (m * bps + (n - m) * BasisPoints.whole) / BasisPoints.whole :=
          Nat.div_le_div_right (Nat.add_le_add_left (Nat.mul_le_mul_left _ h) _)
      _ = m * bps / BasisPoints.whole + (n - m) := Nat.add_mul_div_right _ _ hpos
  have hm : m * bps / BasisPoints.whole ≤ m := share_le h
  omega

/-! ## What is left

The fees are taken off with one division by what they keep of the whole. That is rounded down as
well, so it can leave one unit less than the subtraction of the fee would. -/

/-- What is kept and what is charged make up the whole, which is how both are compared. -/
theorem kept_add_total (f : Fees) : f.kept.val + f.total.val = BasisPoints.whole :=
  Nat.sub_add_cancel f.total_le

/-- Taking the fees off gives the kept share of the amount (`after_eq_portion`, `portion_eq_ok`). -/
theorem after_eq_ok : f.after a = .ok b ↔ b.val = a.val * f.kept.val / BasisPoints.whole := by
  rw [after_eq_portion, portion_eq_ok]

/-- What an amount comes to, with the fees taken off it or not. Both kinds of worth that a pool
reckons are stated with it, and so are their bounds. -/
def net (f : Fees) (a : Amount) (feesIncluded : Bool) : Nat :=
  if feesIncluded then a.val * f.kept.val / BasisPoints.whole else a.val

/-- The step in which the fees are taken off or not, as it stands in the definitions that use it,
gives `net`. -/
theorem net_eq_ok {feesIncluded : Bool} :
    (if feesIncluded then f.after a else .ok a) = .ok b ↔ b.val = f.net a feesIncluded := by
  cases feesIncluded with
  | false =>
    show Except.ok a = .ok b ↔ b.val = a.val
    rw [Except.ok.injEq, Amount.ext_iff, eq_comm]
  | true => exact after_eq_ok

/-- Taking the fees off leaves no more than was there (`share_le`), and leaving them on changes
nothing. -/
theorem net_le (f : Fees) (a : Amount) (feesIncluded : Bool) : f.net a feesIncluded ≤ a.val := by
  cases feesIncluded with
  | false => exact Nat.le_refl _
  | true => exact share_le (Nat.sub_le ..)

/-- Less is left of a smaller amount, and where the fees are taken off it: `share_mono`, with the
kept share against the whole where only one side pays. -/
theorem net_mono (f : Fees) (hab : a ≤ b) {c c' : Bool} (hfees : c ≤ c') :
    f.net a c' ≤ f.net b c := by
  have hab : a.val ≤ b.val := hab
  cases c with
  | false => exact Nat.le_trans (f.net_le a c') hab
  | true =>
    rw [hfees rfl]
    exact share_mono hab (Nat.le_refl _)

/-- An amount is split into what is kept of it and what is taken. If the kept part is converted
alone, it comes to no more than what is left when the part to be taken is taken off the converted
amount: the conversion rounds off less than one unit, of which just a part was to be kept. It is
what an estimate and a pool differ by, so both are brought into this form before they are compared
(`kept_add_total`). -/
theorem converted_add_taken_le {x there here keep take whole : Nat} (hsplit : keep + take = whole) :
    x * keep / whole * there / here + x * there / here * take / whole ≤ x * there / here := by
  rcases Nat.eq_zero_or_pos here with rfl | hhere
  · simp
  rcases Nat.eq_zero_or_pos keep with rfl | hkeep
  · -- all is taken
    rw [Nat.zero_add] at hsplit
    subst hsplit
    simpa using Nat.div_le_of_le_mul (Nat.le_of_eq (Nat.mul_comm ..))
  -- the two quotients become numbers of their own: of them only the roundings below are used
  generalize hall : x * there / here = all
  generalize hpart : x * keep / whole * there / here = part
  have hrounded : x * there < here * (all + 1) := hall ▸ Nat.lt_mul_div_succ _ hhere
  have hkept : part * whole < keep * (all + 1) := by
    apply Nat.lt_of_mul_lt_mul_right (a := here)
    calc part * whole * here = part * here * whole := Nat.mul_right_comm ..
      _ ≤ x * keep / whole * there * whole :=
          Nat.mul_le_mul_right _ (hpart ▸ Nat.div_mul_le_self ..)
      _ = x * keep / whole * whole * there := Nat.mul_right_comm ..
      _ ≤ x * keep * there := Nat.mul_le_mul_right _ (Nat.div_mul_le_self ..)
      _ = keep * (x * there) := by ring
      _ < keep * (here * (all + 1)) := Nat.mul_lt_mul_of_pos_left hrounded hkeep
      _ = keep * (all + 1) * here := by ring
  -- neither part reaches one more than the whole, and the parts are shares of `whole`
  have htaken : all * take / whole * whole ≤ all * take := Nat.div_mul_le_self ..
  have hboth : (part + all * take / whole) * whole < (all + 1) * whole :=
    calc (part + all * take / whole) * whole
        = part * whole + all * take / whole * whole := Nat.add_mul ..
      _ < keep * (all + 1) + all * take := Nat.add_lt_add_of_lt_of_le hkept htaken
      _ ≤ keep * (all + 1) + all * take + take := Nat.le_add_right ..
      _ = (all + 1) * whole := by rw [← hsplit]; ring
  exact Nat.le_of_lt_succ (Nat.lt_of_mul_lt_mul_right hboth)

end PoolMarket.Fees
