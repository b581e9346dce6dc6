import Mathlib.Order.Bounds.Basic
import Mathlib.Tactic.Ring
import PoolMarket.Proofs.Amount.Exact
import PoolMarket.Proofs.Quote.OneRoute

/-!
# When a quote carries a warning

A quote says by how many basis points of its worth the amount falls short of it, rounded up. There
is such a number for any two amounts, and it is at most the whole. Being rounded, it passes the
threshold just where the exact shortfall does.

* `covering` — the numbers of basis points that cover what is missing; the shortfall is the least.
* `lt_least_iff` — a threshold below the least, as an inequality between exact numbers.
* `Measured` — of one quote and, on a `Desk`, of all that were returned; `Measured.step` keeps it.
-/

namespace PoolMarket

namespace Quote

variable {actual naive : Amount} {pending : Pending} {warning : BasisPoints} {reply : Outcome Json}

/-! ## The shortfall -/

/-- The numbers of basis points of the worth that cover what is missing of it. -/
def covering (actual naive : Amount) : Set Nat :=
  {b | (naive.val - actual.val) * BasisPoints.whole ≤ b * naive.val}

/-- The whole covers anything that can be missing, as no more is missing than there is. -/
theorem whole_mem_covering (actual naive : Amount) : BasisPoints.whole ∈ covering actual naive := by
  show (naive.val - actual.val) * BasisPoints.whole ≤ BasisPoints.whole * naive.val
  rw [Nat.mul_comm BasisPoints.whole]
  exact Nat.mul_le_mul_right _ (Nat.sub_le ..)

/-- Every two amounts have a shortfall, the least number that covers what is missing. A quotient
rounded up is the least number with a large enough product (`Amount.divide_up_le_iff`), and it is at
most the whole (`whole_mem_covering`), so neither the word nor the range of basis points is left. -/
theorem exists_shortfall (actual naive : Amount) :
    ∃ b, shortfall actual naive = .ok b ∧ IsLeast (covering actual naive) b.val := by
  unfold shortfall
  by_cases hnone : (naive.isZero || naive.val ≤ actual.val) = true
  · rw [if_pos hnone]
    refine ⟨.zero, rfl, ?_, fun b _ => Nat.zero_le b⟩
    -- nothing is missing
    have hle : naive.val ≤ actual.val := by
      simp only [Bool.or_eq_true, Amount.isZero_iff, decide_eq_true_eq] at hnone
      omega
    show (naive.val - actual.val) * BasisPoints.whole ≤ 0 * naive.val
    rw [Nat.sub_eq_zero_of_le hle, Nat.zero_mul, Nat.zero_mul]
  · rw [if_neg hnone]
    simp only [Bool.or_eq_true, Amount.isZero_iff, decide_eq_true_eq, not_or, not_le] at hnone
    have hpos : 0 < naive.val := Nat.pos_of_ne_zero hnone.1
    have hmissing : naive.minus actual = .ok (naive.monus actual) :=
      Amount.minus_eq_ok.2 ⟨Nat.le_of_lt hnone.2, rfl⟩
    -- the quotient rounded up is at most the whole, so it is neither too large an amount nor too
    -- large a number of basis points
    have hleast (b : Nat) : Rounding.up.divide
        ((naive.monus actual).val * BasisPoints.wholeAmount.val) naive.val ≤ b ↔
          b ∈ covering actual naive := Amount.divide_up_le_iff hpos
    have hle := (hleast _).2 (whole_mem_covering actual naive)
    generalize hshare : Rounding.up.divide
      ((naive.monus actual).val * BasisPoints.wholeAmount.val) naive.val = share at hleast hle
    have hamount : share < Amount.size := Nat.lt_of_le_of_lt hle (by decide)
    have hpoints : share < BasisPoints.size := Nat.lt_of_le_of_lt hle (by decide)
    have hratio : (naive.monus actual).mulDiv BasisPoints.wholeAmount naive .up =
        .ok ⟨share, hamount⟩ := Amount.mulDiv_eq_ok.2 ⟨Nat.ne_of_gt hpos, hshare.symm⟩
    have hfits : BasisPoints.ofNat? share = some ⟨share, hpoints⟩ := dif_pos hpoints
    refine ⟨⟨share, hpoints⟩, ?_, (hleast share).1 (Nat.le_refl _), fun b hb => (hleast b).2 hb⟩
    simp only [hmissing, hratio, bind, Except.bind, hfits]

/-- Fewer basis points than the shortfall do not cover what is missing. In exact numbers, the amount
is then below what they leave of the worth (`IsLeast`, in both directions). -/
theorem lt_least_iff {b w : Nat} (hb : IsLeast (covering actual naive) b) :
    w < b ↔ (actual.val : Int) * BasisPoints.whole <
      naive.val * ((BasisPoints.whole : Int) - w) := by
  have hcover : b ≤ w ↔ (naive.val - actual.val) * BasisPoints.whole ≤ w * naive.val := by
    constructor
    · intro hle
      exact Nat.le_trans hb.1 (Nat.mul_le_mul_right _ hle)
    · exact fun hw => hb.2 hw
  have hexact : w * naive.val < (naive.val - actual.val) * BasisPoints.whole ↔
      actual.val * BasisPoints.whole + naive.val * w < naive.val * BasisPoints.whole := by
    rw [Nat.sub_mul, Nat.mul_comm w]
    omega
  rw [← not_le, hcover, not_le, hexact, mul_sub, lt_sub_iff_add_lt]
  norm_cast

/-! ## Quotes -/

/-- A quote is measured against a threshold: its slippage is the least number of basis points that
covers what it falls short by, and it warns just where that is more than the threshold allows. -/
structure Measured (q : Quote) (warning : BasisPoints) : Prop where
  least : IsLeast (covering q.amount q.naive) q.slippage.val
  le_whole : q.slippage.val ≤ BasisPoints.whole
  warns_iff : q.warn = true ↔ (q.amount.val : Int) * BasisPoints.whole <
    q.naive.val * ((BasisPoints.whole : Int) - warning.val)

/-- A reply that can be read brings a quote, whatever it says and whatever the worth is, since the
shortfall never fails (`exists_shortfall`). -/
theorem Pending.finish_of_conclude (warning : BasisPoints) {result : RoutedResult}
    (h : pending.inquiry.conclude reply = .ok result) :
    ∃ q, pending.finish warning reply = .ok q ∧ q.amount = result.amount ∧
      q.naive = pending.naive ∧ q.Measured warning := by
  obtain ⟨b, hshortfall, hleast⟩ := exists_shortfall result.amount pending.naive
  refine ⟨⟨pending.route, result.amount, pending.naive, b, warning.val < b.val⟩, ?_, rfl, rfl,
    hleast, hleast.2 (whole_mem_covering ..), ?_⟩
  · unfold Pending.finish
    simp only [h, hshortfall, bind, Except.bind]
    rfl
  · rw [decide_eq_true_iff]
    exact lt_least_iff hleast

/-- A quote that was brought by a reply is measured (`finish_of_conclude`). -/
theorem Pending.measured_of_finish {q : Quote} (h : pending.finish warning reply = .ok q) :
    q.Measured warning := by
  obtain ⟨-, -, result, hresult, -⟩ := Pending.finish_eq_ok h
  obtain ⟨q', hfinish, -, -, hmeasured⟩ := finish_of_conclude warning hresult
  rw [h, Except.ok.injEq] at hfinish
  exact hfinish ▸ hmeasured

end Quote

namespace Desk

variable {s : Desk}

/-- A market at work under some settings, before the first quote. -/
def opened (settings : Settings) (world : World) : Desk :=
  { world, warning := settings.slippageWarning, refreshes := [], quotes := [] }

/-- All quotes that have been returned are measured against the threshold. -/
def Measured (s : Desk) : Prop :=
  ∀ call ∈ s.quotes, ∀ q, call.stage = .returned (.ok (some q)) → q.Measured s.warning

/-- A quote is measured when the reply of the router comes (`Pending.measured_of_finish`), and stays
so. A quote that begins has no price yet (`quote_cases`). -/
theorem Measured.step (h : s.Measured) (e : Event) : (s.step e).Measured := by
  unfold Measured
  rw [warning_step]
  cases e with
  | quote offer ask =>
    -- the call that comes has not returned a quote
    have hnext (call : QuoteCall) (hnone : ∀ q, call.stage ≠ .returned (.ok (some q))) :
        ∀ c ∈ s.quotes ++ [call], ∀ q, c.stage = .returned (.ok (some q)) →
          q.Measured s.warning := by
      intro c hc q hq
      rcases List.mem_append.1 hc with hold | hnew
      · exact h c hold q hq
      · obtain rfl := List.mem_singleton.1 hnew
        exact absurd hq (hnone q)
    show ∀ call ∈ (s.quote offer ask).quotes, _
    rcases s.quote_cases offer ask with ⟨pending, w, -, hquote⟩ | ⟨w, asked, quoted, hnone, hquote⟩
    · rw [hquote]
      exact hnext _ fun q hq => by cases hq
    · rw [hquote]
      exact hnext _ fun q hq => hnone q (QuoteCall.Stage.returned.inj hq)
  | answer i =>
    show ∀ call ∈ (s.answer i).quotes, _
    unfold answer
    split
    · next asked pending _ =>
      intro call hcall q hq
      rcases List.mem_or_eq_of_mem_set hcall with hold | rfl
      · exact h call hold q hq
      · rw [QuoteCall.Stage.returned.injEq] at hq
        obtain ⟨q', hfinish, hsome⟩ := World.finishQuote_eq_ok hq
        cases hsome
        exact Quote.Pending.measured_of_finish hfinish
    · exact h
  | refresh happening => exact h
  | node node => exact h

/-- All that are returned in a run are measured. By induction on the events, with
`Measured.step`. -/
theorem Measured.run (h : s.Measured) (events : List Event) : (s.run events).Measured := by
  induction events generalizing s with
  | nil => exact h
  | cons e rest ih => exact ih (h.step e)

/-- A run keeps the threshold, as its steps do (`warning_step`). -/
theorem warning_run (s : Desk) (events : List Event) : (s.run events).warning = s.warning := by
  induction events generalizing s with
  | nil => rfl
  | cons e rest ih => exact (ih (s.step e)).trans (warning_step s e)

/-- Under any settings and whatever happens to the market, the chain and the replies, every quote
that is returned is measured against the threshold. To measure one never fails: any two amounts have
a shortfall, and whatever reply can be read brings a quote. These are `Measured.run`,
`exists_shortfall` and `finish_of_conclude`. -/
theorem run_measured (settings : Settings) (world : World) (events : List Event) :
    (∀ (i : Nat) (q : Quote),
        ((opened settings world).run events).returned? i = some (.ok (some q)) →
        q.Measured settings.slippageWarning) ∧
      (∀ actual naive, ∃ b, Quote.shortfall actual naive = .ok b) ∧
      ∀ (pending : Quote.Pending) (reply : Outcome Json) (result : RoutedResult),
        pending.inquiry.conclude reply = .ok result →
        ∃ q, pending.finish settings.slippageWarning reply = .ok q ∧ q.amount = result.amount ∧
          q.naive = pending.naive ∧ q.Measured settings.slippageWarning := by
  refine ⟨fun i q hreturned => ?_, fun actual naive => ?_,
    fun pending reply result h => Quote.Pending.finish_of_conclude _ h⟩
  · obtain ⟨asked, hcall⟩ := exists_of_returned? hreturned
    have hmeasured : ((opened settings world).run events).Measured :=
      Measured.run (fun call hcall => by cases hcall) events
    have hq := hmeasured _ (List.mem_of_getElem? hcall) q rfl
    rwa [warning_run] at hq
  · obtain ⟨b, hb, -⟩ := Quote.exists_shortfall actual naive
    exact ⟨b, hb⟩

/-! ### A quote that is above the threshold by a part of a basis point -/

namespace Sample

/-- The price of the sample falls short by a little more than 711 basis points. -/
def tight : Settings :=
  { Deployment.settings with slippageWarning := .ofUInt16 711 }

/-- A reply that leaves nothing of the offer. -/
def nothing : RoutedResult := ⟨usdc, .zero, .zero⟩

theorem run_measured_tight :
    tight.check = .ok () ∧
      ((opened tight desk.world).run [.quote offer usdc, .answer 0]).returned? 0 =
        some (.ok (some price)) ∧
      price.Measured (.ofUInt16 711) ∧ price.warn = true ∧
      pending.inquiry.conclude (.ok nothing.toJson) = .ok nothing ∧
      ∃ q, pending.finish (.ofUInt16 711) (.ok nothing.toJson) = .ok q ∧ q.amount = .zero ∧
        q.naive = pending.naive ∧ q.Measured (.ofUInt16 711) := by
  have hquote : (opened tight desk.world).quote offer usdc =
      { opened tight desk.world with world := waiting.world, quotes := waiting.quotes } := by
    unfold quote
    rw [show (opened tight desk.world).world.beginQuote offer usdc = _ from beginQuote_sample]
    rfl
  have hreturned : ((opened tight desk.world).run [.quote offer usdc, .answer 0]).returned? 0 =
      some (.ok (some price)) := by
    show (((opened tight desk.world).quote offer usdc).run [.answer 0]).returned? 0 = _
    rw [hquote]
    decide +kernel
  have hread : pending.inquiry.conclude (.ok nothing.toJson) = .ok nothing := by decide +kernel
  obtain ⟨hmeasured, -, hfinish⟩ := run_measured tight desk.world [.quote offer usdc, .answer 0]
  exact ⟨by decide, hreturned, hmeasured 0 price hreturned, rfl, hread,
    hfinish pending _ nothing hread⟩

end Sample

end Desk

end PoolMarket
