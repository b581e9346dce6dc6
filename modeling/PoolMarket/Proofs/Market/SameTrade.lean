import PoolMarket.Proofs.Market.Swaps
import PoolMarket.Proofs.Pool.DepositCalls

/-!
# The trade in the call of a swap

A swap is called for at the contract of a pair, or at the router for one that goes through several.
What is offered may be a native coin or a token, and the calls look different; what can be made out
of them is one trade: the offer, for that contract, with the message that the arguments give.

`Instruction.Hands` is what can be made out of a call. That it is one thing only is `Hands.unique`,
and that every call made by `handOver` has it is `handsOnly_of_handOver`.
-/

namespace PoolMarket

open Json (Form Reads)

namespace Instruction

variable {α : Type} {i : Instruction} {contract other : Addr} {offer given : Coin}
  {read : Form → Json → Option α} {a b : α}

/-- An instruction hands over one offer, to one contract, with one message. A coin that is sent
along and a token that is sent by its contract are told apart by what the instruction holds. By the
cases of `Hands`, on both sides. -/
theorem Hands.unique (h : i.Hands contract offer read a) (h' : i.Hands other given read b) :
    contract = other ∧ offer = given ∧ a = b := by
  -- an offer is attached or sent, and what is attached tells the two apart
  cases h with
  | attached hnative hcontract hmsg hfunds =>
    cases h' with
    | attached hnative' hcontract' hmsg' hfunds' =>
      rw [hfunds, List.cons.injEq] at hfunds'
      rw [hmsg, Option.some.injEq] at hmsg'
      exact ⟨hcontract.symm.trans hcontract', hfunds'.1, hmsg'⟩
    | sent _ _ _ _ _ _ hfunds' =>
      rw [hfunds] at hfunds'
      cases hfunds'
  | sent token payload hdenom hcontract hmsg hpayload hfunds =>
    cases h' with
    | attached _ _ _ hfunds' =>
      rw [hfunds] at hfunds'
      cases hfunds'
    | sent token' payload' hdenom' hcontract' hmsg' hpayload' _ =>
      rw [hmsg, Option.some.injEq, TokenCall.send.injEq] at hmsg'
      obtain ⟨rfl, hamount, rfl⟩ := hmsg'
      rw [hpayload, Option.some.injEq] at hpayload'
      refine ⟨rfl, ?_, hpayload'⟩
      obtain ⟨amount, denom⟩ := offer
      obtain ⟨amount', denom'⟩ := given
      subst hamount hdenom hdenom'
      rw [← hcontract, ← hcontract']

/-- What can be made out of an instruction is that the offer is handed to the contract and that it is
told `a`, and nothing else. -/
def HandsOnly (i : Instruction) (contract : Addr) (offer : Coin) (read : Form → Json → Option α)
    (a : α) : Prop :=
  ∀ other given b, i.Hands other given read b ↔ other = contract ∧ given = offer ∧ b = a

/-- What is handed over is all that can be made out of the instruction (`Hands.unique`). -/
theorem Hands.handsOnly (h : i.Hands contract offer read a) :
    i.HandsOnly contract offer read a := by
  intro other given b
  constructor
  · intro h'
    exact h'.unique h
  · rintro ⟨rfl, rfl, rfl⟩
    exact h

/-- Whatever is handed over, of whichever kind: the message reads as it was written
(`exists_handOver`), and nothing else can be made out of it. -/
theorem handsOnly_of_handOver {msg : Json} (hexact : msg.exact = true)
    (hreads : ∀ form, Reads form (read form) msg a) (hsome : offer.amount.isZero = false)
    (h : handOver contract msg offer = .ok i) : i.HandsOnly contract offer read a := by
  obtain ⟨j, hj, hhands⟩ := exists_handOver contract hexact hreads hsome
  rw [hj, Except.ok.injEq] at h
  exact h ▸ hhands.handsOnly

end Instruction

variable {offer : Coin} {ask : Denom} {receiver : Option Addr} {tolerance : Option BasisPoints}

theorem Pair.isZero_of_checkOffer {p : Pair} (h : p.checkOffer offer = .ok ()) :
    offer.amount.isZero = false := by
  rw [checkOffer, Outcome.guard_eq_ok, Outcome.guard_eq_ok, Bool.not_eq_true offer.amount.isZero] at h
  exact h.2.1

/-- The call of a swap at a pair, as `Pair.swapCall` makes it: behind its checks it is a `handOver`
of a message that reads as the swap (`reads_pairCall`). -/
theorem Pair.handsOnly_of_swapCall {p : Pair} {expected : Option Amount} {i : Instruction}
    (h : p.swapCall offer tolerance expected receiver = .ok i) :
    i.HandsOnly p.contract offer PairCall.ofJson? (.swap expected tolerance receiver none) := by
  unfold swapCall at h
  obtain ⟨_, hoffer, h⟩ := Outcome.bind_eq_ok.1 h
  obtain ⟨_, -, h⟩ := Outcome.bind_eq_ok.1 h
  exact Instruction.handsOnly_of_handOver (exact_pairCall _) (fun _ => reads_pairCall _)
    (isZero_of_checkOffer hoffer) h

theorem Market.isZero_of_checkOffer (h : checkOffer offer ask = .ok ()) :
    offer.amount.isZero = false := by
  rw [checkOffer, Outcome.guard_eq_ok, Outcome.guard_eq_ok, Bool.not_eq_true offer.amount.isZero] at h
  exact h.2.1

/-- The call of a swap through the router: behind the checks and the route it is a `handOver` of a
message that reads as the swaps (`reads_routerCall`). -/
theorem Market.handsOnly_of_swapCall {m : Market} {expectation : Option Expectation}
    {i : Instruction} (h : m.swapCall offer ask receiver tolerance expectation = .ok (some i)) :
    ∃ route swappers, m.route? offer.denom ask = some route ∧
      m.swappers route.hops = .ok swappers ∧
      i.HandsOnly m.router offer RouterCall.ofJson?
        (.swaps swappers (some (tolerance.getD m.defaultSlippage)) expectation none receiver) := by
  unfold swapCall at h
  obtain ⟨_, -, h⟩ := Outcome.bind_eq_ok.1 h
  obtain ⟨_, hoffer, h⟩ := Outcome.bind_eq_ok.1 h
  split at h
  · cases h
  · next route hroute =>
    obtain ⟨swappers, hswappers, h⟩ := Outcome.bind_eq_ok.1 h
    obtain ⟨j, hcall, h⟩ := Outcome.bind_eq_ok.1 h
    cases h
    exact ⟨route, swappers, hroute, hswappers, Instruction.handsOnly_of_handOver
      (exact_routerCall _) (fun _ => reads_routerCall _) (isZero_of_checkOffer hoffer) hcall⟩

/-- Whatever is offered, the call of a swap that is accepted, of a pair or of the router, hands over
the offer with the message that the arguments give (`handsOnly_of_swapCall`). -/
theorem swapCalls_handOver (offer : Coin) (receiver : Option Addr)
    (tolerance : Option BasisPoints) :
    (∀ (p : Pair) (expected : Option Amount) (i : Instruction),
        p.swapCall offer tolerance expected receiver = .ok i →
        i.HandsOnly p.contract offer PairCall.ofJson? (.swap expected tolerance receiver none)) ∧
      ∀ (m : Market) (ask : Denom) (expectation : Option Expectation) (i : Instruction),
        m.swapCall offer ask receiver tolerance expectation = .ok (some i) →
        ∃ route swappers, m.route? offer.denom ask = some route ∧
          m.swappers route.hops = .ok swappers ∧
          i.HandsOnly m.router offer RouterCall.ofJson? (.swaps swappers
            (some (tolerance.getD m.defaultSlippage)) expectation none receiver) :=
  ⟨fun _ _ _ => Pair.handsOnly_of_swapCall, fun _ _ _ _ => Market.handsOnly_of_swapCall⟩

/-! ### A token at a pair, and a native coin through the router -/

namespace Market.Sample

open Pair.Sample (token mixed)

/-- There is a call for the trade, as its assets are linked (`swapOutcome`). -/
theorem exists_call_sei_usdc :
    ∃ i, market.swapCall ⟨.ofUInt32 5, sei⟩ usdc none none none = .ok (some i) := by
  have houtcome := swapOutcome proper_market ⟨.ofUInt32 5, sei⟩ usdc none none none
  have hlinked : Relation.ReflTransGen market.registry.Linked sei usdc :=
    (Relation.ReflTransGen.single linked_sei_atom).tail linked_atom_usdc
  generalize market.swapCall ⟨.ofUInt32 5, sei⟩ usdc none none none = out at houtcome ⊢
  cases houtcome with
  | intolerable hhigh => exact absurd hhigh (by decide)
  | same _ hsame => exact absurd hsame (by decide)
  | empty _ _ hzero => exact absurd hzero (by decide)
  | apart _ _ _ hapart => exact absurd hlinked hapart
  | trade _ _ _ _ _ _ i => exact ⟨i, rfl⟩

theorem swapCalls_handOver_both :
    (∃ i, mixed.swapCall ⟨.ofUInt32 7, .token token⟩ none (some (.ofUInt32 5)) none = .ok i ∧
      i.HandsOnly mixed.contract ⟨.ofUInt32 7, .token token⟩ PairCall.ofJson?
        (.swap (some (.ofUInt32 5)) none none none)) ∧
      ∃ i swappers, market.swapCall ⟨.ofUInt32 5, sei⟩ usdc none none none = .ok (some i) ∧
        i.HandsOnly market.router ⟨.ofUInt32 5, sei⟩ RouterCall.ofJson?
          (.swaps swappers (some (.ofUInt16 100)) none none none) := by
  obtain ⟨i, hi⟩ : ∃ i, mixed.swapCall ⟨.ofUInt32 7, .token token⟩ none (some (.ofUInt32 5)) none =
      .ok i := ⟨_, rfl⟩
  obtain ⟨j, hj⟩ := exists_call_sei_usdc
  obtain ⟨_, swappers, -, -, hhands⟩ := (swapCalls_handOver _ none none).2 market usdc none j hj
  exact ⟨⟨i, hi, (swapCalls_handOver _ none none).1 mixed _ i hi⟩, j, swappers, hj, hhands⟩

end Market.Sample

end PoolMarket
