import PoolMarket.Proofs.Chain.Pricing
import PoolMarket.Proofs.Chain.Shares
import PoolMarket.Proofs.Market.PoolReading
import PoolMarket.Proofs.Pool.Minting

/-!
# Three ways to a deposit

What a deposit brings is estimated from a snapshot, previewed by the pool, and found out by making
it. Each has its own checks in its own order. On a pool that has issued shares they succeed
together, and then they tell the same.

`sharesFor` and `grow` are what a deposit is made of; `provide_eq_ok` and `previewDeposit_eq_ok`
read the estimate and the preview as the same two, so that `DepositsAgree` is one case distinction
on them. The preview and the worth are parameters there, since they can be computed by the pool's
code or asked of the chain.
-/

namespace PoolMarket.Chain

namespace Pool

variable {p q : Pool} {amounts value : Both Amount} {minted : Amount}

/-! ## The estimate

-/

/-- A pool with shares has something in its reserves, so its snapshot is not taken for that of a new
pool, for which the estimate has a rule of its own (`Snapshot.isEmpty`). -/
theorem Backed.not_isEmpty (hp : p.Backed) (hissued : 0 < p.shares.val) :
    ¬ p.snapshot.isEmpty = true := by
  show ¬ (p.reserves.first.isZero && p.reserves.second.isZero) = true
  rw [Bool.and_eq_true, Amount.isZero_iff, Amount.isZero_iff]
  intro hnone
  have hunissued := hp.2 hnone
  omega

/-- The estimate is what a deposit computes, if shares have been issued: its checks are those of
`sharesFor`, and the worth it reckons is that in the pool after the deposit. -/
theorem provide_eq_ok (hp : p.Backed) (hissued : 0 < p.shares.val) :
    p.snapshot.provide amounts = .ok (minted, value) ↔
      ∃ q, p.sharesFor amounts = .ok minted ∧ p.grow amounts minted = .ok q ∧
        q.worth minted = .ok value := by
  -- with shares issued the pool mints by its reserves, as the estimate does
  simp only [sharesFor_of_issued (Nat.ne_of_gt hissued)]
  by_cases hreserves : 0 < p.reserves.first.val ∧ 0 < p.reserves.second.val
  · have hpriced : p.snapshot.Priced := ⟨Side.forall_iff.2 hreserves, hissued⟩
    rw [Snapshot.provide_of_priced hpriced]
    simp only [Outcome.bind_eq_ok, Amount.mulDiv_eq_ok, Amount.plus_eq_ok]
    -- both sides ask for the same sums and quotients, in another order
    constructor
    · rintro ⟨first, ⟨-, hfirst⟩, second, ⟨-, hsecond⟩, supply, hsupply, sumFirst, hsumFirst,
        valueFirst, ⟨-, hvalueFirst⟩, sumSecond, hsumSecond, valueSecond, ⟨-, hvalueSecond⟩, heq⟩
      cases heq
      exact ⟨⟨p.assets, ⟨sumFirst, sumSecond⟩, supply, p.fees⟩,
        ⟨hreserves, first, second, hfirst, hsecond, rfl⟩,
        grow_eq_ok.2 ⟨hsumFirst, hsumSecond, hsupply, rfl, rfl⟩,
        worth_eq_ok.2 (Side.forall_iff.2 ⟨hvalueFirst, hvalueSecond⟩)⟩
    · rintro ⟨q, ⟨-, first, second, hfirst, hsecond, rfl⟩, hgrow, hworth⟩
      obtain ⟨hsumFirst, hsumSecond, hsupply, -⟩ := grow_eq_ok.1 hgrow
      have hvalue := worth_eq_ok.1 hworth
      exact ⟨first, ⟨Nat.ne_of_gt hreserves.1, hfirst⟩, second, ⟨Nat.ne_of_gt hreserves.2, hsecond⟩,
        q.shares, hsupply, q.reserves.first, hsumFirst, value.first, ⟨by omega, hvalue .first⟩,
        q.reserves.second, hsumSecond, value.second, ⟨by omega, hvalue .second⟩, rfl⟩
  · rw [Snapshot.provide_of_unpriced (hp.not_isEmpty hissued) fun h =>
      hreserves ⟨h.deposits .first, h.deposits .second⟩]
    constructor
    · intro h
      cases h
    · rintro ⟨q, ⟨hboth, -⟩, -⟩
      exact absurd hboth hreserves

/-! ## The preview

-/

/-- A coin is added on the side of its asset (`DenomPair.side?_get`). -/
theorem addCoin_eq_ok {sums : Both Amount} {side : Side} {a b : Amount}
    (h : b.val = (amounts.get side).val + a.val) (hsums : sums = amounts.set side b) :
    p.addCoin amounts ⟨a, p.assets.get side⟩ = .ok sums := by
  rw [addCoin, side_eq_ok.2 (p.assets.side?_get side)]
  show (amounts.get side).plus a >>= _ = _
  rw [Amount.plus_eq_ok.2 h, hsums]
  rfl

/-- Coins of both assets are brought into listing order, whatever order they are in. The coins are
added one by one (`addCoin_eq_ok`), each on a side that was empty before. -/
theorem align_eq_ok {offer : Both Coin}
    (h : offer = Coin.forPair p.assets amounts ∨ offer = (Coin.forPair p.assets amounts).swap) :
    p.align offer = .ok amounts := by
  rcases h with rfl | rfl
  · have hfirst : p.addCoin (.same .zero) ⟨amounts.first, p.assets.get .first⟩ =
        .ok ⟨amounts.first, .zero⟩ := addCoin_eq_ok (Nat.zero_add _).symm rfl
    have hsecond : p.addCoin ⟨amounts.first, .zero⟩ ⟨amounts.second, p.assets.get .second⟩ =
        .ok amounts := addCoin_eq_ok (Nat.zero_add _).symm rfl
    exact Outcome.bind_eq_ok.2 ⟨_, hfirst, hsecond⟩
  · have hsecond : p.addCoin (.same .zero) ⟨amounts.second, p.assets.get .second⟩ =
        .ok ⟨.zero, amounts.second⟩ := addCoin_eq_ok (Nat.zero_add _).symm rfl
    have hfirst : p.addCoin ⟨.zero, amounts.second⟩ ⟨amounts.first, p.assets.get .first⟩ =
        .ok amounts := addCoin_eq_ok (Nat.zero_add _).symm rfl
    exact Outcome.bind_eq_ok.2 ⟨_, hsecond, hfirst⟩

/-- The preview is what a deposit computes, once the coins are in order (`align_eq_ok`). -/
theorem previewDeposit_eq_ok {offer : Both Coin} {d : DepositPreview}
    (h : p.align offer = .ok amounts) :
    p.previewDeposit offer = .ok d ↔
      ∃ q, p.sharesFor amounts = .ok d.shares ∧ p.grow amounts d.shares = .ok q ∧
        q.shareValue d.shares = .ok d.value := by
  unfold previewDeposit
  rw [h]
  show (p.sharesFor amounts >>= _) = _ ↔ _
  simp only [Outcome.bind_eq_ok]
  constructor
  · rintro ⟨minted, hminted, q, hgrow, value, hvalue, heq⟩
    cases heq
    exact ⟨q, hminted, hgrow, hvalue⟩
  · rintro ⟨q, hminted, hgrow, hvalue⟩
    exact ⟨d.shares, hminted, q, hgrow, d.value, hvalue, rfl⟩

end Pool

namespace Ledger

variable {l : Ledger} {contract : Addr} {p : Pool} {amounts : Both Amount}

/-- What shares of a contract's pool are worth, by its own code. -/
def shareValue (l : Ledger) (contract : Addr) (shares : Amount) : Outcome (Both Coin) := do
  let p ← l.pool contract
  p.shareValue shares

/-! ## Agreement

Failing together is the harder half: the three fail with different faults, so the constructor keeps
one for each, and the proof goes by the success of the others. -/

/-- An estimate, a preview and a deposit of the same amounts agree: either all fail, or all mint the
same shares, whose value is what they are said to be worth after the deposit and what withdrawing
them then pays. -/
inductive DepositsAgree (l : Ledger) (contract : Addr) (p : Pool) (amounts : Both Amount)
    (preview : Outcome DepositPreview) (valued : Ledger → Amount → Outcome (Both Coin)) : Prop
  | fail {f g h : Fault} (estimate : p.snapshot.provide amounts = .error f)
      (preview : preview = .error g) (deposit : l.deposit contract amounts = .error h)
  | mint {minted : Amount} {value : Both Amount} {n m : Ledger}
      (estimate : p.snapshot.provide amounts = .ok (minted, value))
      (preview : preview = .ok ⟨minted, Coin.forPair p.assets value⟩)
      (deposit : l.deposit contract amounts = .ok (minted, n))
      (valued : valued n minted = .ok (Coin.forPair p.assets value))
      (withdraw : n.withdraw contract minted = .ok (Coin.forPair p.assets value, m))

/-- A preview and a value that are those of the pool's own code agree with a deposit. By whether the
deposit has a result: if it has, so have the others (`Pool.provide_eq_ok`,
`Pool.previewDeposit_eq_ok`), and if not, each of them meets a fault (`Outcome.exists_error`). -/
theorem depositsAgree (hp : l.pools[contract]? = some p) (hbacked : p.Backed)
    (hissued : 0 < p.shares.val) {offer : Both Coin} (halign : p.align offer = .ok amounts)
    {preview : Outcome DepositPreview} {valued : Ledger → Amount → Outcome (Both Coin)}
    (hpreview : ∀ d, preview = .ok d ↔ p.previewDeposit offer = .ok d)
    (hvalued : ∀ minted q coins, (Pool.deposit amounts).on p = (.ok minted, q) →
      q.shareValue minted = .ok coins →
      valued { l with pools := l.pools.insert contract q } minted = .ok coins) :
    l.DepositsAgree contract p amounts preview valued := by
  -- the three agree because all of them mint by the reserves and then grow the pool
  by_cases hmints : ∃ minted q, p.sharesFor amounts = .ok minted ∧ p.grow amounts minted = .ok q
  · obtain ⟨minted, q, hminted, hgrow⟩ := hmints
    obtain ⟨-, -, hshares, hassets, -⟩ := Pool.grow_eq_ok.1 hgrow
    have hsupply : minted.val ≤ q.shares.val := by omega
    obtain ⟨value, hworth⟩ := Pool.exists_worth hsupply
    have hvalue : q.shareValue minted = .ok (Coin.forPair p.assets value) :=
      Pool.shareValue_eq_ok.2 ⟨value, hworth, by rw [hassets]⟩
    have hdeposit : (Pool.deposit amounts).on p = (.ok minted, q) :=
      Pool.deposit_eq_ok.2 ⟨hminted, hgrow⟩
    obtain ⟨r, hwithdraw⟩ := Pool.withdraw_eq_ok.2 ⟨hsupply, hvalue⟩
    exact .mint ((Pool.provide_eq_ok hbacked hissued).2 ⟨q, hminted, hgrow, hworth⟩)
      ((hpreview _).2 ((Pool.previewDeposit_eq_ok halign).2 ⟨q, hminted, hgrow, hvalue⟩))
      (update_eq_ok.2 ⟨p, q, hp, hdeposit, rfl⟩) (hvalued minted q _ hdeposit hvalue)
      (update_eq_ok.2 ⟨q, r, Std.TreeMap.getElem?_insert_self, hwithdraw, rfl⟩)
  · -- none of the three can succeed without shares to mint and a pool that grows by them
    obtain ⟨f, hestimate⟩ := Outcome.exists_error (x := p.snapshot.provide amounts) (by
      rintro ⟨minted, value⟩ h
      obtain ⟨q, hminted, hgrow, -⟩ := (Pool.provide_eq_ok hbacked hissued).1 h
      exact hmints ⟨minted, q, hminted, hgrow⟩)
    obtain ⟨g, hnone⟩ := Outcome.exists_error (x := preview) (by
      intro d h
      obtain ⟨q, hminted, hgrow, -⟩ := (Pool.previewDeposit_eq_ok halign).1 ((hpreview d).1 h)
      exact hmints ⟨d.shares, q, hminted, hgrow⟩)
    obtain ⟨h, hdeposit⟩ := Outcome.exists_error (x := l.deposit contract amounts) (by
      rintro ⟨minted, n⟩ h
      obtain ⟨r, q, hr, hon, -⟩ := update_eq_ok.1 h
      rw [hp, Option.some.injEq] at hr
      subst hr
      obtain ⟨hminted, hgrow⟩ := Pool.deposit_eq_ok.1 hon
      exact hmints ⟨minted, q, hminted, hgrow⟩)
    exact .fail hestimate hnone hdeposit

/-- On every chain: for a pool that has issued shares, the estimate from its state, the pool's
preview of the coins in either order and a deposit agree. They do if the pool's code is run, and for
validated assets also if the chain is asked, unless it lets the contract fail. Both are
`depositsAgree`, once with the pool's code for the preview and the worth and once with the replies
of the chain (`Coherent.asked_pool`). -/
theorem run_depositsAgree (factory router : Addr) (history : List Call) {contract : Addr} {p : Pool}
    (hp : ((new factory router).run history).pools[contract]? = some p)
    (hissued : 0 < p.shares.val) (amounts : Both Amount) (offer : Both Coin)
    (hoffer : offer = Coin.forPair p.assets amounts ∨
      offer = (Coin.forPair p.assets amounts).swap) :
    ((new factory router).run history).DepositsAgree contract p amounts (p.previewDeposit offer)
        (fun n shares => n.shareValue contract shares) ∧
      (p.assets.Validated → contract ∉ ((new factory router).run history).failing →
        ((new factory router).run history).DepositsAgree contract p amounts
          (((new factory router).run history).asked (.previewDeposit contract offer))
          (fun n shares => n.asked (.shareValue contract shares))) := by
  have hcoherent := (coherent_new factory router).run history
  generalize (new factory router).run history = l at hp hcoherent ⊢
  have hbacked := hcoherent.backed contract p hp
  have halign := Pool.align_eq_ok hoffer
  refine ⟨depositsAgree hp hbacked hissued halign (fun d => Iff.rfl) ?_,
    fun hvalid hanswers => depositsAgree hp hbacked hissued halign ?_ ?_⟩
  · intro minted q coins hdeposit hvalue
    have hq : ({ l with pools := l.pools.insert contract q } : Ledger).pool contract = .ok q :=
      pool_eq_ok.2 Std.TreeMap.getElem?_insert_self
    rw [shareValue, hq]
    exact hvalue
  · -- the preview, as a message
    have hquery : (PairQuery.previewDeposit offer).Validated := by
      rcases hoffer with rfl | rfl
      · exact hvalid
      · exact ⟨hvalid.2, hvalid.1⟩
    refine hcoherent.asked_pool hanswers hp (.previewDeposit offer) hquery DepositPreview.toJson
      ?_ ?_
    · show (p.previewDeposit offer >>= _) = _
      cases p.previewDeposit offer <;> rfl
    · intro d hd
      obtain ⟨q, -, hgrow, hvalue⟩ := (Pool.previewDeposit_eq_ok halign).1 hd
      obtain ⟨value, -, hcoins⟩ := Pool.shareValue_eq_ok.1 hvalue
      rw [(Pool.grow_eq_ok.1 hgrow).2.2.2.1] at hcoins
      exact reads_depositPreview (hcoins ▸ hvalid.1) (hcoins ▸ hvalid.2)
  · -- the value, as a message to the chain after the deposit
    intro minted q coins hdeposit hvalue
    obtain ⟨hassets, hkeeps⟩ := Pool.keeps_deposit amounts p q minted hdeposit
    refine ((hcoherent.change hp hassets hkeeps).asked_pool hanswers
      Std.TreeMap.getElem?_insert_self (.shareValue minted) trivial (Json.ofBoth Coin.toJson)
      ?_ ?_ coins).2 hvalue
    · show (q.shareValue minted >>= _) = _
      cases q.shareValue minted <;> rfl
    · intro coins hcoins
      obtain ⟨value, -, rfl⟩ := Pool.shareValue_eq_ok.1 hcoins
      rw [hassets]
      exact reads_coins hvalid.1 hvalid.2

end Ledger

namespace Sample

open Deployment (factory router)

def lopsidedCoins : Both Coin := ⟨⟨.ofUInt32 700, assets.second⟩, ⟨.ofUInt32 2, assets.first⟩⟩

theorem depositsAgree_opening :
    ((Ledger.new factory router).run opening).DepositsAgree contract opened
        ⟨.ofUInt32 2, .ofUInt32 700⟩ (opened.previewDeposit lopsidedCoins)
        (fun n shares => n.shareValue contract shares) ∧
      ((Ledger.new factory router).run opening).DepositsAgree contract opened
        ⟨.ofUInt32 2, .ofUInt32 700⟩
        (((Ledger.new factory router).run opening).asked (.previewDeposit contract lopsidedCoins))
        (fun n shares => n.asked (.shareValue contract shares)) := by
  obtain ⟨hcode, hasked⟩ := Ledger.run_depositsAgree factory router opening pool_opening
    (by decide) ⟨.ofUInt32 2, .ofUInt32 700⟩ lopsidedCoins (Or.inr rfl)
  have hanswers : contract ∉ ((Ledger.new factory router).run opening).failing := by
    decide +kernel
  exact ⟨hcode, hasked ⟨⟨"usei", rfl⟩, ⟨"uusdc", rfl⟩⟩ hanswers⟩

end Sample

end PoolMarket.Chain
