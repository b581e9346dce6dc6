import PoolMarket.Chain.Pool
import PoolMarket.Proofs.Pool.Worth

/-!
# What the transactions of a pool do

Each transaction that succeeds is read off as the checks it has passed and the pool it leaves. From
that follows what all of them keep: the assets, and that the shares stand for reserves.

* `Transaction.on_bind_eq_ok` — the bind lemma, from which every success is peeled step by step; the
  `fst_*` lemmas do the same for the result alone, faults included.
* `deposit_eq_ok`, `withdraw_ok`, `swap_ok` — one specification for each transaction. Other modules
  never unfold the transactions themselves.
* `Backed`, `Transaction.Keeps` — the invariant of a pool, and that each transaction keeps it.
-/

namespace PoolMarket.Chain.Pool

/-! ## Steps of a transaction

A transaction is run on a pool and gives a result with the pool it leaves, also where it fails. The
lemmas take it apart at its first step; only this section looks at the monad. -/

namespace Transaction

variable {α β : Type} {p q : Pool}

/-- Where the first step succeeds, the rest goes on from the pool it leaves. Both cases of
`Transaction.on`, for `on_bind_eq_ok`. -/
theorem on_bind_of_ok {t : Transaction α} {a : α} (f : α → Transaction β)
    (h : t.on p = (.ok a, q)) : (t >>= f).on p = (f a).on q := by
  have hrun : StateT.run (ExceptT.run t) p = (.ok a, q) := h
  show StateT.run (ExceptT.run (t >>= f)) p = _
  rw [ExceptT.run_bind, StateT.run_bind, hrun]
  rfl

theorem on_bind_of_error {t : Transaction α} {fault : Fault} (f : α → Transaction β)
    (h : t.on p = (.error fault, q)) : (t >>= f).on p = (.error fault, q) := by
  have hrun : StateT.run (ExceptT.run t) p = (.error fault, q) := h
  show StateT.run (ExceptT.run (t >>= f)) p = _
  rw [ExceptT.run_bind, StateT.run_bind, hrun]
  rfl

/-- A transaction succeeds where its first step does and the rest does on the pool this leaves.
Together with the lemmas about single steps, rewriting with it turns a success into a list of
equations. It is `Outcome.bind_eq_ok` with a pool that goes along. -/
theorem on_bind_eq_ok {t : Transaction α} {f : α → Transaction β} {b : β} :
    (t >>= f).on p = (.ok b, q) ↔ ∃ a s, t.on p = (.ok a, s) ∧ (f a).on s = (.ok b, q) := by
  rcases hfirst : t.on p with ⟨fault | a, s⟩
  · rw [on_bind_of_error f hfirst]
    simp
  · rw [on_bind_of_ok f hfirst]
    constructor
    · exact fun h => ⟨a, s, rfl, h⟩
    · rintro ⟨a', s', ha, h⟩
      cases ha
      exact h

theorem on_pure_eq_ok {a b : α} :
    Transaction.on (pure a) p = (.ok b, q) ↔ a = b ∧ p = q := by
  show ((.ok a, p) : Outcome α × Pool) = (.ok b, q) ↔ _
  simp

theorem on_lift_eq_ok {x : Outcome α} {a : α} :
    Transaction.on (liftM x) p = (.ok a, q) ↔ x = .ok a ∧ p = q := by
  show ((x, p) : Outcome α × Pool) = (.ok a, q) ↔ _
  simp

theorem on_get_eq_ok {s : Pool} : Transaction.on get p = (.ok s, q) ↔ p = s ∧ p = q := by
  show ((.ok p, p) : Outcome Pool × Pool) = (.ok s, q) ↔ _
  simp

theorem on_set_eq_ok {s : Pool} {u : PUnit} :
    Transaction.on (set s) p = (.ok u, q) ↔ s = q := by
  show ((.ok ⟨⟩, s) : Outcome PUnit × Pool) = (.ok u, q) ↔ _
  simp

theorem on_modify_eq_ok {f : Pool → Pool} {u : PUnit} :
    Transaction.on (modify f) p = (.ok u, q) ↔ f p = q := by
  show ((.ok ⟨⟩, f p) : Outcome PUnit × Pool) = (.ok u, q) ↔ _
  simp

/-! The result of a transaction, success or fault, without the pool that it leaves. -/

theorem fst_on_bind_get (f : Pool → Transaction β) : ((get >>= f).on p).1 = ((f p).on p).1 := rfl

theorem fst_on_bind_set (s : Pool) (f : PUnit → Transaction β) :
    ((set s >>= f).on p).1 = ((f ⟨⟩).on s).1 := rfl

theorem fst_on_bind_modify (g : Pool → Pool) (f : PUnit → Transaction β) :
    ((modify g >>= f).on p).1 = ((f ⟨⟩).on (g p)).1 := rfl

/-- The result behind a step that only computes is the result of computing in sequence, so a
transaction without its pool becomes a plain `Outcome`. -/
theorem fst_on_bind_lift (x : Outcome α) (f : α → Transaction β) :
    ((liftM x >>= f : Transaction β).on p).1 = x >>= fun a => ((f a).on p).1 := by
  cases x <;> rfl

theorem fst_on_pure (a : α) : ((pure a : Transaction α).on p).1 = pure a := rfl

end Transaction

/-! ## What a success tells

For each of the four transactions the pool is compared with what it was, field by field. Amounts
are compared as natural numbers, which leaves the arithmetic to `omega`. -/

variable {p q : Pool}

/-- The check passes exactly where both reserves hold something (`Amount.isZero_iff`). -/
theorem checkReserves_eq_ok {u : Unit} :
    p.checkReserves = .ok u ↔ 0 < p.reserves.first.val ∧ 0 < p.reserves.second.val := by
  unfold checkReserves
  simp only [Bool.or_eq_true, Amount.isZero_iff]
  split
  · next h => simp; omega
  · next h => simp; omega

theorem checkSupply_eq_ok {shares : Amount} {u : Unit} :
    p.checkSupply shares = .ok u ↔ shares.val ≤ p.shares.val := by
  unfold checkSupply
  split
  · next h =>
    have h : p.shares.val < shares.val := h
    simp; omega
  · next h =>
    have h : ¬ p.shares.val < shares.val := h
    simp; omega

/-- The pool with a deposit: the two reserves and the shares added up, each of them fitting, and the
rest as it was (`Amount.plus_eq_ok`). -/
theorem grow_eq_ok {amounts : Both Amount} {minted : Amount} :
    p.grow amounts minted = .ok q ↔
      q.reserves.first.val = p.reserves.first.val + amounts.first.val ∧
      q.reserves.second.val = p.reserves.second.val + amounts.second.val ∧
      q.shares.val = p.shares.val + minted.val ∧ q.assets = p.assets ∧ q.fees = p.fees := by
  unfold grow
  simp only [Outcome.bind_eq_ok, Amount.plus_eq_ok]
  constructor
  · rintro ⟨first, hfirst, second, hsecond, shares, hshares, hq⟩
    cases hq
    exact ⟨hfirst, hsecond, hshares, rfl, rfl⟩
  · rintro ⟨hfirst, hsecond, hshares, hassets, hfees⟩
    refine ⟨_, hfirst, _, hsecond, _, hshares, ?_⟩
    cases q
    cases hassets
    cases hfees
    rfl

/-- A deposit mints what it says and adds the amounts, just as a preview of it computes
(`sharesFor`, `grow`). That it sets the pool in two steps is no matter once it succeeds. -/
theorem deposit_eq_ok {amounts : Both Amount} {minted : Amount} :
    (deposit amounts).on p = (.ok minted, q) ↔
      p.sharesFor amounts = .ok minted ∧ p.grow amounts minted = .ok q := by
  unfold deposit grow
  simp only [Transaction.on_bind_eq_ok, Transaction.on_get_eq_ok, Transaction.on_lift_eq_ok,
    Transaction.on_set_eq_ok, Transaction.on_modify_eq_ok, Transaction.on_pure_eq_ok,
    Outcome.bind_eq_ok]
  constructor
  · rintro ⟨_, _, ⟨rfl, rfl⟩, minted', _, ⟨hminted, rfl⟩, first, _, ⟨hfirst, rfl⟩, second, _,
      ⟨hsecond, rfl⟩, _, _, rfl, shares, _, ⟨hshares, rfl⟩, _, _, rfl, rfl, rfl⟩
    exact ⟨hminted, first, hfirst, second, hsecond, shares, hshares, rfl⟩
  · rintro ⟨hminted, first, hfirst, second, hsecond, shares, hshares, hq⟩
    cases hq
    exact ⟨p, p, ⟨rfl, rfl⟩, minted, p, ⟨hminted, rfl⟩, first, p, ⟨hfirst, rfl⟩, second, p,
      ⟨hsecond, rfl⟩, ⟨⟩, _, rfl, shares, _, ⟨hshares, rfl⟩, ⟨⟩, _, rfl, rfl, rfl⟩

/-- Whether a deposit succeeds and how it fails is what a preview of it computes, too. The same
steps in the same order, so the fault is the same as well. Step by step
(`Transaction.fst_on_bind_get` and its siblings), with no case distinction on the outcome. -/
theorem fst_deposit (p : Pool) (amounts : Both Amount) :
    ((deposit amounts).on p).1 = (do
      let minted ← p.sharesFor amounts
      let _ ← p.grow amounts minted
      return minted) := by
  unfold deposit grow
  simp only [Transaction.fst_on_bind_get, Transaction.fst_on_bind_set,
    Transaction.fst_on_bind_modify, Transaction.fst_on_bind_lift, Transaction.fst_on_pure,
    bind_assoc, pure_bind]

/-- A withdrawal pays what the shares are worth and burns them: what it leaves is the difference on
both sides, and the shares that are left. By the steps of `Pool.withdraw` (`on_bind_eq_ok`). -/
theorem withdraw_ok {shares : Amount} {value : Both Coin}
    (h : (withdraw shares).on p = (.ok value, q)) :
    shares.val ≤ p.shares.val ∧ p.shareValue shares = .ok value ∧
      q.reserves.first.val = p.reserves.first.val - value.first.amount.val ∧
      q.reserves.second.val = p.reserves.second.val - value.second.amount.val ∧
      q.shares.val = p.shares.val - shares.val ∧ q.assets = p.assets ∧ q.fees = p.fees := by
  unfold withdraw at h
  simp only [Transaction.on_bind_eq_ok, Transaction.on_get_eq_ok, Transaction.on_lift_eq_ok,
    Transaction.on_set_eq_ok, Transaction.on_modify_eq_ok, Transaction.on_pure_eq_ok] at h
  obtain ⟨_, _, ⟨rfl, rfl⟩, _, _, ⟨hsupply, rfl⟩, _, _, ⟨hvalue, rfl⟩, first, _, ⟨hfirst, rfl⟩,
    second, _, ⟨hsecond, rfl⟩, _, _, rfl, left, _, ⟨hleft, rfl⟩, _, _, rfl, rfl, rfl⟩ := h
  rw [checkSupply_eq_ok] at hsupply
  rw [Amount.minus_eq_ok] at hfirst hsecond hleft
  exact ⟨hsupply, hvalue, hfirst.2, hsecond.2, hleft.2, rfl, rfl⟩

/-- A swap adds the offer on its side and takes what is paid and the maker's fee from the other.
That this is covered by the reserve is part of what a success tells. By the steps of `Pool.swap`
(`on_bind_eq_ok`). -/
theorem swap_ok {offer : Coin} {result : SwapResult}
    (h : (swap offer).on p = (.ok result, q)) :
    p.quoteSwap offer = .ok result ∧ ∃ side, p.side offer.denom = .ok side ∧
      (q.reserves.get side).val = (p.reserves.get side).val + offer.amount.val ∧
      result.paid.val + result.makerFee.val ≤ (p.reserves.get side.opposite).val ∧
      (q.reserves.get side.opposite).val =
        (p.reserves.get side.opposite).val - (result.paid.val + result.makerFee.val) ∧
      q.shares = p.shares ∧ q.assets = p.assets ∧ q.fees = p.fees := by
  unfold swap at h
  simp only [Transaction.on_bind_eq_ok, Transaction.on_get_eq_ok, Transaction.on_lift_eq_ok,
    Transaction.on_set_eq_ok, Transaction.on_modify_eq_ok, Transaction.on_pure_eq_ok] at h
  obtain ⟨_, _, ⟨rfl, rfl⟩, _, _, ⟨hquote, rfl⟩, side, _, ⟨hside, rfl⟩, out, _, ⟨hout, rfl⟩, poolIn,
    _, ⟨hin, rfl⟩, _, _, rfl, poolOut, _, ⟨hpoolOut, rfl⟩, _, _, rfl, rfl, rfl⟩ := h
  rw [Amount.plus_eq_ok] at hout hin
  rw [Amount.minus_eq_ok, hout] at hpoolOut
  refine ⟨hquote, side, hside, ?_, hpoolOut.1, ?_, rfl, rfl, rfl⟩
  · have hget := Both.get_set_opposite (p.reserves.set side poolIn) side.opposite poolOut
    rw [Side.opposite_opposite, Both.get_set_self] at hget
    rw [hget, hin]
  · rw [Both.get_set_self, hpoolOut.2]

/-! ## Minting and worth

What a deposit mints depends on whether any shares are issued; what shares are worth does not,
since a quotient by zero shares is zero on natural numbers. -/

/-- The first deposit mints the root of its product, if that is large enough. By the branches of
`Pool.sharesFor`. -/
theorem sharesFor_of_unissued {amounts : Both Amount} {minted : Amount} (h : p.shares.val = 0) :
    p.sharesFor amounts = .ok minted ↔
      minted = amounts.first.rootOfProduct amounts.second ∧ 1000 ≤ minted.val := by
  have hzero : p.shares.isZero = true := Amount.isZero_iff.2 h
  simp only [sharesFor, hzero, if_true]
  generalize amounts.first.rootOfProduct amounts.second = root
  split
  · next hsmall =>
    have hsmall : root.val < 1000 := hsmall
    constructor
    · intro h
      cases h
    · rintro ⟨rfl, h⟩
      omega
  · next hlarge =>
    have hlarge : ¬ root.val < 1000 := hlarge
    constructor
    · intro h
      cases h
      exact ⟨rfl, by omega⟩
    · rintro ⟨rfl, -⟩
      rfl

/-- A later deposit mints the smaller of what its two amounts come to, provided that both reserves
hold something. The two are compared as amounts, so `Amount.mulDiv_eq_ok` says what each is. -/
theorem sharesFor_of_issued {amounts : Both Amount} {minted : Amount} (h : p.shares.val ≠ 0) :
    p.sharesFor amounts = .ok minted ↔
      (0 < p.reserves.first.val ∧ 0 < p.reserves.second.val) ∧
      ∃ first second : Amount,
        first.val = amounts.first.val * p.shares.val / p.reserves.first.val ∧
        second.val = amounts.second.val * p.shares.val / p.reserves.second.val ∧
        minted = first.least second := by
  have hissued : p.shares.isZero = false := Amount.isZero_eq_false (Nat.pos_of_ne_zero h)
  simp only [sharesFor, hissued, Bool.false_eq_true, if_false, Outcome.bind_eq_ok,
    checkReserves_eq_ok, Amount.mulDiv_eq_ok]
  constructor
  · rintro ⟨_, hreserves, first, ⟨-, hfirst⟩, second, ⟨-, hsecond⟩, hminted⟩
    cases hminted
    exact ⟨hreserves, first, second, hfirst, hsecond, rfl⟩
  · rintro ⟨hreserves, first, second, hfirst, hsecond, rfl⟩
    exact ⟨⟨⟩, hreserves, first, ⟨by omega, hfirst⟩, second, ⟨by omega, hsecond⟩, rfl⟩

/-- The code of the pool reckons what shares are worth as it is done on a snapshot, so the lemmas
about snapshots apply to pools (`Snapshot.shareValue`). -/
theorem worth_eq_shareValue (p : Pool) (shares : Amount) :
    p.worth shares = Snapshot.shareValue ⟨p.reserves, p.shares, p.fees⟩ shares := rfl

/-- What shares are worth in a pool (`Snapshot.shareValue_eq_ok`). -/
theorem worth_eq_ok {shares : Amount} {value : Both Amount} :
    p.worth shares = .ok value ↔
      ∀ side, (value.get side).val = (p.reserves.get side).val * shares.val / p.shares.val := by
  rw [worth_eq_shareValue, Snapshot.shareValue_eq_ok]

/-- No more shares than are issued always have a worth (`Snapshot.exists_shareValue`). -/
theorem exists_worth {shares : Amount} (h : shares.val ≤ p.shares.val) :
    ∃ value, p.worth shares = .ok value :=
  Snapshot.exists_shareValue (s := ⟨p.reserves, p.shares, p.fees⟩) h

/-- The same as coins of the pool's two assets: `worth`, with the denoms put to it. -/
theorem shareValue_eq_ok {shares : Amount} {coins : Both Coin} :
    p.shareValue shares = .ok coins ↔
      ∃ value, p.worth shares = .ok value ∧ coins = Coin.forPair p.assets value := by
  unfold shareValue
  rw [Outcome.bind_eq_ok]
  constructor
  · rintro ⟨value, hvalue, hcoins⟩
    cases hcoins
    exact ⟨value, hvalue, rfl⟩
  · rintro ⟨value, hvalue, rfl⟩
    exact ⟨value, hvalue, rfl⟩

/-! ## Shares stand for reserves

An empty pool has no shares and a pool with shares is not empty: the first deposit has to bring
both assets, and only the last shares take all that is left. Everything about the price of a share
rests on this. -/

/-- There are shares just where there is something in the reserves. One reserve may still be empty
where the other is not, since a swap can pay out all of a side. -/
def Backed (p : Pool) : Prop :=
  p.shares.val = 0 ↔ p.reserves.first.val = 0 ∧ p.reserves.second.val = 0

theorem Backed.reserve_eq_zero (hp : p.Backed) (h : p.shares.val = 0) :
    ∀ side, (p.reserves.get side).val = 0 :=
  Side.forall_iff.2 (hp.1 h)

theorem backed_new (assets : DenomPair) (fees : Fees) : (new assets fees).Backed :=
  ⟨fun _ => ⟨rfl, rfl⟩, fun _ => rfl⟩

/-- The first deposit has to bring both assets, since its product has a root
(`Amount.pos_of_rootOfProduct_pos`); a later one only adds. No hypothesis on the pool is needed. -/
theorem Backed.deposit {amounts : Both Amount} {minted : Amount}
    (h : (deposit amounts).on p = (.ok minted, q)) : q.Backed := by
  obtain ⟨hminted, hgrow⟩ := deposit_eq_ok.1 h
  obtain ⟨hfirst, hsecond, hshares, -, -⟩ := grow_eq_ok.1 hgrow
  unfold Backed
  by_cases hissued : p.shares.val = 0
  · obtain ⟨hroot, hlarge⟩ := (sharesFor_of_unissued hissued).1 hminted
    have hpos : 0 < (amounts.first.rootOfProduct amounts.second).val := by
      rw [← hroot]
      omega
    obtain ⟨hfirstPos, hsecondPos⟩ := Amount.pos_of_rootOfProduct_pos hpos
    omega
  · obtain ⟨⟨hfirstPos, hsecondPos⟩, -⟩ := (sharesFor_of_issued hissued).1 hminted
    omega

/-- A withdrawal of all shares empties both reserves; one of fewer leaves something of each that was
not empty (`Parts.lt_reserve`). -/
theorem Backed.withdraw {shares : Amount} {value : Both Coin} (hp : p.Backed)
    (h : (withdraw shares).on p = (.ok value, q)) : q.Backed := by
  obtain ⟨hsupply, hvalue, hfirst, hsecond, hleft, -, -⟩ := withdraw_ok h
  obtain ⟨amounts, hworth, rfl⟩ := shareValue_eq_ok.1 hvalue
  unfold Backed at hp ⊢
  rw [hfirst, hsecond, hleft]
  show _ ↔ _ - amounts.first.val = 0 ∧ _ - amounts.second.val = 0
  by_cases hissued : p.shares.val = 0
  · omega
  · have hworthFirst : amounts.first.val = p.reserves.first.val * shares.val / p.shares.val :=
      worth_eq_ok.1 hworth .first
    have hworthSecond : amounts.second.val = p.reserves.second.val * shares.val / p.shares.val :=
      worth_eq_ok.1 hworth .second
    rw [hworthFirst, hworthSecond]
    -- with shares left both reserves keep something; with the last share both are taken out
    rcases Nat.lt_or_ge shares.val p.shares.val with hpart | hall
    · have hsome : ¬ (p.reserves.first.val = 0 ∧ p.reserves.second.val = 0) := fun hnone =>
        hissued (hp.2 hnone)
      have hkept (reserve : Nat) (hreserve : 0 < reserve) :
          0 < reserve - reserve * shares.val / p.shares.val :=
        Nat.sub_pos_of_lt (Parts.lt_reserve hreserve hpart)
      have hfirstKept := hkept p.reserves.first.val
      have hsecondKept := hkept p.reserves.second.val
      omega
    · have hshares : shares.val = p.shares.val := by omega
      rw [hshares, Nat.mul_div_cancel _ (by omega), Nat.mul_div_cancel _ (by omega)]
      omega

/-- A swap may drain the side that it pays from, but it needs something on the other to begin with,
and adds to that (`swap_ok`). -/
theorem Backed.swap {offer : Coin} {result : SwapResult} (hp : p.Backed)
    (h : (swap offer).on p = (.ok result, q)) : q.Backed := by
  obtain ⟨hquote, side, hside, hin, -, -, hshares, -, -⟩ := swap_ok h
  have hreserves : 0 < p.reserves.first.val ∧ 0 < p.reserves.second.val := by
    unfold quoteSwap at hquote
    obtain ⟨_, -, hquote⟩ := Outcome.bind_eq_ok.1 hquote
    obtain ⟨_, hcheck, -⟩ := Outcome.bind_eq_ok.1 hquote
    exact checkReserves_eq_ok.1 hcheck
  unfold Backed at hp ⊢
  rw [hshares]
  -- a swap finds coins on both sides, so shares were issued
  have hissued : p.shares.val ≠ 0 := fun hzero => by
    have hnone := hp.1 hzero
    omega
  have hkept : 0 < (q.reserves.get side).val := by
    rw [hin]
    cases side
    · exact Nat.add_pos_left hreserves.1 _
    · exact Nat.add_pos_left hreserves.2 _
  cases side
  · have hkept : 0 < q.reserves.first.val := hkept
    omega
  · have hkept : 0 < q.reserves.second.val := hkept
    omega

/-- A transaction that succeeds keeps the assets of a pool, and its shares backed. Stated of the
transaction, so that what holds of a call on the chain follows for all kinds at once. -/
def Transaction.Keeps {α : Type} (t : Transaction α) : Prop :=
  ∀ p q a, t.on p = (.ok a, q) → q.assets = p.assets ∧ (p.Backed → q.Backed)

/-- A deposit keeps them (`deposit_eq_ok`, `Backed.deposit`). -/
theorem keeps_deposit (amounts : Both Amount) : (deposit amounts).Keeps := fun _ _ _ h =>
  ⟨(grow_eq_ok.1 (deposit_eq_ok.1 h).2).2.2.2.1, fun _ => Backed.deposit h⟩

theorem keeps_withdraw (shares : Amount) : (withdraw shares).Keeps := fun _ _ _ h =>
  ⟨(withdraw_ok h).2.2.2.2.2.1, fun hp => hp.withdraw h⟩

theorem keeps_swap (offer : Coin) : (swap offer).Keeps := fun _ _ _ h => by
  obtain ⟨-, side, -, -, -, -, -, hassets, -⟩ := swap_ok h
  exact ⟨hassets, fun hp => hp.swap h⟩

theorem keeps_setFees (fees : Fees) : (setFees fees).Keeps := fun p q _ h => by
  obtain rfl := Transaction.on_modify_eq_ok.1 h
  exact ⟨rfl, fun hp => hp⟩

end PoolMarket.Chain.Pool
