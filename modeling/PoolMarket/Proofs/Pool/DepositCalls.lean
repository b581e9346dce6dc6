import Mathlib.Data.List.Nodup
import PoolMarket.Pool.Pair
import PoolMarket.Proofs.Wire.HandOver

/-!
# The calls of a deposit

A deposit brings an amount of each asset. Native coins are attached to the call of the pool; tokens
are made available to it beforehand, by a call of the contract that keeps them. Nothing is asked for
an amount of nothing.

* `Instruction.Allows` — the instruction that makes a token available.
* `Grants` — what one coin takes beforehand: no call, or one.
* `Deposits` — all calls together; `Grants.deposits` builds it from the two coins.
-/

namespace PoolMarket

/-- The instruction tells the contract of a token that an amount of it may be spent. -/
structure Instruction.Allows (i : Instruction) (spender : Addr) (coin : Coin) : Prop where
  denom : coin.denom = .token i.contract
  told : TokenCall.ofJson? .value i.msg = some (.allow spender coin.amount)
  funds : i.funds = []

/-- A call of a token contract is none of a pair contract, so the calls in front of a deposit cannot
be taken for it (`variant?_ofVariant`). -/
theorem PairCall.ofJson?_tokenCall (form : Json.Form) (c : TokenCall) :
    ofJson? form (form.carry c.toJson) = none := by
  cases c with
  | send => rw [ofJson?, TokenCall.toJson, variant?_ofVariant]; rfl
  | allow => rw [ofJson?, TokenCall.toJson, variant?_ofVariant]; rfl

/-- The text of a native coin tells it from the other asset, so what is attached has no text twice,
which `Instruction.pairwise_arrange` asks for. -/
theorem Coin.nodup_native (assets : DenomPair) (amounts : Both Amount) :
    (((forPair assets amounts).toList.filter fun c => c.denom.isNative).map fun c =>
      c.denom.text).Nodup := by
  obtain ⟨first, second, hdistinct⟩ := assets
  cases first with
  | token => cases second <;> simp [forPair, Both.toList, Denom.isNative]
  | native first =>
    cases second with
    | token => simp [forPair, Both.toList, Denom.isNative]
    | native second =>
      have hne : first ≠ second := fun h => hdistinct (congrArg Denom.native h)
      simp [forPair, Both.toList, Denom.isNative, Denom.text, hne]

namespace Pair

variable {p : Pair} {coin other : Coin} {calls more : List Instruction}

/-- What calls make a coin available to the pool: one if it is of a token, and not empty. -/
inductive Grants (p : Pair) (coin : Coin) : List Instruction → Prop where
  | nothing (idle : coin.denom.isNative = true ∨ coin.amount.isZero = true) : Grants p coin []
  | one {i : Instruction} (amount : coin.amount.isZero = false) (allows : i.Allows p.contract coin)
      (only : PairCall.ofJson? .value i.msg = none) : Grants p coin [i]

/-- Every coin is made available by such calls: none for a native or an empty one, else the call of
its token, which reads as it was made (`reads_tokenCall`). -/
theorem exists_grants (p : Pair) (coin : Coin) :
    ∃ calls, p.allowance coin = .ok calls ∧ p.Grants coin calls := by
  obtain ⟨amount, denom⟩ := coin
  cases denom with
  | native text => exact ⟨[], rfl, .nothing (Or.inl rfl)⟩
  | token token =>
    cases hzero : amount.isZero with
    | true => exact ⟨[], by simp [allowance, hzero], .nothing (Or.inr hzero)⟩
    | false =>
      let call := TokenCall.allow p.contract amount
      have hcall : p.allowance ⟨amount, .token token⟩ = .ok [⟨token, call.toJson.canonical, []⟩] := by
        simp only [allowance, hzero, Instruction.ofMessage_nil]
        rfl
      exact ⟨_, hcall, .one hzero ⟨rfl, (reads_tokenCall call).canonical, rfl⟩
        (PairCall.ofJson?_tokenCall .value call)⟩

/-- What the calls of a deposit carry: the pool is called last, with the native coins attached, and
each token is made available to it before. -/
structure Deposits (p : Pair) (amounts : Both Amount) (tolerance : Option BasisPoints)
    (receiver : Option Addr) (allowances : List Instruction) (deposit : Instruction) : Prop where
  contract : deposit.contract = p.contract
  told : PairCall.ofJson? .value deposit.msg = some (.provide tolerance receiver none)
  /-- No other call is one of a pair contract. -/
  only : ∀ i ∈ allowances, PairCall.ofJson? .value i.msg = none
  /-- What is attached are the native coins that are not empty. -/
  attached : ∀ coin, coin ∈ deposit.funds ↔ coin ∈ (Coin.forPair p.assets amounts).toList ∧
    coin.denom.isNative = true ∧ coin.amount.isZero = false
  /-- No coin is attached twice. -/
  ordered : deposit.funds.Pairwise fun a b => a.denom.text < b.denom.text
  /-- Every other call makes one of the coins available. -/
  allows : ∀ i ∈ allowances, ∃ coin ∈ (Coin.forPair p.assets amounts).toList,
    coin.amount.isZero = false ∧ i.Allows p.contract coin
  /-- Each coin of a token that is not empty is made available. -/
  allowed : ∀ coin ∈ (Coin.forPair p.assets amounts).toList, coin.denom.isNative = false →
    coin.amount.isZero = false → ∃ i ∈ allowances, i.Allows p.contract coin
  /-- No token is called twice. -/
  once : (allowances.map Instruction.contract).Nodup

/-- Every call that a coin takes makes just this coin available, and is no call of a pair. By the
cases of `Grants`. -/
theorem Grants.spec (h : p.Grants coin calls) : ∀ i ∈ calls,
    coin.amount.isZero = false ∧ i.Allows p.contract coin ∧ PairCall.ofJson? .value i.msg = none := by
  intro i hi
  cases h with
  | nothing => cases hi
  | one amount allows only =>
    obtain rfl := List.mem_singleton.1 hi
    exact ⟨amount, allows, only⟩

/-- A coin of a token that is not empty does take one. The other cases of `Grants` are excluded. -/
theorem Grants.exists_allows (h : p.Grants coin calls) (htoken : coin.denom.isNative = false)
    (hsome : coin.amount.isZero = false) : ∃ i ∈ calls, i.Allows p.contract coin := by
  cases h with
  | nothing idle =>
    rcases idle with hnative | hzero
    · rw [htoken] at hnative
      cases hnative
    · rw [hsome] at hzero
      cases hzero
  | one _ allows => exact ⟨_, List.mem_singleton_self _, allows⟩

theorem Grants.nodup (h : p.Grants coin calls) : (calls.map Instruction.contract).Nodup := by
  cases h with
  | nothing => exact List.nodup_nil
  | one => exact List.nodup_singleton _

/-- Coins of two denoms are not made available by calls of one token, as an instruction is sent to
the token that it is about (`Grants.spec`). -/
theorem Grants.disjoint (h : p.Grants coin calls) (hother : p.Grants other more)
    (hne : coin.denom ≠ other.denom) :
    (calls.map Instruction.contract).Disjoint (more.map Instruction.contract) := by
  intro token hcall hmore
  obtain ⟨i, hi, rfl⟩ := List.mem_map.1 hcall
  obtain ⟨j, hj, hsame⟩ := List.mem_map.1 hmore
  have hdenom := (h.spec i hi).2.1.denom
  have hdenom' := (hother.spec j hj).2.1.denom
  exact hne (by rw [hdenom, hdenom', hsame])

section Calls

variable {amounts : Both Amount} {tolerance : Option BasisPoints} {receiver : Option Addr}
  {first second : List Instruction}

/-- The call of the pool itself. -/
def lastCall (p : Pair) (amounts : Both Amount) (tolerance : Option BasisPoints)
    (receiver : Option Addr) : Instruction :=
  { contract := p.contract
    msg := (PairCall.provide tolerance receiver none).toJson.canonical
    funds := Instruction.arrange
      ((Coin.forPair p.assets amounts).toList.filter fun c => c.denom.isNative) }

/-- A deposit of something, at a tolerance that is not too high, is made into the calls for its
two coins and the call of the pool; with that the checks are behind
(`Instruction.ofMessage_of_native`). -/
theorem depositCalls_eq (hsome : amounts.first.isZero = false ∨ amounts.second.isZero = false)
    (hlow : ∀ t ∈ tolerance, t.val ≤ 5000)
    (hfirst : p.allowance (Coin.forPair p.assets amounts).first = .ok first)
    (hsecond : p.allowance (Coin.forPair p.assets amounts).second = .ok second) :
    p.depositCalls amounts tolerance receiver =
      .ok (first ++ second ++ [p.lastCall amounts tolerance receiver]) := by
  have hempty : (amounts.first.isZero && amounts.second.isZero) = false :=
    Bool.and_eq_false_iff.2 hsome
  have htolerance : checkTolerance tolerance = .ok () := by
    cases tolerance with
    | none => rfl
    | some t => exact if_pos (hlow t rfl)
  have hlast : Instruction.ofMessage p.contract (PairCall.provide tolerance receiver none).toJson
      ((Coin.forPair p.assets amounts).toList.filter fun c => c.denom.isNative) =
        .ok (p.lastCall amounts tolerance receiver) :=
    Instruction.ofMessage_of_native _ _ fun _ hc => (List.mem_filter.1 hc).2
  simp only [depositCalls, hempty, htolerance, hfirst, hsecond, hlast]
  rfl

/-- These calls carry the deposit. What is attached is read off `Instruction.mem_arrange`, its order
off `Instruction.pairwise_arrange`, and the rest off `Grants` for either coin. -/
theorem Grants.deposits (hfirst : p.Grants (Coin.forPair p.assets amounts).first first)
    (hsecond : p.Grants (Coin.forPair p.assets amounts).second second) :
    p.Deposits amounts tolerance receiver (first ++ second)
      (p.lastCall amounts tolerance receiver) where
  contract := rfl
  told := (reads_pairCall (.provide tolerance receiver none)).canonical
  only i hi := by
    rcases List.mem_append.1 hi with hi | hi
    · exact (hfirst.spec i hi).2.2
    · exact (hsecond.spec i hi).2.2
  attached coin := by
    rw [lastCall, Instruction.mem_arrange, List.mem_filter, and_assoc]
  ordered := Instruction.pairwise_arrange (Coin.nodup_native p.assets amounts)
  allows i hi := by
    rcases List.mem_append.1 hi with hi | hi
    · obtain ⟨hamount, hallows, -⟩ := hfirst.spec i hi
      exact ⟨_, List.mem_cons_self, hamount, hallows⟩
    · obtain ⟨hamount, hallows, -⟩ := hsecond.spec i hi
      exact ⟨_, List.mem_cons_of_mem _ List.mem_cons_self, hamount, hallows⟩
  allowed coin hcoin htoken hamount := by
    -- each of the two coins has its own grants, and the two tokens differ
    rcases List.mem_pair.1 hcoin with rfl | rfl
    · obtain ⟨i, hi, hallows⟩ := hfirst.exists_allows htoken hamount
      exact ⟨i, List.mem_append_left _ hi, hallows⟩
    · obtain ⟨i, hi, hallows⟩ := hsecond.exists_allows htoken hamount
      exact ⟨i, List.mem_append_right _ hi, hallows⟩
  once := by
    rw [List.map_append]
    exact hfirst.nodup.append hsecond.nodup (hfirst.disjoint hsecond p.assets.distinct)

end Calls

/-- A deposit that is not empty, at a tolerance that is not too high, is made into calls, and they
carry the deposit (`exists_grants`, `depositCalls_eq`). -/
theorem depositCalls_carry (p : Pair) {amounts : Both Amount} {tolerance : Option BasisPoints}
    (receiver : Option Addr)
    (hsome : amounts.first.isZero = false ∨ amounts.second.isZero = false)
    (hlow : ∀ t ∈ tolerance, t.val ≤ 5000) :
    ∃ allowances deposit,
      p.depositCalls amounts tolerance receiver = .ok (allowances ++ [deposit]) ∧
        p.Deposits amounts tolerance receiver allowances deposit := by
  obtain ⟨first, hfirst, hgrantsFirst⟩ := p.exists_grants (Coin.forPair p.assets amounts).first
  obtain ⟨second, hsecond, hgrantsSecond⟩ := p.exists_grants (Coin.forPair p.assets amounts).second
  exact ⟨first ++ second, p.lastCall amounts tolerance receiver,
    depositCalls_eq hsome hlow hfirst hsecond, hgrantsFirst.deposits hgrantsSecond⟩

/-! ### A token and a native coin -/

namespace Sample

def token : Addr := ⟨"mixedtoken", by decide, by decide⟩

def mixed : Pair :=
  { contract := ⟨"mixedpool", by decide, by decide⟩
    assets := ⟨.token token, .native "usei", by decide⟩
    name := "mixedtoken-usei"
    snapshot := ⟨.same .zero, .zero, .zero⟩ }

theorem depositCalls_carry_mixed :
    (∃ allowances deposit,
      mixed.depositCalls ⟨.ofUInt32 7, .ofUInt32 5⟩ (some BasisPoints.maxTolerance) none =
        .ok (allowances ++ [deposit]) ∧
      mixed.Deposits ⟨.ofUInt32 7, .ofUInt32 5⟩ (some BasisPoints.maxTolerance) none allowances
        deposit) ∧
    (mixed.depositCalls ⟨.ofUInt32 7, .ofUInt32 5⟩ (some BasisPoints.maxTolerance) none).map
      (fun calls => calls.map fun i => (i.contract, i.funds)) =
        .ok [(token, []), (mixed.contract, [⟨.ofUInt32 5, .native "usei"⟩])] := by
  refine ⟨depositCalls_carry mixed none (Or.inl rfl) ?_, by decide +kernel⟩
  intro t ht
  cases ht
  exact Nat.le_refl _

end Sample

end Pair

end PoolMarket
