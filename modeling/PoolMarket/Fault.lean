/-!
# Faults

Everything that can go wrong, as causes. The wording of each cause stands in one `message`
function; no other module writes error text.
-/

namespace PoolMarket

/-- Why a pair of fees is refused. -/
inductive FeeFault where
  | totalOverflows
  | overHundredPercent
  | makerOverTotal
  | tooWide
  deriving DecidableEq, Repr

def FeeFault.message : FeeFault → String
  | .totalOverflows => "total fee overflows"
  | .overHundredPercent => "total fee exceeds 100%"
  | .makerOverTotal => "maker fee exceeds total fee"
  | .tooWide => "fee exceeds u16"

/-- Why an amount is refused. -/
inductive AmountFault where
  | notDecimal
  | emptyOffer
  | emptyDeposit
  | emptyWithdrawal
  | firstDepositTooSmall
  | overSupply
  | noSwappers
  deriving DecidableEq, Repr

def AmountFault.message : AmountFault → String
  | .notDecimal => "amount must be a decimal integer"
  | .emptyOffer => "offer must be non-zero"
  | .emptyDeposit => "deposit must not be empty"
  | .emptyWithdrawal => "no shares to withdraw"
  | .firstDepositTooSmall => "first deposit must mint at least 1000 shares"
  | .overSupply => "shares exceed supply"
  | .noSwappers => "no swappers given"

/-- Why a setting is refused, or a new contract. -/
inductive SettingFault where
  | malformedDecimal
  | decimalTooFine
  | toleranceTooHigh
  | warningTooHigh
  | emptyPages
  | sameContracts
  | tokenSymbol
  | tokenDecimals
  | duplicateToken
  | addressTaken
  | alreadyListed
  deriving DecidableEq, Repr

def SettingFault.message : SettingFault → String
  | .malformedDecimal => "malformed decimal"
  | .decimalTooFine => "decimal is finer than one basis point"
  | .toleranceTooHigh => "slippage tolerance exceeds the maximum allowed tolerance"
  | .warningTooHigh => "slippage warning must be 0..=10000 bps"
  | .emptyPages => "factory page size must be non-zero"
  | .sameContracts => "factory and router must be different contracts"
  | .tokenSymbol => "token symbol must be non-empty and free of '-'"
  | .tokenDecimals => "token decimals must be 0..=18"
  | .duplicateToken => "duplicate token denom"
  | .addressTaken => "contract address taken"
  | .alreadyListed => "pair already listed"

/-- Which result does not fit its range. -/
inductive OverflowFault where
  | amountText
  | sum
  | product
  | ratio
  | basisPointsProduct
  | decimalWhole
  | decimalTotal
  | slippage
  deriving DecidableEq, Repr

def OverflowFault.message : OverflowFault → String
  | .amountText => "amount exceeds u128"
  | .sum => "amount addition overflow"
  | .product => "amount multiplication overflow"
  | .ratio => "mul_div result exceeds u128"
  | .basisPointsProduct => "basis points apply overflow"
  | .decimalWhole => "decimal whole part exceeds u32"
  | .decimalTotal => "decimal exceeds u32 basis points"
  | .slippage => "slippage bps"

/-- Why a contract did not answer a query, or not usably. -/
inductive Refusal where
  | unsupportedQuery
  | unexpectedReply
  | unavailable
  | noContract
  /-- The node's own words, or the message of the fault the contract met. -/
  | because (reason : String)
  deriving DecidableEq, Repr

def Refusal.message : Refusal → String
  | .unsupportedQuery => "unsupported query"
  | .unexpectedReply => "unexpected response"
  | .unavailable => "node unavailable"
  | .noContract => "no contract at this address"
  | .because reason => reason

/-- Everything an operation of the library can fail with. -/
inductive Fault where
  | invalidDenom (denom : String) (expected : List String)
  | invalidAddress (text : String)
  | pairNotFound (first second : String)
  | noRoute (source target : String)
  | sameAsset (denom : String)
  | executionFailed (code : UInt32) (txHash : Option String) (log : String)
  | query (contract : String) (refusal : Refusal)
  | malformedJson
  | overflow (what : OverflowFault)
  | underflow
  | divisionByZero
  | zeroReserve
  | invalidFee (why : FeeFault)
  | invalidAmount (why : AmountFault)
  | invalidSetting (why : SettingFault)
  | pairMismatch (contract : String)
  deriving DecidableEq, Repr

def Fault.message : Fault → String
  | .invalidDenom denom expected =>
    "invalid denom `" ++ denom ++ "`, expected one of [" ++ ", ".intercalate expected ++ "]"
  | .invalidAddress text => "invalid address `" ++ text ++ "`"
  | .pairNotFound first second => "no pair registered for " ++ first ++ " / " ++ second
  | .noRoute source target => "no route from " ++ source ++ " to " ++ target
  | .sameAsset denom => "cannot swap " ++ denom ++ " into itself"
  | .executionFailed code _ log =>
    "transaction failed with code " ++ toString code.toNat ++ ": " ++ log
  | .query contract refusal => "query to " ++ contract ++ " failed: " ++ refusal.message
  | .malformedJson => "serialization error"
  | .overflow what => "arithmetic overflow: " ++ what.message
  | .underflow => "arithmetic underflow: amount subtraction underflow"
  | .divisionByZero => "division by zero"
  | .zeroReserve => "zero reserve"
  | .invalidFee why => "invalid fee: " ++ why.message
  | .invalidAmount why => "invalid amount: " ++ why.message
  | .invalidSetting why => "invalid configuration: " ++ why.message
  | .pairMismatch contract =>
    "pair " ++ contract ++ " reports denoms that do not match its listing"

/-- What an operation comes to: its result, or the fault that it met. -/
abbrev Outcome (α : Type) := Except Fault α

/-- Two operations in a row succeed where the first does and the second does with its result. Every
computation in this library is taken apart by this, step by step, without unfolding the monad.
Rewriting with `Outcome.bind_eq_ok` leaves an existential for every intermediate result. -/
theorem Outcome.bind_eq_ok {α β : Type} {x : Outcome α} {f : α → Outcome β} {b : β} :
    (x >>= f) = .ok b ↔ ∃ a, x = .ok a ∧ f a = .ok b := by
  cases x with
  | ok a => simp [bind, Except.bind]
  | error fault => simp [bind, Except.bind]

/-- What comes after a check succeeds where both do: `bind_eq_ok`, for a check without a result of
its own. -/
theorem Outcome.check_bind_eq_ok {α : Type} {check : Outcome Unit} {next : Unit → Outcome α} {a : α} :
    (check >>= next) = .ok a ↔ check = .ok () ∧ next () = .ok a := by
  rw [bind_eq_ok]
  exact ⟨fun ⟨_, hcheck, hnext⟩ => ⟨hcheck, hnext⟩, fun ⟨hcheck, hnext⟩ => ⟨(), hcheck, hnext⟩⟩

section Guard

variable {α : Type} {broken : Prop} [Decidable broken] {fault : Fault} {x y : Outcome α} {a : α}

/-- What comes behind a rule succeeds where the rule is kept and it does. With `check_bind_eq_ok`
this inverts a list of rules in one rewriting. -/
theorem Outcome.guard_eq_ok :
    (if broken then .error fault else y) = .ok a ↔ ¬broken ∧ y = .ok a := by
  split
  · next h => exact ⟨nofun, fun hkept => absurd h hkept.1⟩
  · next h => exact ⟨fun hy => ⟨h, hy⟩, And.right⟩

/-- The same for a rule in the form that `do` notation gives it. -/
theorem Outcome.guard_bind_eq_ok :
    (if broken then do .error fault; x else y) = .ok a ↔ ¬broken ∧ y = .ok a :=
  guard_eq_ok

end Guard

theorem Outcome.exists_error {α : Type} {x : Outcome α} (h : ∀ a, x ≠ .ok a) :
    ∃ fault, x = .error fault := by
  cases x with
  | error fault => exact ⟨fault, rfl⟩
  | ok a => exact absurd rfl (h a)

end PoolMarket
