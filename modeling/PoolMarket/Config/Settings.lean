import PoolMarket.Config.Token
import PoolMarket.Json.Reader
import PoolMarket.Json.Writer

/-!
# Settings of a market

The contracts of a market and how it trades. Settings are checked when they are made, when they are
read and whenever one that could break a rule is changed.
-/

namespace PoolMarket

/-- The contracts of a market and how it trades. Nothing in the type keeps a rule; `check` does, and
all ways to come by settings go through it. -/
structure Settings where
  factory : Addr
  router : Addr
  /-- The slippage a trade tolerates at each hop unless it says otherwise. -/
  defaultSlippage : BasisPoints
  /-- The shortfall of a quote from which on it carries a warning. -/
  slippageWarning : BasisPoints
  /-- How long a quote waits for newer input, in milliseconds. -/
  quoteDebounce : UInt64
  /-- How many listings are asked of the factory at once. -/
  pageSize : UInt32
  tokens : List TokenInfo
  deriving DecidableEq, Repr

namespace Settings

def standardSlippage : BasisPoints := ⟨50, by decide⟩
def standardWarning : BasisPoints := ⟨50, by decide⟩
abbrev standardDebounce : UInt64 := 500
abbrev standardPageSize : UInt32 := 30

/-- Checks each token, and that no earlier one has its denom. -/
def checkTokens (seen : List Denom) : List TokenInfo → Outcome Unit
  | [] => .ok ()
  | t :: rest => do
    t.check
    if t.denom ∈ seen then .error (.invalidSetting .duplicateToken)
    else checkTokens (t.denom :: seen) rest

/-- The rules for settings, in the order in which a breach is reported. -/
def check (s : Settings) : Outcome Unit := do
  if s.factory = s.router then .error (.invalidSetting .sameContracts)
  s.defaultSlippage.checkTolerance
  if !s.slippageWarning.isPercent then .error (.invalidSetting .warningTooHigh)
  if s.pageSize = 0 then .error (.invalidSetting .emptyPages)
  checkTokens [] s.tokens

/-- Settings that keep the rules ask for pages of at least one listing, which is why paging ends
(`Coherent.servesPages`). -/
theorem pageSize_of_check {s : Settings} (h : s.check = .ok ()) : s.pageSize ≠ 0 := by
  unfold check at h
  dsimp only at h
  rw [Outcome.guard_bind_eq_ok, Outcome.check_bind_eq_ok, Outcome.guard_bind_eq_ok,
    Outcome.guard_bind_eq_ok] at h
  exact h.2.2.2.1

/-- The settings themselves, if they keep every rule. -/
def checked (s : Settings) : Outcome Settings := do
  s.check
  return s

/-- What two contracts are used with unless it is changed: no token is named. -/
def standard (factory router : Addr) : Settings :=
  { factory, router
    defaultSlippage := standardSlippage
    slippageWarning := standardWarning
    quoteDebounce := standardDebounce
    pageSize := standardPageSize
    tokens := [] }

/-- The standard settings for two contracts, if these are different. -/
def ofContracts (factory router : Addr) : Outcome Settings := checked (standard factory router)

/-- The settings with other tokens, checked again. -/
def withTokens (s : Settings) (tokens : List TokenInfo) : Outcome Settings :=
  checked { s with tokens }

/-- The settings with another tolerance, checked again. -/
def withDefaultSlippage (s : Settings) (slippage : BasisPoints) : Outcome Settings :=
  checked { s with defaultSlippage := slippage }

/-- Changes the wait before a quote; a longer one than can be kept counts as the longest. -/
def withQuoteDebounce (s : Settings) (milliseconds : Nat) : Settings :=
  { s with quoteDebounce := UInt64.ofNat (min milliseconds (UInt64.size - 1)) }

def toJson (s : Settings) : Json :=
  .obj [("factory", s.factory.toJson), ("router", s.router.toJson),
    ("default_slippage", s.defaultSlippage.toJson),
    ("slippage_warning", s.slippageWarning.toJson),
    ("quote_debounce_ms", .nat s.quoteDebounce.toNat),
    ("factory_page_size", .nat s.pageSize.toNat),
    ("tokens", .ofList TokenInfo.toJson s.tokens)]

def ofJson? (j : Json) : Option Settings := do
  let r ← j.record? ["factory", "router", "default_slippage", "slippage_warning",
    "quote_debounce_ms", "factory_page_size", "tokens"]
  let factory ← r.required "factory" Addr.ofJson?
  let router ← r.required "router" Addr.ofJson?
  let defaultSlippage ← r.defaulted "default_slippage" standardSlippage BasisPoints.ofJson?
  let slippageWarning ← r.defaulted "slippage_warning" standardWarning BasisPoints.ofJson?
  let quoteDebounce ← r.defaulted "quote_debounce_ms" standardDebounce Json.uint64?
  let pageSize ← r.defaulted "factory_page_size" standardPageSize Json.uint32?
  let tokens ← r.defaulted "tokens" [] (Json.list? TokenInfo.ofJson?)
  return { factory, router, defaultSlippage, slippageWarning, quoteDebounce, pageSize, tokens }

/-- Settings from a value, checked after they are read. -/
def load (j : Json) : Outcome Settings :=
  match ofJson? j with
  | some s => s.checked
  | none => .error .malformedJson

/-- Settings from a text. What is not JSON and what does not read as settings is one fault, a broken
rule another. -/
def ofText (s : String) : Outcome Settings :=
  match Json.ofText? s with
  | some j => load j
  | none => .error .malformedJson

/-- The text of settings, with every field written out. -/
def text (s : Settings) : String := s.toJson.text

end Settings

end PoolMarket
