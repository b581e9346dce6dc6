import PoolMarket.Config.Settings
import PoolMarket.Proofs.Wire.Messages

/-!
# Settings stay valid

Settings come from two contracts or from a text, and from other settings by a change. Whatever their
history they keep every rule, also over the one change that nothing is checked after, and their text
reads as the same settings.

* `Valid` — the rules, for a token and for settings; `check_eq_ok` says that checking is deciding
  them.
* `Made` — the ways to come by settings, as an inductive predicate; `Sound` is its invariant, the
  rules together with validated denoms.
* `reads_toJson`, `Sound.ofText_text` — the text reads back. It needs the denoms to be validated,
  which `Valid` alone does not say.
-/

namespace PoolMarket

open Json (Form Reads)

/-! ## The rules

Checks are run in an order and stop at the first breach. Which one is reported does not matter
here: that a check passes is that all rules are kept. -/

namespace TokenInfo

/-- The rules for what is known about a token. -/
structure Valid (t : TokenInfo) : Prop where
  named : t.symbol ≠ ""
  /-- A hyphen divides the two symbols in the name of a pair. -/
  hyphen_notMem : '-' ∉ t.symbol.toList
  decimals_le : t.decimals.toNat ≤ 18

/-- Checking a token decides its rules. By the guards of `TokenInfo.check`. -/
theorem check_eq_ok {t : TokenInfo} : t.check = .ok () ↔ t.Valid := by
  have hdecimals : ¬maxDecimals < t.decimals ↔ t.decimals.toNat ≤ 18 := by
    rw [UInt8.not_lt, UInt8.le_iff_toNat_le]
    rfl
  rw [check, Outcome.guard_eq_ok, Outcome.guard_eq_ok, not_or, String.isEmpty_iff,
    List.contains_iff_mem, hdecimals]
  exact ⟨fun ⟨⟨hnamed, hhyphen⟩, hle, _⟩ => ⟨hnamed, hhyphen, hle⟩,
    fun ⟨hnamed, hhyphen, hle⟩ => ⟨⟨hnamed, hhyphen⟩, hle, rfl⟩⟩

end TokenInfo

namespace Settings

/-- The rules for settings. -/
structure Valid (s : Settings) : Prop where
  contracts_ne : s.factory ≠ s.router
  slippage_le : s.defaultSlippage.val ≤ 5000
  warning_le : s.slippageWarning.val ≤ 10000
  pageSize_ne : s.pageSize ≠ 0
  denoms_nodup : (s.tokens.map TokenInfo.denom).Nodup
  tokens_valid : ∀ t ∈ s.tokens, t.Valid

/-- What has been seen grows by one denom with every token, so no later token has that denom. By
induction on the tokens, with those seen before generalized: a list passes if each token keeps its
rules, none has been seen, and no denom is repeated (`TokenInfo.check_eq_ok`). -/
theorem checkTokens_eq_ok {seen : List Denom} {tokens : List TokenInfo} :
    checkTokens seen tokens = .ok () ↔
      (∀ t ∈ tokens, t.Valid ∧ t.denom ∉ seen) ∧ (tokens.map TokenInfo.denom).Nodup := by
  induction tokens generalizing seen with
  | nil => simp [checkTokens]
  | cons t rest ih =>
    rw [checkTokens, Outcome.check_bind_eq_ok, TokenInfo.check_eq_ok, Outcome.guard_eq_ok, ih,
      List.forall_mem_cons, List.map_cons, List.nodup_cons]
    simp only [List.mem_cons, List.mem_map, not_or, not_exists, not_and]
    constructor
    · rintro ⟨hvalid, hnew, hrest, hnodup⟩
      exact ⟨⟨⟨hvalid, hnew⟩, fun u hu => ⟨(hrest u hu).1, (hrest u hu).2.2⟩⟩,
        fun u hu => (hrest u hu).2.1, hnodup⟩
    · rintro ⟨⟨⟨hvalid, hnew⟩, hrest⟩, hother, hnodup⟩
      exact ⟨hvalid, hnew, fun u hu => ⟨(hrest u hu).1, hother u hu, (hrest u hu).2⟩, hnodup⟩

/-- Checking settings decides their rules. The five checks are taken apart by
`Outcome.guard_bind_eq_ok`, and the tokens start with nothing seen (`checkTokens_eq_ok`). -/
theorem check_eq_ok {s : Settings} : s.check = .ok () ↔ s.Valid := by
  have hslippage : s.defaultSlippage.checkTolerance = .ok () ↔ s.defaultSlippage.val ≤ 5000 := by
    unfold BasisPoints.checkTolerance
    split
    · next h => exact ⟨fun _ => h, fun _ => rfl⟩
    · next h => exact ⟨nofun, fun hle => absurd hle h⟩
  have hwarning : ¬(!s.slippageWarning.isPercent) = true ↔ s.slippageWarning.val ≤ 10000 := by
    simp [BasisPoints.isPercent]
  unfold check
  dsimp only
  rw [Outcome.guard_bind_eq_ok, Outcome.check_bind_eq_ok, Outcome.guard_bind_eq_ok,
    Outcome.guard_bind_eq_ok, hslippage, hwarning, checkTokens_eq_ok]
  constructor
  · rintro ⟨hne, hle, hwarn, hpaged, htokens, hnodup⟩
    exact ⟨hne, hle, hwarn, hpaged, hnodup, fun t ht => (htokens t ht).1⟩
  · rintro ⟨hne, hle, hwarn, hpaged, hnodup, htokens⟩
    exact ⟨hne, hle, hwarn, hpaged, fun t ht => ⟨htokens t ht, nofun⟩, hnodup⟩

/-- Checked settings are those that were given, if these keep the rules (`Settings.check_eq_ok`). -/
theorem checked_eq_ok {s s' : Settings} : s.checked = .ok s' ↔ s.Valid ∧ s' = s := by
  rw [checked, Outcome.check_bind_eq_ok, check_eq_ok]
  exact and_congr_right fun _ => ⟨fun h => (Except.ok.inj h).symm, fun h => congrArg _ h.symm⟩

end Settings

/-! ## The text of settings

The reader has a default for most fields, and the writer writes all of them, so no default is ever
read back. What has to be shown of a text is only that its values read (`Json.Reads`) and that it
has no doubles (`Json.exact`). -/

variable {form : Form}

namespace Json

variable {α : Type} {read : Json → Option α}

/-- Each element of a list that was read comes from an item that reads as it. By induction on the
items, as `List.mapM` goes. -/
theorem exists_item_of_list? {j : Json} {xs : List α} (h : list? read j = some xs) :
    ∀ x ∈ xs, ∃ item, read item = some x := by
  cases j with
  | arr items =>
    rw [list?] at h
    induction items generalizing xs with
    | nil =>
      cases h
      intro x hx
      exact absurd hx List.not_mem_nil
    | cons item rest ih =>
      rw [List.mapM_cons] at h
      simp only [Option.bind_eq_bind, Option.bind_eq_some_iff] at h
      obtain ⟨y, hy, ys, hys, h⟩ := h
      cases h
      intro x hx
      rcases List.mem_cons.1 hx with rfl | hx
      · exact ⟨item, hy⟩
      · exact ih hys x hx
  | _ => cases h

end Json

/-- A denom that was read from JSON is validated: the only reader goes through `ofString`. -/
theorem Denom.validated_of_ofJson? {j : Json} {d : Denom} (h : ofJson? j = some d) :
    d.Validated := by
  unfold ofJson? at h
  simp only [Option.bind_eq_bind, Option.bind_eq_some_iff] at h
  obtain ⟨s, -, hs⟩ := h
  cases hread : ofString s with
  | error fault =>
    rw [hread] at hs
    cases hs
  | ok e =>
    rw [hread] at hs
    cases hs
    exact ⟨s, hread⟩

namespace TokenInfo

/-- So is the denom of a token that was read (`Denom.validated_of_ofJson?`). -/
theorem denom_validated_of_ofJson? {j : Json} {t : TokenInfo} (h : ofJson? j = some t) :
    t.denom.Validated := by
  unfold ofJson? at h
  simp only [Option.bind_eq_bind, Option.bind_eq_some_iff] at h
  obtain ⟨r, -, denom, hdenom, symbol, -, decimals, -, h⟩ := h
  cases h
  obtain ⟨i, -, hi⟩ := Option.bind_eq_some_iff.1 hdenom
  exact Denom.validated_of_ofJson? hi

/-- What is known about a token has a text of its own; its decimals are a small number
(`Json.exact_nat`). -/
theorem exact_toJson (t : TokenInfo) : t.toJson.exact = true := by
  have hdecimals := Json.exact_nat (Nat.lt_trans t.decimals.toNat_lt (by decide))
  simp [toJson, Json.exactMembers, Denom.toJson, hdecimals]

/-- It reads as it was written, if its denom does (`Json.record?_carry`, field by field). -/
theorem reads_toJson {t : TokenInfo} (h : t.denom.Validated) : Reads form ofJson? t.toJson t := by
  obtain ⟨r, hr, hfind⟩ := Json.record?_carry form ["denom", "symbol", "decimals"]
    [("denom", t.denom.toJson), ("symbol", .str t.symbol), ("decimals", .nat t.decimals.toNat)]
    (by simp)
  have hdenom := Json.Record.required_eq (hfind "denom" (by decide)) (reads_denom h)
  have hsymbol := Json.Record.required_eq (hfind "symbol" (by decide)) (Json.reads_str t.symbol)
  have hdecimals := Json.Record.required_eq (hfind "decimals" (by decide))
    (reads_uint8 t.decimals)
  unfold Reads ofJson? toJson
  rw [hr]
  simp only [Option.bind_eq_bind, Option.bind_some, hdenom, hsymbol, hdecimals]
  rfl

end TokenInfo

namespace Settings

/-- Settings have a text of their own: their numbers are of 32 and 64 bits, and the rest are strings
and tokens (`TokenInfo.exact_toJson`). -/
theorem exact_toJson (s : Settings) : s.toJson.exact = true := by
  have hslippage := Json.exact_nat (Nat.lt_trans s.defaultSlippage.lt (by decide))
  have hwarning := Json.exact_nat (Nat.lt_trans s.slippageWarning.lt (by decide))
  have hdebounce := Json.exact_nat s.quoteDebounce.toNat_lt
  have hpage := Json.exact_nat (Nat.lt_trans s.pageSize.toNat_lt (by decide))
  simp [toJson, Json.exactMembers, exact_addr, BasisPoints.toJson, hslippage, hwarning, hdebounce,
    hpage, Json.exact_ofList TokenInfo.exact_toJson]

/-- Every setting is written, so none is read as its default (`Json.Record.defaulted_eq`). Of the
tokens, the denoms have to be validated. -/
theorem reads_toJson {s : Settings} (h : ∀ t ∈ s.tokens, t.denom.Validated) :
    Reads form ofJson? s.toJson s := by
  obtain ⟨r, hr, hfind⟩ := Json.record?_carry form
    ["factory", "router", "default_slippage", "slippage_warning", "quote_debounce_ms",
      "factory_page_size", "tokens"]
    [("factory", s.factory.toJson), ("router", s.router.toJson),
      ("default_slippage", s.defaultSlippage.toJson),
      ("slippage_warning", s.slippageWarning.toJson),
      ("quote_debounce_ms", .nat s.quoteDebounce.toNat),
      ("factory_page_size", .nat s.pageSize.toNat),
      ("tokens", .ofList TokenInfo.toJson s.tokens)] (by simp)
  -- the two addresses have to be there, every other field has a default
  have hfactory := Json.Record.required_eq (hfind "factory" (by decide)) (reads_addr s.factory)
  have hrouter := Json.Record.required_eq (hfind "router" (by decide)) (reads_addr s.router)
  have hslippage := Json.Record.defaulted_eq standardSlippage
    (hfind "default_slippage" (by decide)) (reads_basisPoints s.defaultSlippage)
  have hwarning := Json.Record.defaulted_eq standardWarning
    (hfind "slippage_warning" (by decide)) (reads_basisPoints s.slippageWarning)
  have hdebounce := Json.Record.defaulted_eq standardDebounce
    (hfind "quote_debounce_ms" (by decide)) (reads_uint64 s.quoteDebounce)
  have hpage := Json.Record.defaulted_eq standardPageSize
    (hfind "factory_page_size" (by decide)) (reads_uint32 s.pageSize)
  have htokens := Json.Record.defaulted_eq [] (hfind "tokens" (by decide))
    (Json.reads_list fun t ht => TokenInfo.reads_toJson (h t ht))
  unfold Reads ofJson? toJson
  rw [hr]
  simp only [Option.bind_eq_bind, Option.bind_some, hfactory, hrouter, hslippage, hwarning,
    hdebounce, hpage, htokens]
  rfl

/-- The denoms of settings that were read are validated, whatever else they are; nothing has been
checked yet at this point (`exists_item_of_list?`). -/
theorem validated_of_ofJson? {j : Json} {s : Settings} (h : ofJson? j = some s) :
    ∀ t ∈ s.tokens, t.denom.Validated := by
  unfold ofJson? at h
  simp only [Option.bind_eq_bind, Option.bind_eq_some_iff] at h
  obtain ⟨r, -, factory, -, router, -, slippage, -, warning, -, debounce, -, pageSize, -, tokens,
    htokens, h⟩ := h
  cases h
  intro t ht
  unfold Json.Record.defaulted at htokens
  split at htokens
  · obtain ⟨item, hitem⟩ := Json.exists_item_of_list? htokens t ht
    exact TokenInfo.denom_validated_of_ofJson? hitem
  · -- no token is the default
    cases htokens
    cases ht

/-- A text is read as settings if it is JSON that reads as them and they keep the rules
(`checked_eq_ok`). -/
theorem ofText_eq_ok {text : String} {s : Settings} :
    ofText text = .ok s ↔ ∃ j, Json.ofText? text = some j ∧ ofJson? j = some s ∧ s.Valid := by
  unfold ofText
  cases Json.ofText? text with
  | none => simp
  | some j =>
    unfold load
    cases hread : ofJson? j with
    | none => simp [hread]
    | some s' =>
      simp only [checked_eq_ok, Option.some.injEq, exists_eq_left', hread]
      constructor
      · rintro ⟨hvalid, rfl⟩
        exact ⟨rfl, hvalid⟩
      · rintro ⟨rfl, hvalid⟩
        exact ⟨hvalid, rfl⟩

/-! ## Settings as they come about

`Made` follows a history: two ways to begin, and three changes. `Sound` is preserved by each, and
that is one lemma per constructor; only the wait before a quote is changed without a check. -/

/-- Settings that come from two contracts, from a text, or by a change, the denoms of new tokens
having been read. -/
inductive Made : Settings → Prop where
  | ofContracts {factory router : Addr} {s : Settings}
      (h : Settings.ofContracts factory router = .ok s) : Made s
  | ofText {text : String} {s : Settings} (h : Settings.ofText text = .ok s) : Made s
  | withTokens {s s' : Settings} {tokens : List TokenInfo} (made : Made s)
      (denoms : ∀ t ∈ tokens, t.denom.Validated) (h : s.withTokens tokens = .ok s') : Made s'
  | withDefaultSlippage {s s' : Settings} {slippage : BasisPoints} (made : Made s)
      (h : s.withDefaultSlippage slippage = .ok s') : Made s'
  | withQuoteDebounce {s : Settings} (milliseconds : Nat) (made : Made s) :
      Made (s.withQuoteDebounce milliseconds)

/-- Settings that keep every rule and whose denoms read as they are written. The second part makes
the invariant strong enough for the round trip. -/
structure Sound (s : Settings) : Prop extends s.Valid where
  denoms_validated : ∀ t ∈ s.tokens, t.denom.Validated

variable {s s' : Settings}

/-- Standard settings are checked, and name no tokens (`checked_eq_ok`). -/
theorem sound_of_ofContracts {factory router : Addr} (h : ofContracts factory router = .ok s) :
    s.Sound := by
  obtain ⟨hvalid, rfl⟩ := checked_eq_ok.1 h
  exact ⟨hvalid, nofun⟩

/-- Settings from a text are checked, and their denoms were read (`validated_of_ofJson?`). -/
theorem sound_of_ofText {text : String} (h : ofText text = .ok s) : s.Sound := by
  obtain ⟨j, -, hread, hvalid⟩ := ofText_eq_ok.1 h
  exact ⟨hvalid, validated_of_ofJson? hread⟩

/-- New tokens are checked together with all the rest; their denoms come from the caller
(`checked_eq_ok`). -/
theorem sound_of_withTokens {tokens : List TokenInfo}
    (hdenoms : ∀ t ∈ tokens, t.denom.Validated) (h : s.withTokens tokens = .ok s') : s'.Sound := by
  obtain ⟨hvalid, rfl⟩ := checked_eq_ok.1 h
  exact ⟨hvalid, hdenoms⟩

/-- Another tolerance is checked, and changes no token (`checked_eq_ok`). -/
theorem Sound.withDefaultSlippage {slippage : BasisPoints} (hs : s.Sound)
    (h : s.withDefaultSlippage slippage = .ok s') : s'.Sound := by
  obtain ⟨hvalid, rfl⟩ := checked_eq_ok.1 h
  exact ⟨hvalid, hs.denoms_validated⟩

/-- No rule is about the wait before a quote. So nothing is checked, and `Sound` is kept field by
field. -/
theorem Sound.withQuoteDebounce (hs : s.Sound) (milliseconds : Nat) :
    (s.withQuoteDebounce milliseconds).Sound where
  contracts_ne := hs.contracts_ne
  slippage_le := hs.slippage_le
  warning_le := hs.warning_le
  pageSize_ne := hs.pageSize_ne
  denoms_nodup := hs.denoms_nodup
  tokens_valid := hs.tokens_valid
  denoms_validated := hs.denoms_validated

/-- Whatever their history, settings are sound. By induction on it, one lemma for each way to come
by them (`sound_of_ofText` and the others). -/
theorem Made.sound (h : s.Made) : s.Sound := by
  induction h with
  | ofContracts h => exact sound_of_ofContracts h
  | ofText h => exact sound_of_ofText h
  | withTokens _ hdenoms h _ => exact sound_of_withTokens hdenoms h
  | withDefaultSlippage _ h ih => exact ih.withDefaultSlippage h
  | withQuoteDebounce milliseconds _ ih => exact ih.withQuoteDebounce milliseconds

/-- The text of sound settings reads as the same settings: it reads back as JSON
(`Json.ofText?_text`), as settings (`reads_toJson`), and these pass the check again. -/
theorem Sound.ofText_text (h : s.Sound) : ofText s.text = .ok s := by
  have hread : Reads .text ofJson? s.toJson s := reads_toJson h.denoms_validated
  exact ofText_eq_ok.2 ⟨s.toJson, Json.ofText?_text s.exact_toJson, hread, h.toValid⟩

/-- Settings keep every rule, whatever they come from, and their text reads as they are. However
they came about they are `Sound` (`Made.sound`), and sound settings have both. -/
theorem valid_and_ofText_text (h : s.Made) : s.Valid ∧ ofText s.text = .ok s :=
  ⟨h.sound.toValid, h.sound.ofText_text⟩

/-! ### Settings made of every kind of change

Two tokens with symbols that are escaped in part, another tolerance, and a wait that is cut to the
longest one that can be kept. -/

namespace Sample

/-- A coin and a token, their symbols with characters that JSON escapes and some it does not. -/
def tokens : List TokenInfo :=
  [⟨.native "usei", "\"SEI\"\n", 6⟩, ⟨.token Deployment.router, "Ω🜚\\", 18⟩]

def empty : Settings := .standard Deployment.factory Deployment.router

def known : Settings := { empty with tokens }

def tolerant : Settings := { known with defaultSlippage := .maxTolerance }

theorem made_tolerant : tolerant.Made := by
  have hcontracts : Settings.ofContracts Deployment.factory Deployment.router = .ok empty := by
    decide
  have hdenoms : ∀ t ∈ tokens, t.denom.Validated := by
    rintro t (_ | ⟨_, _ | ⟨_, ⟨⟩⟩⟩)
    · exact ⟨"usei", by decide⟩
    · exact ⟨_, Denom.ofString_token Deployment.router⟩
  have hknown : empty.withTokens tokens = .ok known := by decide
  have htolerant : known.withDefaultSlippage .maxTolerance = .ok tolerant := by decide
  exact ((Made.ofContracts hcontracts).withTokens hdenoms hknown).withDefaultSlippage htolerant

/-- The wait is longer than can be kept. -/
theorem ofText_text_patient :
    let patient := tolerant.withQuoteDebounce (Nat.pow 2 70)
    patient.Valid ∧ ofText patient.text = .ok patient ∧
      patient.quoteDebounce.toNat = 18446744073709551615 :=
  have h := valid_and_ofText_text (made_tolerant.withQuoteDebounce (Nat.pow 2 70))
  ⟨h.1, h.2, by decide +kernel⟩

end Sample

end Settings

end PoolMarket
