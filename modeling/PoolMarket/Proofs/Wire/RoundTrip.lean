import PoolMarket.Proofs.Amount.Decimal
import PoolMarket.Proofs.Asset.Validated
import PoolMarket.Proofs.BasisPoints
import PoolMarket.Proofs.Json.FreeForm
import PoolMarket.Proofs.Text
import PoolMarket.Wire.Factory
import PoolMarket.Wire.Instruction
import PoolMarket.Wire.PairContract
import PoolMarket.Wire.Router
import PoolMarket.Wire.Token

/-!
# Messages that arrive as they were sent

Questions, calls and replies travel as text or in free form. In both forms each reads as it was
written, as long as its denoms are validated.

There is one lemma `reads_*` for each type, all of the same shape: plain values rest on the round
trip of their texts; records take their fields from `Json.record?_carry`, each with the lemma for
its kind of field; variants are records behind a name (`variant?_ofVariant`, `record?_variant`). The
form is a variable throughout, so that nothing is proved twice.
-/

namespace PoolMarket

open Json (Form Reads)

variable {form : Form}

/-! ## Plain values

A plain value is a string or a number, which no form changes. What is left is that the text or the
number is read as the value it was written from. -/

theorem carry_str (s : String) : form.carry (.str s) = .str s := by
  cases form <;> rfl

theorem carry_nat (n : Nat) : form.carry (.nat n) = .nat n := by
  cases form <;> rfl

/-- An amount arrives: its digits read back (`Amount.ofString_text`). -/
theorem reads_amount (a : Amount) : Reads form Amount.ofJson? a.toJson a := by
  rw [Reads, Amount.toJson, carry_str]
  show (Amount.ofString a.text).toOption = some a
  rw [Amount.ofString_text]
  rfl

/-- An address arrives: its text is one (`Addr.ofString?_text`). -/
theorem reads_addr (a : Addr) : Reads form Addr.ofJson? a.toJson a := by
  rw [Reads, Addr.toJson, carry_str]
  exact Addr.ofString?_text a

/-- A denom arrives if it is validated, so that its text reads as it. A native coin that was made
from some other text would be refused, or read as a token (`Validated.ofString_text`). -/
theorem reads_denom {d : Denom} (h : d.Validated) : Reads form Denom.ofJson? d.toJson d := by
  rw [Reads, Denom.toJson, carry_str]
  show (Denom.ofString d.text).toOption = some d
  rw [h.ofString_text]
  rfl

/-- A number below 256 arrives, as every number within its width does; the four widths differ only
in their bound (`carry_nat`). -/
theorem reads_uint8 (n : UInt8) : Reads form Json.uint8? (.nat n.toNat) n := by
  have hnat : (Json.nat n.toNat).natBelow? UInt8.size = some n.toNat := if_pos n.toNat_lt
  rw [Reads, carry_nat, Json.uint8?, hnat, Option.map_some, UInt8.ofNat_toNat]

theorem reads_uint16 (n : UInt16) : Reads form Json.uint16? (.nat n.toNat) n := by
  have hnat : (Json.nat n.toNat).natBelow? UInt16.size = some n.toNat := if_pos n.toNat_lt
  rw [Reads, carry_nat, Json.uint16?, hnat, Option.map_some, UInt16.ofNat_toNat]

theorem reads_uint32 (n : UInt32) : Reads form Json.uint32? (.nat n.toNat) n := by
  have hnat : (Json.nat n.toNat).natBelow? UInt32.size = some n.toNat := if_pos n.toNat_lt
  rw [Reads, carry_nat, Json.uint32?, hnat, Option.map_some, UInt32.ofNat_toNat]

theorem reads_uint64 (n : UInt64) : Reads form Json.uint64? (.nat n.toNat) n := by
  have hnat : (Json.nat n.toNat).natBelow? UInt64.size = some n.toNat := if_pos n.toNat_lt
  rw [Reads, carry_nat, Json.uint64?, hnat, Option.map_some, UInt64.ofNat_toNat]

/-- Basis points arrive as a number, which fits their 32 bits (`carry_nat`). -/
theorem reads_basisPoints (b : BasisPoints) : Reads form BasisPoints.ofJson? b.toJson b := by
  have hnat : (Json.nat b.val).natBelow? BasisPoints.size = some b.val := if_pos b.lt
  rw [Reads, BasisPoints.toJson, carry_nat, BasisPoints.ofJson?, hnat]
  exact dif_pos b.lt

/-- Basis points arrive as a decimal fraction too (`BasisPoints.ofDecimal_decimal`). -/
theorem reads_decimal (b : BasisPoints) :
    Reads form BasisPoints.ofDecimalJson? b.toDecimalJson b := by
  rw [Reads, BasisPoints.toDecimalJson, carry_str]
  show (BasisPoints.ofDecimal b.decimal).toOption = some b
  rw [BasisPoints.ofDecimal_decimal]
  rfl

/-- Bytes arrive through base64 (`Base64.decode?_encode`). -/
theorem reads_payload (p : Payload) : Reads form Payload.ofJson? p.toJson p := by
  rw [Reads, Payload.toJson, carry_str]
  show Payload.ofBase64? p.base64 = some p
  rw [Payload.ofBase64?, Payload.base64, String.toList_ofList, Base64.decode?_encode]
  rfl

theorem reads_strings (b : Both String) : Reads form (Json.both? Json.string?) (.ofBoth .str b) b :=
  Json.reads_both (Json.reads_str _) (Json.reads_str _)

/-! ## Records

Every proof in this section finds the fields by `Json.record?_carry` and reads them one after the
other. The names of a record differ, which that lemma asks for and `decide` or `simp` shows. -/

/-- A coin arrives if its denom is validated (`reads_denom`). -/
theorem reads_coin {c : Coin} (h : c.denom.Validated) : Reads form Coin.ofJson? c.toJson c := by
  obtain ⟨r, hr, hfind⟩ := Json.record?_carry form ["denom", "amount"]
    [("denom", c.denom.toJson), ("amount", c.amount.toJson)] (by simp)
  have hdenom := Json.Record.required_eq (hfind "denom" (by decide)) (reads_denom h)
  have hamount := Json.Record.required_eq (hfind "amount" (by decide)) (reads_amount c.amount)
  unfold Reads Coin.ofJson? Coin.toJson
  rw [hr]
  simp only [Option.bind_eq_bind, Option.bind_some, hdenom, hamount]
  rfl

theorem reads_coins {b : Both Coin} (hfirst : b.first.denom.Validated)
    (hsecond : b.second.denom.Validated) :
    Reads form (Json.both? Coin.ofJson?) (.ofBoth Coin.toJson b) b :=
  Json.reads_both (reads_coin hfirst) (reads_coin hsecond)

/-- A listing arrives with its two texts unread, so denoms that do not parse are no matter here
(`reads_strings`). -/
theorem reads_listing (l : Listing) : Reads form Listing.ofJson? l.toJson l := by
  obtain ⟨r, hr, hfind⟩ := Json.record?_carry form ["pair", "address"]
    [("pair", .ofBoth .str l.pair), ("address", l.contract.toJson)] (by simp)
  have hpair := Json.Record.required_eq (hfind "pair" (by decide)) (reads_strings l.pair)
  have hcontract := Json.Record.required_eq (hfind "address" (by decide)) (reads_addr l.contract)
  unfold Reads Listing.ofJson? Listing.toJson
  rw [hr]
  simp only [Option.bind_eq_bind, Option.bind_some, hpair, hcontract]
  rfl

/-- What a pair reports of itself arrives, whatever its fees are (`Record.required_eq`, field by
field). -/
theorem reads_pairConfig (c : PairConfig) : Reads form PairConfig.ofJson? c.toJson c := by
  obtain ⟨r, hr, hfind⟩ := Json.record?_carry form
    ["admin", "fee_receiver", "total_fee_bps", "maker_fee_bps", "endorsed"]
    [("admin", c.admin.toJson), ("fee_receiver", c.feeReceiver.toJson),
      ("total_fee_bps", .nat c.totalFee.toNat), ("maker_fee_bps", .nat c.makerFee.toNat),
      ("endorsed", .bool c.endorsed)] (by simp)
  -- the fields are read one by one, and then the record is put together
  have hadmin := Json.Record.required_eq (hfind "admin" (by decide)) (reads_addr c.admin)
  have hreceiver := Json.Record.required_eq (hfind "fee_receiver" (by decide))
    (reads_addr c.feeReceiver)
  have htotal := Json.Record.required_eq (hfind "total_fee_bps" (by decide))
    (reads_uint16 c.totalFee)
  have hmaker := Json.Record.required_eq (hfind "maker_fee_bps" (by decide))
    (reads_uint16 c.makerFee)
  have hendorsed := Json.Record.required_eq (hfind "endorsed" (by decide))
    (Json.reads_bool c.endorsed)
  unfold Reads PairConfig.ofJson? PairConfig.toJson
  rw [hr]
  simp only [Option.bind_eq_bind, Option.bind_some, hadmin, hreceiver, htotal, hmaker, hendorsed]
  rfl

/-- The preview of a deposit arrives if the denoms of its coins are validated (`reads_coins`). -/
theorem reads_depositPreview {d : DepositPreview} (hfirst : d.value.first.denom.Validated)
    (hsecond : d.value.second.denom.Validated) : Reads form DepositPreview.ofJson? d.toJson d := by
  obtain ⟨r, hr, hfind⟩ := Json.record?_carry form ["share_amount", "share_value"]
    [("share_amount", d.shares.toJson), ("share_value", .ofBoth Coin.toJson d.value)] (by simp)
  have hshares := Json.Record.required_eq (hfind "share_amount" (by decide)) (reads_amount d.shares)
  have hvalue := Json.Record.required_eq (hfind "share_value" (by decide))
    (reads_coins hfirst hsecond)
  unfold Reads DepositPreview.ofJson? DepositPreview.toJson
  rw [hr]
  simp only [Option.bind_eq_bind, Option.bind_some, hshares, hvalue]
  rfl

/-- What a trade through several pairs would bring arrives if its denom is validated
(`reads_denom`). -/
theorem reads_routedResult {s : RoutedResult} (h : s.denom.Validated) :
    Reads form RoutedResult.ofJson? s.toJson s := by
  obtain ⟨r, hr, hfind⟩ := Json.record?_carry form ["result_denom", "result_amount", "slip_amount"]
    [("result_denom", s.denom.toJson), ("result_amount", s.amount.toJson),
      ("slip_amount", s.slip.toJson)] (by simp)
  have hdenom := Json.Record.required_eq (hfind "result_denom" (by decide)) (reads_denom h)
  have hamount := Json.Record.required_eq (hfind "result_amount" (by decide))
    (reads_amount s.amount)
  have hslip := Json.Record.required_eq (hfind "slip_amount" (by decide)) (reads_amount s.slip)
  unfold Reads RoutedResult.ofJson? RoutedResult.toJson
  rw [hr]
  simp only [Option.bind_eq_bind, Option.bind_some, hdenom, hamount, hslip]
  rfl

/-- An expectation arrives, with its tolerance as a decimal fraction (`reads_decimal`). -/
theorem reads_expectation (e : Expectation) : Reads form Expectation.ofJson? e.toJson e := by
  obtain ⟨r, hr, hfind⟩ := Json.record?_carry form ["expected_amount", "slippage_tolerance"]
    [("expected_amount", e.amount.toJson), ("slippage_tolerance", e.tolerance.toDecimalJson)]
    (by simp)
  have hamount := Json.Record.required_eq (hfind "expected_amount" (by decide))
    (reads_amount e.amount)
  have htolerance := Json.Record.required_eq (hfind "slippage_tolerance" (by decide))
    (reads_decimal e.tolerance)
  unfold Reads Expectation.ofJson? Expectation.toJson
  rw [hr]
  simp only [Option.bind_eq_bind, Option.bind_some, hamount, htolerance]
  rfl

theorem reads_swapResult (s : SwapResult) : Reads form SwapResult.ofJson? s.toJson s := by
  obtain ⟨r, hr, hfind⟩ := Json.record?_carry form
    ["result_amount", "spread_amount", "total_fee_amount", "maker_fee_amount"]
    [("result_amount", s.paid.toJson), ("spread_amount", s.spread.toJson),
      ("total_fee_amount", s.totalFee.toJson), ("maker_fee_amount", s.makerFee.toJson)] (by simp)
  have hpaid := Json.Record.required_eq (hfind "result_amount" (by decide)) (reads_amount s.paid)
  have hspread := Json.Record.required_eq (hfind "spread_amount" (by decide))
    (reads_amount s.spread)
  have htotal := Json.Record.required_eq (hfind "total_fee_amount" (by decide))
    (reads_amount s.totalFee)
  have hmaker := Json.Record.required_eq (hfind "maker_fee_amount" (by decide))
    (reads_amount s.makerFee)
  unfold Reads SwapResult.ofJson? SwapResult.toJson
  rw [hr]
  simp only [Option.bind_eq_bind, Option.bind_some, hpaid, hspread, htotal, hmaker]
  rfl

theorem reads_naiveResult (s : NaiveResult) : Reads form NaiveResult.ofJson? s.toJson s := by
  obtain ⟨r, hr, hfind⟩ := Json.record?_carry form
    ["result_amount", "total_fee_amount", "maker_fee_amount"]
    [("result_amount", s.paid.toJson), ("total_fee_amount", s.totalFee.toJson),
      ("maker_fee_amount", s.makerFee.toJson)] (by simp)
  have hpaid := Json.Record.required_eq (hfind "result_amount" (by decide)) (reads_amount s.paid)
  have htotal := Json.Record.required_eq (hfind "total_fee_amount" (by decide))
    (reads_amount s.totalFee)
  have hmaker := Json.Record.required_eq (hfind "maker_fee_amount" (by decide))
    (reads_amount s.makerFee)
  unfold Reads NaiveResult.ofJson? NaiveResult.toJson
  rw [hr]
  simp only [Option.bind_eq_bind, Option.bind_some, hpaid, htotal, hmaker]
  rfl

/-- A receipt arrives. Its fields have defaults, which are never used here because all of them are
written (`Json.Record.defaulted_eq`). -/
theorem reads_receipt (t : Receipt) : Reads form Receipt.ofJson? t.toJson t := by
  obtain ⟨r, hr, hfind⟩ := Json.record?_carry form ["code", "tx_hash", "raw_log", "gas_used"]
    [("code", .nat t.code.toNat), ("tx_hash", .ofOption .str t.txHash), ("raw_log", .str t.log),
      ("gas_used", .nat t.gasUsed.toNat)] (by simp)
  have hcode := Json.Record.required_eq (hfind "code" (by decide)) (reads_uint32 t.code)
  have hhash := Json.Record.defaulted_eq none (hfind "tx_hash" (by decide))
    (Json.nullable?_eq fun s (_ : t.txHash = some s) => ⟨Json.reads_str s, nofun⟩)
  have hlog := Json.Record.defaulted_eq "" (hfind "raw_log" (by decide))
    (Json.reads_str t.log)
  have hgas := Json.Record.defaulted_eq 0 (hfind "gas_used" (by decide))
    (reads_uint64 t.gasUsed)
  unfold Reads Receipt.ofJson? Receipt.toJson
  rw [hr]
  simp only [Option.bind_eq_bind, Option.bind_some, hcode, hhash, hlog, hgas]
  rfl

/-! ## Variants

A variant is an object with one member, and in either form still is. Its fields are read like those
of a record once it is known that a free-form value names them (`record?_variant`). -/

theorem variant?_ofVariant (name : String) (fields : List (String × Json)) :
    (form.carry (.ofVariant name fields)).variant? =
      some ⟨name, some (form.carry (.obj fields))⟩ := by
  cases form <;> rfl

/-- The fields of a variant are those of a record: it is written with named fields, and these may be
read in both forms (`Json.canonical`). -/
theorem record?_variant (name : String) (fields : List (String × Json)) (names : List String) :
    (Json.Variant.mk name (some (form.carry (.obj fields)))).record? form names =
      (form.carry (.obj fields)).record? names := by
  cases form with
  | text => rfl
  | value =>
    rw [Form.carry, Json.canonical]
    rfl

/-- A question to the factory reads as it was asked (`Record.optional_eq`). -/
theorem reads_factoryQuery (q : FactoryQuery) :
    Reads form (FactoryQuery.ofJson? form) q.toJson q := by
  obtain ⟨startAfter, limit⟩ := q
  obtain ⟨r, hr, hfind⟩ := Json.record?_carry form ["start_after", "limit"]
    [("start_after", .ofOption (.ofBoth .str) startAfter),
      ("limit", .ofOption (fun n : UInt32 => .nat n.toNat) limit)] (by simp)
  have hafter := Json.Record.optional_eq (hfind "start_after" (by decide))
    fun b _ => ⟨reads_strings b, nofun⟩
  have hlimit := Json.Record.optional_eq (hfind "limit" (by decide))
    fun n _ => ⟨reads_uint32 n, nofun⟩
  unfold Reads FactoryQuery.ofJson? FactoryQuery.toJson
  simp only [variant?_ofVariant, Option.bind_eq_bind, Option.bind_some, record?_variant, hr, hafter,
    hlimit]
  rfl

/-- A question to the router reads as it was asked, if its denom is validated (`reads_coin`). -/
theorem reads_routerQuery {offer : Coin} (h : offer.denom.Validated) (swappers : List Addr) :
    Reads form (RouterQuery.ofJson? form) (RouterQuery.preview offer swappers).toJson
      (.preview offer swappers) := by
  obtain ⟨r, hr, hfind⟩ := Json.record?_carry form ["offer", "swappers"]
    [("offer", offer.toJson), ("swappers", .ofList Addr.toJson swappers)] (by simp)
  have hoffer := Json.Record.required_eq (hfind "offer" (by decide)) (reads_coin h)
  have hswappers := Json.Record.required_eq (hfind "swappers" (by decide))
    (Json.reads_list fun a (_ : a ∈ swappers) => reads_addr a)
  unfold Reads RouterQuery.ofJson? RouterQuery.toJson
  simp only [variant?_ofVariant, Option.bind_eq_bind, Option.bind_some, record?_variant, hr, hoffer,
    hswappers]
  rfl

/-- A call of the router reads as it was made (`reads_expectation`). -/
theorem reads_routerCall (c : RouterCall) : Reads form (RouterCall.ofJson? form) c.toJson c := by
  obtain ⟨swappers, tolerance, expectation, unwrapper, receiver⟩ := c
  obtain ⟨r, hr, hfind⟩ := Json.record?_carry form
    ["swappers", "intermediate_slippage_tolerance", "expectation", "unwrapper", "receiver"]
    [("swappers", .ofList Addr.toJson swappers),
      ("intermediate_slippage_tolerance", .ofOption BasisPoints.toDecimalJson tolerance),
      ("expectation", .ofOption Expectation.toJson expectation),
      ("unwrapper", .ofOption Addr.toJson unwrapper),
      ("receiver", .ofOption Addr.toJson receiver)] (by simp)
  have hswappers := Json.Record.required_eq (hfind "swappers" (by decide))
    (Json.reads_list fun a (_ : a ∈ swappers) => reads_addr a)
  have htolerance := Json.Record.optional_eq
    (hfind "intermediate_slippage_tolerance" (by decide)) fun b _ => ⟨reads_decimal b, nofun⟩
  have hexpectation := Json.Record.optional_eq (hfind "expectation" (by decide))
    fun e _ => ⟨reads_expectation e, nofun⟩
  have hunwrapper := Json.Record.optional_eq (hfind "unwrapper" (by decide))
    fun a _ => ⟨reads_addr a, nofun⟩
  have hreceiver := Json.Record.optional_eq (hfind "receiver" (by decide))
    fun a _ => ⟨reads_addr a, nofun⟩
  unfold Reads RouterCall.ofJson? RouterCall.toJson
  simp only [variant?_ofVariant, Option.bind_eq_bind, Option.bind_some, record?_variant, hr,
    hswappers, htolerance, hexpectation, hunwrapper, hreceiver]
  rfl

/-- A call of a token contract reads as it was made, a payload included (`reads_payload`). -/
theorem reads_tokenCall (c : TokenCall) : Reads form (TokenCall.ofJson? form) c.toJson c := by
  unfold Reads TokenCall.ofJson? TokenCall.toJson
  cases c with
  | send contract amount message =>
    obtain ⟨r, hr, hfind⟩ := Json.record?_carry form ["contract", "amount", "msg"]
      [("contract", contract.toJson), ("amount", amount.toJson), ("msg", message.toJson)] (by simp)
    have hcontract := Json.Record.required_eq (hfind "contract" (by decide)) (reads_addr contract)
    have hamount := Json.Record.required_eq (hfind "amount" (by decide)) (reads_amount amount)
    have hmessage := Json.Record.required_eq (hfind "msg" (by decide)) (reads_payload message)
    simp only [variant?_ofVariant, Option.bind_eq_bind, Option.bind_some, record?_variant, hr,
      hcontract, hamount, hmessage]
    rfl
  | allow spender amount =>
    obtain ⟨r, hr, hfind⟩ := Json.record?_carry form ["spender", "amount"]
      [("spender", spender.toJson), ("amount", amount.toJson)] (by simp)
    have hspender := Json.Record.required_eq (hfind "spender" (by decide)) (reads_addr spender)
    have hamount := Json.Record.required_eq (hfind "amount" (by decide)) (reads_amount amount)
    simp only [variant?_ofVariant, Option.bind_eq_bind, Option.bind_some, record?_variant, hr,
      hspender, hamount]
    rfl

/-- A call of a pair contract reads as it was made. Its three kinds share most of their optional
fields, so the lemmas for these are stated once in front of the case split
(`Record.optional_eq`). -/
theorem reads_pairCall (c : PairCall) : Reads form (PairCall.ofJson? form) c.toJson c := by
  unfold Reads PairCall.ofJson? PairCall.toJson
  cases c with
  | provide tolerance receiver payload =>
    obtain ⟨r, hr, hfind⟩ := Json.record?_carry form
      ["slippage_tolerance", "receiver", "receiver_payload"]
      [("slippage_tolerance", .ofOption BasisPoints.toDecimalJson tolerance),
        ("receiver", .ofOption Addr.toJson receiver),
        ("receiver_payload", .ofOption Payload.toJson payload)] (by simp)
    have htolerance := Json.Record.optional_eq (hfind "slippage_tolerance" (by decide))
      fun b _ => ⟨reads_decimal b, nofun⟩
    have hreceiver := Json.Record.optional_eq (hfind "receiver" (by decide))
      fun a _ => ⟨reads_addr a, nofun⟩
    have hpayload := Json.Record.optional_eq (hfind "receiver_payload" (by decide))
      fun p _ => ⟨reads_payload p, nofun⟩
    simp only [variant?_ofVariant, Option.bind_eq_bind, Option.bind_some, record?_variant, hr,
      htolerance, hreceiver, hpayload]
    rfl
  | withdraw receiver payload =>
    obtain ⟨r, hr, hfind⟩ := Json.record?_carry form ["receiver", "receiver_payload"]
      [("receiver", .ofOption Addr.toJson receiver),
        ("receiver_payload", .ofOption Payload.toJson payload)] (by simp)
    have hreceiver := Json.Record.optional_eq (hfind "receiver" (by decide))
      fun a _ => ⟨reads_addr a, nofun⟩
    have hpayload := Json.Record.optional_eq (hfind "receiver_payload" (by decide))
      fun p _ => ⟨reads_payload p, nofun⟩
    simp only [variant?_ofVariant, Option.bind_eq_bind, Option.bind_some, record?_variant, hr,
      hreceiver, hpayload]
    rfl
  | swap expected tolerance receiver payload =>
    obtain ⟨r, hr, hfind⟩ := Json.record?_carry form
      ["expected_result", "slippage_tolerance", "receiver", "receiver_payload"]
      [("expected_result", .ofOption Amount.toJson expected),
        ("slippage_tolerance", .ofOption BasisPoints.toDecimalJson tolerance),
        ("receiver", .ofOption Addr.toJson receiver),
        ("receiver_payload", .ofOption Payload.toJson payload)] (by simp)
    have hexpected := Json.Record.optional_eq (hfind "expected_result" (by decide))
      fun a _ => ⟨reads_amount a, nofun⟩
    have htolerance := Json.Record.optional_eq (hfind "slippage_tolerance" (by decide))
      fun b _ => ⟨reads_decimal b, nofun⟩
    have hreceiver := Json.Record.optional_eq (hfind "receiver" (by decide))
      fun a _ => ⟨reads_addr a, nofun⟩
    have hpayload := Json.Record.optional_eq (hfind "receiver_payload" (by decide))
      fun p _ => ⟨reads_payload p, nofun⟩
    simp only [variant?_ofVariant, Option.bind_eq_bind, Option.bind_some, record?_variant, hr,
      hexpected, htolerance, hreceiver, hpayload]
    rfl

/-- The denoms in a question to a pair contract are validated. -/
def PairQuery.Validated : PairQuery → Prop
  | .previewDeposit offer => offer.first.denom.Validated ∧ offer.second.denom.Validated
  | .previewSwap offer => offer.denom.Validated
  | .previewNaiveSwap offer => offer.denom.Validated
  | _ => True

/-- A question to a pair contract reads as it was asked, if the denoms in it are validated. Those
without fields are a name alone, and those with one field differ only in how it is read
(`lookup_member`). -/
theorem reads_pairQuery {q : PairQuery} (h : q.Validated) :
    Reads form (PairQuery.ofJson? form) q.toJson q := by
  -- the questions with one field
  have hfield {α : Type} (name field : String) (write : α → Json) (read : Json → Option α) (a : α)
      (ha : Reads form read (write a) a) :
      ∃ r, (Json.Variant.mk name (some (form.carry (.obj [(field, write a)])))).record? form
        [field] = some r ∧ r.required field read = some a := by
    obtain ⟨r, hr, hfind⟩ := Json.record?_carry form [field] [(field, write a)] (by simp)
    refine ⟨r, (record?_variant ..).trans hr, Json.Record.required_eq ?_ ha⟩
    rw [hfind field (by simp), Json.lookup_member, if_pos rfl]
    rfl
  unfold Reads PairQuery.ofJson? PairQuery.toJson
  cases q with
  | denoms | canonicalDenoms | config | totalShares => cases form <;> rfl
  | shareValue shares =>
    obtain ⟨r, hr, hshares⟩ := hfield "share_value" "amount" _ _ shares (reads_amount shares)
    simp only [variant?_ofVariant, Option.bind_eq_bind, Option.bind_some, hr, hshares]
    rfl
  | previewDeposit offer =>
    obtain ⟨r, hr, hoffer⟩ := hfield "simulate_provide_liquidity" "offer" _ _ offer
      (reads_coins h.1 h.2)
    simp only [variant?_ofVariant, Option.bind_eq_bind, Option.bind_some, hr, hoffer]
    rfl
  | previewSwap offer =>
    obtain ⟨r, hr, hoffer⟩ := hfield "simulate_swap" "offer" _ _ offer (reads_coin h)
    simp only [variant?_ofVariant, Option.bind_eq_bind, Option.bind_some, hr, hoffer]
    rfl
  | previewNaiveSwap offer =>
    obtain ⟨r, hr, hoffer⟩ := hfield "simulate_naive_swap" "offer" _ _ offer (reads_coin h)
    simp only [variant?_ofVariant, Option.bind_eq_bind, Option.bind_some, hr, hoffer]
    rfl

end PoolMarket
