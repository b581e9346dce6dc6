import PoolMarket.Proofs.Json.Text
import PoolMarket.Proofs.Wire.RoundTrip
import PoolMarket.Wire.Instruction

/-!
# What arrives of a message

Every question, call and reply has a text of its own, and arrives as it was sent whether it travels
as that text or as a free-form value. So does an instruction, which carries a call in free form.

* `exact_*` — each type of message is `Json.exact`, so its text reads back; with `Reads` in the
  other form this makes `Arrives` (`arrives_of_reads`).
* `ContractCall.depth_le` — a call is shallow enough to be kept as a free-form value inside an
  instruction, and for the instruction to be read with it.
* `reads_instruction` — the instruction around a call.
-/

namespace PoolMarket

open Json (Form Reads)

/-! ## Messages have a text of their own

Only doubles and integers beyond 64 bits stand against it, and no message holds either. The lemmas
about JSON come first, one for each way in which messages are put together; those marked for `simp`
leave a goal about the parts. -/

namespace Json

variable {α : Type} {write : α → Json}

@[simp] theorem exact_str (s : String) : (str s).exact = true := rfl

@[simp] theorem exact_bool (b : Bool) : (bool b).exact = true := rfl

@[simp] theorem exact_obj (members : List (String × Json)) :
    (obj members).exact = exactMembers members := rfl

/-- A number below 2^64 has a text of its own; every number in a message is of some width up to that
(`Json.exact`). -/
theorem exact_nat {n : Nat} (h : n < UInt64.size) : (nat n).exact = true := by
  have hsize : n < 18446744073709551616 := h
  simp only [nat, exact, Bool.and_eq_true, decide_eq_true_eq]
  omega

theorem exact_ofOption (h : ∀ a, (write a).exact = true) (x : Option α) :
    (ofOption write x).exact = true := by
  cases x with
  | none => rfl
  | some a => exact h a

theorem exact_ofBoth (h : ∀ a, (write a).exact = true) (b : Both α) :
    (ofBoth write b).exact = true := by
  simp [ofBoth, exact, exactItems, h]

/-- A list has one if each of its items does (`exactItems_iff`). -/
theorem exact_ofList (h : ∀ a, (write a).exact = true) (xs : List α) :
    (ofList write xs).exact = true := by
  rw [ofList, exact, exactItems_iff]
  intro j hj
  obtain ⟨a, -, rfl⟩ := List.mem_map.1 hj
  exact h a

theorem exact_ofVariant (name : String) (fields : List (String × Json)) :
    (ofVariant name fields).exact = exactMembers fields := by
  simp [ofVariant, exactMembers]

end Json

theorem exact_amount (a : Amount) : a.toJson.exact = true := rfl

theorem exact_addr (a : Addr) : a.toJson.exact = true := rfl

theorem exact_decimal (b : BasisPoints) : b.toDecimalJson.exact = true := rfl

theorem exact_payload (p : Payload) : p.toJson.exact = true := rfl

theorem exact_coin (c : Coin) : c.toJson.exact = true := rfl

theorem exact_expectation (e : Expectation) : e.toJson.exact = true := rfl

/-- A question to a pair contract has a text of its own (`Json.exact_ofVariant`). -/
theorem exact_pairQuery (q : PairQuery) : q.toJson.exact = true := by
  cases q with
  | previewDeposit offer =>
    simp [PairQuery.toJson, Json.exact_ofVariant, Json.exactMembers, Json.exact_ofBoth exact_coin]
  | _ => rfl

/-- A call of a pair contract has a text of its own; its fields are strings, or absent
(`Json.exact_ofVariant`, `Json.exact_ofOption`). -/
theorem exact_pairCall (c : PairCall) : c.toJson.exact = true := by
  cases c <;> simp [PairCall.toJson, Json.exact_ofVariant, Json.exactMembers,
    Json.exact_ofOption exact_amount, Json.exact_ofOption exact_addr,
    Json.exact_ofOption exact_decimal, Json.exact_ofOption exact_payload]

/-- A question to the factory has a text of its own: its limit is a number of 32 bits
(`Json.exact_nat`). -/
theorem exact_factoryQuery (q : FactoryQuery) : q.toJson.exact = true := by
  obtain ⟨startAfter, limit⟩ := q
  have hlimit (n : UInt32) : (Json.nat n.toNat).exact = true :=
    Json.exact_nat (Nat.lt_trans n.toNat_lt (by decide))
  simp [FactoryQuery.toJson, Json.exact_ofVariant, Json.exactMembers, Json.exact_ofOption hlimit,
    Json.exact_ofOption (Json.exact_ofBoth Json.exact_str)]

theorem exact_routerQuery (q : RouterQuery) : q.toJson.exact = true := by
  cases q
  simp [RouterQuery.toJson, Json.exact_ofVariant, Json.exactMembers, exact_coin,
    Json.exact_ofList exact_addr]

theorem exact_routerCall (c : RouterCall) : c.toJson.exact = true := by
  cases c
  simp [RouterCall.toJson, Json.exact_ofVariant, Json.exactMembers, Json.exact_ofList exact_addr,
    Json.exact_ofOption exact_addr, Json.exact_ofOption exact_decimal,
    Json.exact_ofOption exact_expectation]

/-- A call of a token contract has a text of its own, as all its fields are strings
(`Json.exact_str`). -/
theorem exact_tokenCall (c : TokenCall) : c.toJson.exact = true := by
  cases c <;> rfl

/-- What a pair reports of itself has a text of its own: its fees are numbers of 16 bits
(`Json.exact_nat`). -/
theorem exact_pairConfig (c : PairConfig) : c.toJson.exact = true := by
  have htotal := Json.exact_nat (Nat.lt_trans c.totalFee.toNat_lt (by decide))
  have hmaker := Json.exact_nat (Nat.lt_trans c.makerFee.toNat_lt (by decide))
  simp [PairConfig.toJson, Json.exactMembers, exact_addr, htotal, hmaker]

theorem exact_depositPreview (d : DepositPreview) : d.toJson.exact = true := by
  simp [DepositPreview.toJson, Json.exactMembers, exact_amount, Json.exact_ofBoth exact_coin]

/-- A receipt has a text of its own: its code and its gas are numbers of 32 and 64 bits
(`Json.exact_nat`). -/
theorem exact_receipt (t : Receipt) : t.toJson.exact = true := by
  have hcode := Json.exact_nat (Nat.lt_trans t.code.toNat_lt (by decide))
  have hgas := Json.exact_nat t.gasUsed.toNat_lt
  simp [Receipt.toJson, Json.exactMembers, hcode, hgas, Json.exact_ofOption Json.exact_str]

/-! ## Instructions

An instruction keeps the call it carries as a free-form value, so it is sorted when it is made and
read with a bound on its depth. Both are harmless: sorting is idempotent, and no call comes near the
bound (`ContractCall.depth_le`). -/

/-- A call that an instruction carries. -/
inductive ContractCall where
  | pair (call : PairCall)
  | router (call : RouterCall)
  | token (call : TokenCall)

namespace ContractCall

/-- The JSON of whichever call it is. -/
def toJson : ContractCall → Json
  | pair c => c.toJson
  | router c => c.toJson
  | token c => c.toJson

/-- Every call that an instruction can carry has a text of its own (`exact_pairCall`,
`exact_routerCall`, `exact_tokenCall`). -/
theorem exact_toJson (c : ContractCall) : c.toJson.exact = true := by
  cases c with
  | pair c => exact exact_pairCall c
  | router c => exact exact_routerCall c
  | token c => exact exact_tokenCall c

end ContractCall

namespace Json

variable {α : Type} {write : α → Json} {d : Nat}

theorem depth_ofOption_le (h : ∀ a, (write a).depth ≤ d) (x : Option α) :
    (ofOption write x).depth ≤ d := by
  cases x with
  | none => exact Nat.zero_le d
  | some a => exact h a

/-- A list puts one container around its items (`depthItems_le`). -/
theorem depth_ofList_le (h : ∀ a, (write a).depth ≤ d) (xs : List α) :
    (ofList write xs).depth ≤ d + 1 := by
  apply Nat.succ_le_succ
  rw [depthItems_le]
  intro j hj
  obtain ⟨a, -, rfl⟩ := List.mem_map.1 hj
  exact h a

/-- A variant puts two containers around its fields, one for its name and one for them
(`depthMembers_le`). -/
theorem depth_ofVariant_le (name : String) {fields : List (String × Json)}
    (h : ∀ m ∈ fields, m.2.depth ≤ d) : (ofVariant name fields).depth ≤ d + 2 := by
  apply Nat.succ_le_succ
  rw [depthMembers_le]
  intro m hm
  rw [List.mem_singleton.1 hm]
  exact Nat.succ_le_succ (depthMembers_le.2 h)

end Json

/-- A call nests three containers at most: no field nests more than one, and a call puts two around
its fields (`Json.depth_ofVariant_le`). -/
theorem ContractCall.depth_le (c : ContractCall) : c.toJson.depth ≤ 3 := by
  have hamount (a : Amount) : a.toJson.depth ≤ 1 := Nat.zero_le 1
  have haddr (a : Addr) : a.toJson.depth ≤ 1 := Nat.zero_le 1
  have hdecimal (b : BasisPoints) : b.toDecimalJson.depth ≤ 1 := Nat.zero_le 1
  have hpayload (p : Payload) : p.toJson.depth ≤ 1 := Nat.zero_le 1
  have hexpectation (e : Expectation) : e.toJson.depth ≤ 1 := Nat.le_refl 1
  have hswappers (xs : List Addr) : (Json.ofList Addr.toJson xs).depth ≤ 1 :=
    Json.depth_ofList_le (fun _ => Nat.le_refl 0) xs
  -- no field of a call nests more than one, and the call puts two around its fields
  cases c with
  | pair c =>
    cases c <;> apply Json.depth_ofVariant_le <;>
      simp [Json.depth_ofOption_le hamount, Json.depth_ofOption_le haddr,
        Json.depth_ofOption_le hdecimal, Json.depth_ofOption_le hpayload]
  | router c =>
    cases c
    apply Json.depth_ofVariant_le
    simp [hswappers, Json.depth_ofOption_le haddr, Json.depth_ofOption_le hdecimal,
      Json.depth_ofOption_le hexpectation]
  | token c =>
    cases c <;> apply Json.depth_ofVariant_le <;> simp [hamount, haddr, hpayload]

/-- An instruction that was made holds the contract, the message in free form, and the coins put in
order; `ofMessage` only refuses or gives this one. -/
theorem Instruction.eq_of_ofMessage {contract : Addr} {msg : Json} {funds : List Coin}
    {i : Instruction} (h : ofMessage contract msg funds = .ok i) :
    i = ⟨contract, msg.canonical, arrange funds⟩ := by
  unfold ofMessage at h
  split at h
  · cases h
  · cases h
    rfl

theorem Instruction.mem_arrange {funds : List Coin} {c : Coin} :
    c ∈ arrange funds ↔ c ∈ funds ∧ c.amount.isZero = false := by
  rw [arrange, List.mem_mergeSort, List.mem_filter, Bool.not_eq_true']

/-- A message kept in free form reads as itself in both forms, if there is room for its depth
(`Json.freeForm?_canonical`). -/
theorem reads_freeForm {form : Form} {j : Json} (h : j.exact = true) {room : Nat}
    (hroom : j.depth ≤ room) : Reads form (Json.freeForm? room) j.canonical j.canonical := by
  have hread := Json.freeForm?_canonical h hroom
  -- the message is in free form already, so it comes the same in both forms
  cases form with
  | text => exact hread
  | value =>
    rw [Reads, Form.carry, Json.canonical_canonical]
    exact hread

/-- An instruction is read from its three fields. Stated apart from the reader, since the record it
comes from has one field less where nothing is attached (`Json.record?`). -/
theorem Instruction.ofJson?_of_fields {j : Json} {r : Json.Record} {i : Instruction}
    (hr : j.record? ["contract_address", "msg", "funds"] = some r)
    (hcontract : r.required "contract_address" Addr.ofJson? = some i.contract)
    (hmsg : r.required "msg" (Json.freeForm? (Json.maxDepth - 1)) = some i.msg)
    (hfunds : r.defaulted "funds" [] (Json.list? Coin.ofJson?) = some i.funds) :
    ofJson? j = some i := by
  rw [ofJson?, hr]
  simp only [Option.bind_eq_bind, Option.bind_some, hcontract, hmsg, hfunds]
  rfl

/-- An instruction that carries a call reads as it was made. The message is exact and shallow, so it
comes back as it is; coins are missing from the record just where none are attached, and then the
default is read (`reads_freeForm`, `Record.defaulted_eq`). -/
theorem reads_instruction {form : Form} {contract : Addr} {call : ContractCall} {funds : List Coin}
    (hfunds : ∀ c ∈ funds, c.denom.Validated) {i : Instruction}
    (h : Instruction.ofMessage contract call.toJson funds = .ok i) :
    Reads form Instruction.ofJson? i.toJson i := by
  obtain rfl := Instruction.eq_of_ofMessage h
  have hmsg : Reads form (Json.freeForm? (Json.maxDepth - 1)) call.toJson.canonical
      call.toJson.canonical :=
    reads_freeForm call.exact_toJson (Nat.le_trans call.depth_le (by decide))
  have hcoins : Reads form (Json.list? Coin.ofJson?)
      (.ofList Coin.toJson (Instruction.arrange funds)) (Instruction.arrange funds) :=
    Json.reads_list fun c hc => reads_coin (hfunds c (Instruction.mem_arrange.1 hc).1)
  generalize Instruction.arrange funds = attached at hcoins ⊢
  -- the record has a field less when nothing is attached
  cases attached with
  | nil =>
    obtain ⟨r, hr, hfind⟩ := Json.record?_carry form ["contract_address", "msg", "funds"]
      [("contract_address", contract.toJson), ("msg", call.toJson.canonical)] (by simp)
    have hcontract := Json.Record.required_eq (hfind "contract_address" (by decide))
      (reads_addr contract)
    have hcall := Json.Record.required_eq (hfind "msg" (by decide)) hmsg
    have hnone : r.find? "funds" = none := hfind "funds" (by decide)
    have hfunds : r.defaulted "funds" [] (Json.list? Coin.ofJson?) = some [] := by
      rw [Json.Record.defaulted, hnone]
    exact Instruction.ofJson?_of_fields hr hcontract hcall hfunds
  | cons c rest =>
    obtain ⟨r, hr, hfind⟩ := Json.record?_carry form ["contract_address", "msg", "funds"]
      [("contract_address", contract.toJson), ("msg", call.toJson.canonical),
        ("funds", .ofList Coin.toJson (c :: rest))] (by simp)
    have hcontract := Json.Record.required_eq (hfind "contract_address" (by decide))
      (reads_addr contract)
    have hcall := Json.Record.required_eq (hfind "msg" (by decide)) hmsg
    have hfunds := Json.Record.defaulted_eq [] (hfind "funds" (by decide)) hcoins
    exact Instruction.ofJson?_of_fields hr hcontract hcall hfunds

/-- Such an instruction has a text of its own: sorting the message keeps it exact
(`Json.exact_canonical`). -/
theorem exact_instruction {contract : Addr} {call : ContractCall} {funds : List Coin}
    {i : Instruction} (h : Instruction.ofMessage contract call.toJson funds = .ok i) :
    i.toJson.exact = true := by
  obtain rfl := Instruction.eq_of_ofMessage h
  have hcall := Json.exact_canonical call.exact_toJson
  cases hattached : Instruction.arrange funds <;>
    simp [Instruction.toJson, Json.exactMembers, exact_addr, hcall, Json.exact_ofList exact_coin]

/-! ## Sent and read

The two ways are put together: in free form by `Reads` alone, as text by the round trip of JSON in
front of it. -/

/-- What is read of a value is what it was written from, whether it comes as a free-form value or as
text. -/
structure Arrives {α : Type} (read : Form → Json → Option α) (j : Json) (a : α) : Prop where
  value : read .value j.canonical = some a
  text : (Json.ofText? j.text).bind (read .text) = some a

/-- What has a text of its own and reads as it was written in both forms arrives by both ways: the
text gives the value back (`Json.ofText?_text`), which is then read in the form of text. -/
theorem arrives_of_reads {α : Type} {read : Form → Json → Option α} {j : Json} {a : α}
    (hexact : j.exact = true) (h : ∀ form, Reads form (read form) j a) : Arrives read j a where
  value := h .value
  text := by
    rw [Json.ofText?_text hexact]
    exact h .text

/-- Every kind of message arrives as it was sent, where its denoms are validated. The fields are the
fourteen types that are sent to contracts or come from them, and the instruction that carries a
call. -/
structure MessagesArrive : Prop where
  pairQuery : ∀ q : PairQuery, q.Validated → Arrives PairQuery.ofJson? q.toJson q
  pairCall : ∀ c : PairCall, Arrives PairCall.ofJson? c.toJson c
  factoryQuery : ∀ q : FactoryQuery, Arrives FactoryQuery.ofJson? q.toJson q
  listing : ∀ l : Listing, Arrives (fun _ => Listing.ofJson?) l.toJson l
  routerQuery : ∀ (offer : Coin) (swappers : List Addr), offer.denom.Validated →
    Arrives RouterQuery.ofJson? (RouterQuery.preview offer swappers).toJson
      (.preview offer swappers)
  routerCall : ∀ c : RouterCall, Arrives RouterCall.ofJson? c.toJson c
  expectation : ∀ e : Expectation, Arrives (fun _ => Expectation.ofJson?) e.toJson e
  tokenCall : ∀ c : TokenCall, Arrives TokenCall.ofJson? c.toJson c
  pairConfig : ∀ c : PairConfig, Arrives (fun _ => PairConfig.ofJson?) c.toJson c
  swapResult : ∀ s : SwapResult, Arrives (fun _ => SwapResult.ofJson?) s.toJson s
  naiveResult : ∀ s : NaiveResult, Arrives (fun _ => NaiveResult.ofJson?) s.toJson s
  depositPreview : ∀ d : DepositPreview, d.value.first.denom.Validated →
    d.value.second.denom.Validated → Arrives (fun _ => DepositPreview.ofJson?) d.toJson d
  routedResult : ∀ s : RoutedResult, s.denom.Validated →
    Arrives (fun _ => RoutedResult.ofJson?) s.toJson s
  receipt : ∀ t : Receipt, Arrives (fun _ => Receipt.ofJson?) t.toJson t
  instruction : ∀ (contract : Addr) (call : ContractCall) (funds : List Coin) (i : Instruction),
    (∀ c ∈ funds, c.denom.Validated) → Instruction.ofMessage contract call.toJson funds = .ok i →
      Arrives (fun _ => Instruction.ofJson?) i.toJson i

theorem messages_arrive : MessagesArrive where
  pairQuery q h := arrives_of_reads (exact_pairQuery q) fun _ => reads_pairQuery h
  pairCall c := arrives_of_reads (exact_pairCall c) fun _ => reads_pairCall c
  factoryQuery q := arrives_of_reads (exact_factoryQuery q) fun _ => reads_factoryQuery q
  listing l := arrives_of_reads rfl fun _ => reads_listing l
  routerQuery _ swappers h :=
    arrives_of_reads (exact_routerQuery _) fun _ => reads_routerQuery h swappers
  routerCall c := arrives_of_reads (exact_routerCall c) fun _ => reads_routerCall c
  expectation e := arrives_of_reads rfl fun _ => reads_expectation e
  tokenCall c := arrives_of_reads (exact_tokenCall c) fun _ => reads_tokenCall c
  pairConfig c := arrives_of_reads (exact_pairConfig c) fun _ => reads_pairConfig c
  swapResult s := arrives_of_reads rfl fun _ => reads_swapResult s
  naiveResult s := arrives_of_reads rfl fun _ => reads_naiveResult s
  depositPreview d hfirst hsecond :=
    arrives_of_reads (exact_depositPreview d) fun _ => reads_depositPreview hfirst hsecond
  routedResult _ h := arrives_of_reads rfl fun _ => reads_routedResult h
  receipt t := arrives_of_reads (exact_receipt t) fun _ => reads_receipt t
  instruction _ _ _ _ hfunds h :=
    arrives_of_reads (exact_instruction h) fun _ => reads_instruction hfunds h

namespace MessagesArrive.Sample

open Deployment (router)

def attached : Coin := ⟨.ofUInt32 5, .native "usei"⟩

/-- A trade on one pair that expects a result. -/
def trade : ContractCall :=
  .router (.swaps [⟨"swappair", by decide, by decide⟩] (some .zero)
    (some ⟨.ofUInt32 4, .ofUInt16 50⟩) none none)

theorem trade_arrives :
    ∃ i, Instruction.ofMessage router trade.toJson [attached] = .ok i ∧ i.funds = [attached] ∧
      attached.denom.Validated ∧ Arrives (fun _ => Instruction.ofJson?) i.toJson i := by
  have hdenom : attached.denom.Validated := ⟨"usei", by decide⟩
  have hfunds : Instruction.arrange [attached] = [attached] := by
    have hkept : [attached].filter (fun c => !c.amount.isZero) = [attached] := by decide
    rw [Instruction.arrange, hkept, List.mergeSort_singleton]
  refine ⟨_, rfl, hfunds, hdenom, messages_arrive.instruction router trade [attached] _ ?_ rfl⟩
  intro c hc
  rw [List.mem_singleton.1 hc]
  exact hdenom

end MessagesArrive.Sample

end PoolMarket
