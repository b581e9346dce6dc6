import PoolMarket.Pool.Pair
import PoolMarket.Proofs.Wire.HandOver

/-!
# The call of a withdrawal

Shares of a pair are withdrawn by attaching them to a call of its contract. Their denom is made of
the contract's address without a check. All of its characters are those of a native coin, but its
length is eleven more than that of the address, and addresses are of any length: the denom of a pair
with an address of more than 117 characters is too long to be read again, and so is a call that
attaches it.

`Denom.ofString_sharesOf` is the exact condition; `SharesRead` has both outcomes for the denom and
for an instruction that attaches it, and `sharesRead_of_ofMessage` proves one or the other of every
call.
-/

namespace PoolMarket

open Json (Form)

/-! ## The denom of shares

Every condition on the text of a native coin is met for any address, except the bound on its
length. -/

namespace Denom

/-- A character of an address may stand in the text of a native coin. -/
theorem isBodyChar_of_isChar {c : Char} (h : Addr.isChar c = true) : isBodyChar c = true := by
  have halphanum : c.isAlphanum = true := by
    simp only [Addr.isChar, Bool.or_eq_true] at h
    rw [Char.isAlphanum, Bool.or_eq_true]
    rcases h with hlower | hdigit
    · exact .inl (Bool.or_eq_true_iff.2 (.inr hlower))
    · exact .inr hdigit
  simp [isBodyChar, halphanum]

/-- The text, its first letter apart: what stands in front of the address and behind it are letters
and slashes. It is the form in which `isNativeText_sharesOf` goes through its characters. -/
theorem toList_sharesOf (a : Addr) : (sharesOf a).text.toList =
    'f' :: ("actory/".toList ++ a.text.toList ++ "/lp".toList) := by
  rw [sharesOf, text, String.toList_append, String.toList_append]
  rfl

/-- So only the length decides whether it is the text of a native coin: eleven characters are added
to the address, and 128 are allowed (`isBodyChar_of_isChar`). -/
theorem isNativeText_sharesOf (a : Addr) :
    isNativeText (sharesOf a).text.toList = decide (a.text.length ≤ 117) := by
  have hbody : ("actory/".toList ++ a.text.toList ++ "/lp".toList).all isBodyChar = true := by
    rw [List.all_append, List.all_append, Bool.and_eq_true, Bool.and_eq_true]
    refine ⟨⟨by decide, ?_⟩, by decide⟩
    exact List.all_eq_true.2 fun c hc => isBodyChar_of_isChar (List.all_eq_true.1 a.chars c hc)
  -- `factory/` and `/lp` take eleven characters, which leaves 117 of the 128
  have hlength : ('f' :: ("actory/".toList ++ a.text.toList ++ "/lp".toList)).length =
      a.text.length + 11 := by
    have hfront : "actory/".length = 7 := rfl
    have hback : "/lp".length = 3 := rfl
    simp only [List.length_cons, List.length_append, String.length_toList, hfront, hback]
    omega
  have hmark : tokenMark.isPrefixOf
      ('f' :: ("actory/".toList ++ a.text.toList ++ "/lp".toList)) = false := rfl
  rw [toList_sharesOf, isNativeText, hbody, hlength, hmark]
  by_cases hshort : a.text.length ≤ 117
  · simp [hshort]
  · simp [hshort]

/-- The denom of shares reads back exactly for addresses of up to 117 characters, and is refused for
all others. It does not begin with the mark of tokens, so it is read as a native coin
(`isNativeText_sharesOf`). -/
theorem ofString_sharesOf (a : Addr) : ofString (sharesOf a).text =
    if a.text.length ≤ 117 then .ok (sharesOf a) else .error (invalid (sharesOf a).text) := by
  have hmark : tokenMark.isPrefixOf (sharesOf a).text.toList = false := by
    rw [toList_sharesOf]
    rfl
  rw [ofString, hmark, ofNativeText, isNativeText_sharesOf]
  simp only [decide_eq_true_eq]
  rfl

end Denom

/-! ## Calls that cannot be read again

A record is refused with one of its fields, a list with one of its items. These go from the denom
up to the instruction, in either form. -/

variable {form : Form}

namespace Json

/-- A list is not read if one of its items is not. By induction on the items in front of that one.
It follows `List.mapM`. -/
theorem list?_eq_none {α : Type} {read : Json → Option α} {items : List Json} {j : Json}
    (hj : j ∈ items) (h : read j = none) : list? read (.arr items) = none := by
  rw [list?]
  induction items with
  | nil => cases hj
  | cons item rest ih =>
    rw [List.mapM_cons]
    rcases List.mem_cons.1 hj with rfl | hrest
    · rw [h]
      rfl
    · rw [ih hrest]
      cases read item <;> rfl

end Json

/-- Neither is a coin whose denom's text is refused (`Json.record?_carry`). -/
theorem Coin.ofJson?_eq_none {c : Coin} {fault : Fault}
    (h : Denom.ofString c.denom.text = .error fault) : ofJson? (form.carry c.toJson) = none := by
  obtain ⟨r, hr, hfind⟩ := Json.record?_carry form ["denom", "amount"]
    [("denom", c.denom.toJson), ("amount", c.amount.toJson)] (by simp)
  have hdenom : r.required "denom" Denom.ofJson? = none := by
    rw [Json.Record.required, hfind "denom" (by decide)]
    show Denom.ofJson? (form.carry (.str c.denom.text)) = none
    rw [carry_str]
    show (Denom.ofString c.denom.text).toOption = none
    rw [h]
    rfl
  rw [ofJson?, toJson, hr]
  simp only [Option.bind_eq_bind, Option.bind_some, hdenom]
  rfl

/-- An instruction is not read if a coin that it attaches is not, whatever its message is
(`Json.list?_eq_none`). -/
theorem Instruction.ofJson?_eq_none {i : Instruction} {c : Coin} (hc : c ∈ i.funds)
    (h : Coin.ofJson? (form.carry c.toJson) = none) : ofJson? (form.carry i.toJson) = none := by
  obtain ⟨contract, msg, funds⟩ := i
  have hsome : funds.isEmpty = false := by
    cases funds with
    | nil => cases hc
    | cons => rfl
  obtain ⟨r, hr, hfind⟩ := Json.record?_carry form ["contract_address", "msg", "funds"]
    [("contract_address", contract.toJson), ("msg", msg), ("funds", .ofList Coin.toJson funds)]
    (by simp)
  -- one coin that is not understood spoils the list of the funds
  have hfunds : r.defaulted "funds" [] (Json.list? Coin.ofJson?) = none := by
    rw [Json.Record.defaulted, hfind "funds" (by decide)]
    show Json.list? Coin.ofJson? (form.carry (.arr (funds.map Coin.toJson))) = none
    rw [Json.carry_arr]
    exact Json.list?_eq_none (List.mem_map_of_mem (List.mem_map_of_mem hc)) h
  have hjson : toJson ⟨contract, msg, funds⟩ = .obj [("contract_address", contract.toJson),
      ("msg", msg), ("funds", .ofList Coin.toJson funds)] := by
    simp [toJson, hsome]
  rw [hjson, ofJson?, hr]
  simp only [Option.bind_eq_bind, Option.bind_some, hfunds]
  cases r.required "contract_address" Addr.ofJson? with
  | none => rfl
  | some => cases r.required "msg" (Json.freeForm? (Json.maxDepth - 1)) <;> rfl

/-! ## The withdrawal

-/

/-- What becomes of the denom of a pair's shares, and of an instruction that attaches them, once they
are written: both are read as they were, or neither is read at all. -/
inductive SharesRead (pair : Addr) (i : Instruction) : Prop where
  | whole (short : pair.text.length ≤ 117)
      (denom : Denom.ofString (Denom.sharesOf pair).text = .ok (Denom.sharesOf pair))
      (call : Arrives (fun _ => Instruction.ofJson?) i.toJson i)
  | refused (long : 117 < pair.text.length)
      (denom : Denom.ofString (Denom.sharesOf pair).text =
        .error (Denom.invalid (Denom.sharesOf pair).text))
      (value : Instruction.ofJson? i.toJson.canonical = none)
      (text : (Json.ofText? i.toJson.text).bind Instruction.ofJson? = none)

/-- An instruction that attaches shares is read as it was made, or not at all, and the denom
likewise (`Denom.ofString_sharesOf`): below the bound the denom is validated, so `reads_instruction`
applies, and above it `Instruction.ofJson?_eq_none` does. -/
theorem sharesRead_of_ofMessage {pair contract : Addr} (call : ContractCall) {shares : Amount}
    (hsome : shares.isZero = false) {i : Instruction}
    (h : Instruction.ofMessage contract call.toJson [⟨shares, Denom.sharesOf pair⟩] = .ok i) :
    SharesRead pair i := by
  have hread := Denom.ofString_sharesOf pair
  by_cases hshort : pair.text.length ≤ 117
  · rw [if_pos hshort] at hread
    have hvalid : ∀ c ∈ [Coin.mk shares (Denom.sharesOf pair)], c.denom.Validated := by
      intro c hc
      rw [List.mem_singleton.1 hc]
      exact ⟨_, hread⟩
    exact .whole hshort hread
      (arrives_of_reads (exact_instruction h) fun _ => reads_instruction hvalid h)
  · rw [if_neg hshort] at hread
    -- the shares are among the funds, since there are some
    have hattached : Coin.mk shares (Denom.sharesOf pair) ∈ i.funds := by
      rw [Instruction.eq_of_ofMessage h]
      exact Instruction.mem_arrange.2 ⟨List.mem_singleton_self _, hsome⟩
    have hnone (form : Form) : Instruction.ofJson? (form.carry i.toJson) = none :=
      Instruction.ofJson?_eq_none hattached (Coin.ofJson?_eq_none hread)
    refine .refused (Nat.lt_of_not_le hshort) hread (hnone .value) ?_
    rw [Json.ofText?_text (exact_instruction h)]
    exact hnone .text

namespace Pair

/-- A withdrawal of some shares is one call of the pair, which attaches them. Whether it can be read
again hangs on the length of the pair's address (`sharesRead_of_ofMessage`). -/
theorem withdrawCalls_read (p : Pair) {shares : Amount} (receiver : Option Addr)
    (hsome : shares.isZero = false) :
    ∃ i, p.withdrawCalls shares receiver = .ok [i] ∧ i.contract = p.contract ∧
      PairCall.ofJson? .value i.msg = some (.withdraw receiver none) ∧
      i.funds = [⟨shares, Denom.sharesOf p.contract⟩] ∧ SharesRead p.contract i := by
  let call := PairCall.withdraw receiver none
  let attached : Coin := ⟨shares, Denom.sharesOf p.contract⟩
  have hcall : Instruction.ofMessage p.contract call.toJson [attached] =
      .ok ⟨p.contract, call.toJson.canonical, [attached]⟩ :=
    Instruction.ofMessage_native _ _ rfl hsome
  refine ⟨⟨p.contract, call.toJson.canonical, [attached]⟩, ?_, rfl, (reads_pairCall call).canonical,
    rfl, ?_⟩
  · simp only [withdrawCalls, sharesDenom, hsome, hcall, call, attached]
    rfl
  · exact sharesRead_of_ofMessage (.pair call) hsome hcall

/-! ### The first address that is too long -/

namespace Sample

def far : Addr :=
  ⟨String.ofList (['s', 'e', 'i', '1'] ++ List.replicate 114 'q'),
    by rw [String.toList_ofList]; nofun,
    by rw [String.toList_ofList]; decide⟩

def distant : Pair :=
  { contract := far
    assets := ⟨.native "ufar", .native "unear", by decide⟩
    name := "ufar-unear"
    snapshot := ⟨.same .zero, .zero, .zero⟩ }

theorem length_far : far.text.length = 118 := by
  have htext : far.text.length = (['s', 'e', 'i', '1'] ++ List.replicate 114 'q').length :=
    String.length_ofList
  rw [htext, List.length_append, List.length_replicate]
  rfl

theorem withdrawCalls_read_distant :
    ∃ i, distant.withdrawCalls (.ofUInt32 5) none = .ok [i] ∧
      i.funds = [⟨.ofUInt32 5, Denom.sharesOf far⟩] ∧
        Instruction.ofJson? i.toJson.canonical = none := by
  obtain ⟨i, hcalls, -, -, hfunds, hread⟩ := distant.withdrawCalls_read none
    (show (Amount.ofUInt32 5).isZero = false from rfl)
  refine ⟨i, hcalls, hfunds, ?_⟩
  cases hread with
  | whole short =>
    have hlength : distant.contract.text.length = 118 := length_far
    omega
  | refused _ _ value => exact value

/-- Not every address gives its pair a denom for its shares that can be read
(`Denom.ofString_sharesOf`). -/
theorem sharesOf_unreadable :
    ¬ ∀ a : Addr, Denom.ofString (Denom.sharesOf a).text = .ok (Denom.sharesOf a) := by
  intro h
  have hread := Denom.ofString_sharesOf far
  rw [if_neg (by rw [length_far]; decide), h far] at hread
  cases hread

end Sample

end Pair

end PoolMarket
