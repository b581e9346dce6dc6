import PoolMarket.Proofs.Wire.Messages

/-!
# Offers that are handed over

An offer goes to a contract along with a message: a native coin is attached to the call, and tokens
are sent by their own contract, which passes the message on as bytes. Either way what the contract
is told is the message, and what it is given is the offer.

`Instruction.Hands` says so of an instruction, with one constructor for each way, and
`Instruction.exists_handOver` that handing over always makes such an instruction.
-/

namespace PoolMarket

open Json (Form Reads)

/-! ## Messages as bytes

A message that a token contract passes on is the UTF-8 text of its JSON, in base64 on the wire. -/

namespace Payload

/-- The UTF-8 bytes of a text are that text again. -/
theorem string?_ofString (s : String) : (ofString s).string? = some s := by
  have hbytes : (⟨(ofString s).bytes.toArray⟩ : ByteArray) = s.toByteArray := rfl
  rw [string?, hbytes, String.fromUTF8?, dif_pos s.isValidUTF8]
  rfl

/-- A message comes out of its bytes as it went in, if it has a text of its own
(`Json.ofText?_text`). -/
theorem message?_ofMessage {j : Json} (h : j.exact = true) : (ofMessage j).message? = some j := by
  rw [message?, ofMessage, string?_ofString, Option.bind_some, Json.ofText?_text h]

end Payload

/-! ## The instruction

What is attached to a call is in the strict order of the coins' texts, without empty coins, and all
of it native. For one coin that is not empty, nothing of this can fail. -/

namespace Instruction

variable {funds : List Coin}

theorem lt_of_isLE_compare {a b : String} (h : (compare a b).isLE = true) (hne : a ≠ b) :
    a < b := by
  rcases Ordering.isLE_iff_eq_lt_or_eq_eq.1 h with hlt | heq
  · exact compareOfLessAndEq_eq_lt.1 hlt
  · exact absurd (Std.LawfulEqOrd.eq_of_compare heq) hne

/-- The comparison that `arrange` sorts by is total, which `mergeSort` asks for. -/
theorem isLE_compare_total (a b : String) :
    ((compare a b).isLE || (compare b a).isLE) = true := by
  have hswap : compare b a = (compare a b).swap := Std.OrientedOrd.eq_swap
  rw [hswap]
  cases compare a b <;> rfl

/-- Coins with different texts are attached in the strict order of these: sorting puts them in
order, and no two of them are the same (`lt_of_isLE_compare`). -/
theorem pairwise_arrange (h : (funds.map fun c => c.denom.text).Nodup) :
    (arrange funds).Pairwise fun a b => a.denom.text < b.denom.text := by
  have hordered : (arrange funds).Pairwise fun a b =>
      (compare a.denom.text b.denom.text).isLE = true :=
    List.pairwise_mergeSort (fun _ _ _ => Std.TransCmp.isLE_trans)
      (fun _ _ => isLE_compare_total _ _) _
  have hdistinct : ((arrange funds).map fun c => c.denom.text).Nodup :=
    ((List.mergeSort_perm _ _).map _).nodup_iff.2 (h.sublist (List.filter_sublist.map _))
  rw [List.Nodup, List.pairwise_map] at hdistinct
  exact hordered.imp₂ (fun _ _ => lt_of_isLE_compare) hdistinct

/-- An instruction to which only native coins are attached is not refused. By the check of
`Instruction.ofMessage`. -/
theorem ofMessage_of_native (contract : Addr) (msg : Json)
    (h : ∀ c ∈ funds, c.denom.isNative = true) :
    ofMessage contract msg funds = .ok ⟨contract, msg.canonical, arrange funds⟩ := by
  have hnone : funds.find? (fun c => !c.denom.isNative) = none :=
    List.find?_eq_none.2 fun c hc => by simp [h c hc]
  rw [ofMessage, hnone]

theorem ofMessage_nil (contract : Addr) (msg : Json) :
    ofMessage contract msg [] = .ok ⟨contract, msg.canonical, []⟩ := by
  have hnone : arrange [] = [] := by simp [arrange]
  rw [ofMessage_of_native contract msg (by simp), hnone]

/-- One native coin that is not empty is attached as it is; there is nothing to drop or to sort
(`ofMessage_of_native`). -/
theorem ofMessage_native (contract : Addr) (msg : Json) {c : Coin}
    (hnative : c.denom.isNative = true) (hsome : c.amount.isZero = false) :
    ofMessage contract msg [c] = .ok ⟨contract, msg.canonical, [c]⟩ := by
  have hattached : arrange [c] = [c] := by simp [arrange, hsome]
  rw [ofMessage_of_native contract msg (by simpa using hnative), hattached]

/-- The instruction hands an offer to a contract and tells it `a`: a native coin is attached, and
tokens are sent by their own contract, with the message in the bytes that travel along. -/
inductive Hands {α : Type} (i : Instruction) (contract : Addr) (offer : Coin)
    (read : Form → Json → Option α) (a : α) : Prop where
  | attached (hnative : offer.denom.isNative = true) (hcontract : i.contract = contract)
      (hmsg : read .value i.msg = some a) (hfunds : i.funds = [offer])
  | sent (token : Addr) (payload : Payload) (hdenom : offer.denom = .token token)
      (hcontract : i.contract = token)
      (hmsg : TokenCall.ofJson? .value i.msg = some (.send contract offer.amount payload))
      (hpayload : payload.message?.bind (read .text) = some a) (hfunds : i.funds = [])

/-- An offer that is not empty can always be handed over, and is. A native coin goes along with the
message itself; tokens go by a call of their contract, in which the message is bytes that read back
(`reads_tokenCall`, `Payload.message?_ofMessage`). -/
theorem exists_handOver {α : Type} (contract : Addr) {msg : Json} {read : Form → Json → Option α}
    {a : α} (hexact : msg.exact = true) (hreads : ∀ form, Reads form (read form) msg a)
    {offer : Coin} (hsome : offer.amount.isZero = false) :
    ∃ i, handOver contract msg offer = .ok i ∧ i.Hands contract offer read a := by
  obtain ⟨amount, denom⟩ := offer
  cases denom with
  | native text =>
    exact ⟨_, ofMessage_native contract msg rfl hsome, .attached rfl rfl (hreads .value) rfl⟩
  | token token =>
    -- the token contract is told to send, and the message goes with it as the bytes of its text
    refine ⟨_, ofMessage_nil token _, .sent token (.ofMessage msg) rfl rfl ?_ ?_ rfl⟩
    · exact (reads_tokenCall (.send contract amount (.ofMessage msg))).canonical
    · rw [Payload.message?_ofMessage hexact]
      exact hreads .text

end Instruction

end PoolMarket
