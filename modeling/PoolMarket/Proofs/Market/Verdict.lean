import Mathlib.Data.List.Induction
import Mathlib.Data.List.Nodup
import PoolMarket.Proofs.Fees
import PoolMarket.Proofs.Market.Hearing
import PoolMarket.Proofs.Market.PoolReading

/-!
# What a reading comes to

A reading asks a few questions and ends. The snapshot that it gives has the fees that the pool
reports, and on each side the amount of the coin of that asset, whichever order the two coins come
in. If all replies can be read, a known pair is refused for two reasons only: fees that do not fit
each other, and a worth that lacks one of the assets.

* `Hears.ends` — a reading is done after one reply more than it has asked at first.
* `Gives.renders` — what a completed reading gives, said of the replies alone (`Renders`).
* `Hears.fails_iff` — when another reading of a known pair has failed, said of the replies alone
  (`Refuses`).
-/

namespace PoolMarket

/-! ## The fees that a pool reports -/

namespace PairConfig

variable {c : PairConfig} {f : Fees} {fault : Fault}

/-- The fees are as the pool reports them. It reports the share of the maker and the total, and a
total above the whole is none (`le_whole`). -/
structure Reports (c : PairConfig) (f : Fees) : Prop where
  maker : f.maker.val = c.makerFee.toNat
  total : f.maker.val + f.pool.val = c.totalFee.toNat
  le_whole : c.totalFee.toNat ≤ BasisPoints.whole

/-- Why the reported fees do not fit each other. The two cases exclude each other: the share of the
maker is looked at first. -/
inductive Misfit (c : PairConfig) : FeeFault → Prop where
  | maker (total_lt : c.totalFee.toNat < c.makerFee.toNat) : Misfit c .makerOverTotal
  | total (maker_le : c.makerFee.toNat ≤ c.totalFee.toNat)
      (whole_lt : BasisPoints.whole < c.totalFee.toNat) : Misfit c .overHundredPercent

/-- Fees are taken over exactly if they are reported so: `Fees.ofTotal_eq_ok`, in the terms of the
pool. -/
theorem fees_eq_ok : c.fees = .ok f ↔ c.Reports f := by
  rw [fees, Fees.ofTotal_eq_ok]
  constructor
  · rintro ⟨hmaker, htotal⟩
    have htotal : f.maker.val + f.pool.val = c.totalFee.toNat := htotal
    exact ⟨congrArg BasisPoints.val hmaker, htotal, htotal ▸ f.total_le⟩
  · rintro ⟨hmaker, htotal, -⟩
    exact ⟨BasisPoints.ext hmaker, htotal⟩

/-- Fees that do not fit each other are refused, with the reason as it is found
(`Fees.ofTotal_of_lt`, `Fees.ofTotal_of_whole_lt`). -/
theorem Misfit.fees {why : FeeFault} (h : c.Misfit why) : c.fees = .error (.invalidFee why) := by
  cases h with
  | maker total_lt => exact Fees.ofTotal_of_lt total_lt
  | total maker_le whole_lt => exact Fees.ofTotal_of_whole_lt maker_le whole_lt

/-- Fees are refused for no other reason. Where neither misfit holds, `fees_eq_ok` gives fees. -/
theorem exists_misfit (h : c.fees = .error fault) :
    ∃ why, fault = .invalidFee why ∧ c.Misfit why := by
  have hmisfit : ∃ why, c.Misfit why := by
    by_cases hmaker : c.totalFee.toNat < c.makerFee.toNat
    · exact ⟨_, .maker hmaker⟩
    by_cases hwhole : BasisPoints.whole < c.totalFee.toNat
    · exact ⟨_, .total (Nat.le_of_not_lt hmaker) hwhole⟩
    · -- the maker's part and the rest of the total are fees
      exfalso
      have hmaker : c.makerFee.toNat ≤ c.totalFee.toNat := Nat.le_of_not_lt hmaker
      have hwhole : c.totalFee.toNat ≤ BasisPoints.whole := Nat.le_of_not_lt hwhole
      have hsum : c.makerFee.toNat + (c.totalFee.toNat - c.makerFee.toNat) = c.totalFee.toNat :=
        Nat.add_sub_cancel' hmaker
      have hrest : c.totalFee.toNat - c.makerFee.toNat < BasisPoints.size :=
        Nat.lt_of_le_of_lt (Nat.le_trans (Nat.sub_le ..) hwhole) (by decide)
      have hok : c.fees =
          .ok ⟨.ofUInt16 c.makerFee, ⟨_, hrest⟩, hsum.trans_le hwhole⟩ :=
        fees_eq_ok.2 ⟨rfl, hsum, hwhole⟩
      rw [h] at hok
      cases hok
  obtain ⟨why, hwhy⟩ := hmisfit
  rw [hwhy.fees, Except.error.injEq] at h
  exact ⟨why, h.symm, hwhy⟩

end PairConfig

/-! ## The coins and the denoms that a pool reports

Coins and denoms come in any order and are put into the order of the listing. What matters of this
is which coin stands for which asset (`Coin.Shows`), and when there is none (`Coin.Lacks`). -/

namespace Coin

variable {assets : DenomPair} {coins : Both Coin} {amounts : Both Amount}

/-- Two coins are of the assets of a pair, in either order, and `amounts` are theirs in the order of
the assets. -/
def Shows (coins : Both Coin) (assets : DenomPair) (amounts : Both Amount) : Prop :=
  coins = forPair assets amounts ∨ coins = (forPair assets amounts).swap

/-- Neither of two coins is of the asset on one side. -/
def Lacks (coins : Both Coin) (assets : DenomPair) (side : Side) : Prop :=
  ∀ coin ∈ coins.toList, coin.denom ≠ assets.get side

/-- An amount that is found is that of one of the two coins (`Coin.amountOf?`). -/
theorem eq_of_amountOf? {d : Denom} {a : Amount} (h : amountOf? coins d = some a) :
    coins.first = ⟨a, d⟩ ∨ coins.second = ⟨a, d⟩ := by
  unfold amountOf? at h
  split at h
  · next hfirst =>
    cases h
    exact Or.inl (by rw [← hfirst])
  · split at h
    · next hsecond =>
      cases h
      exact Or.inr (by rw [← hsecond])
    · cases h

theorem amountOf?_eq_none {d : Denom} :
    amountOf? coins d = none ↔ ∀ coin ∈ coins.toList, coin.denom ≠ d := by
  unfold amountOf? Both.toList
  simp only [List.mem_cons, List.not_mem_nil, or_false, forall_eq_or_imp, forall_eq]
  by_cases hfirst : coins.first.denom = d
  · simp [hfirst]
  · by_cases hsecond : coins.second.denom = d <;> simp [hfirst, hsecond]

/-- Coins that can be put in order are those of the assets. The assets are not the same, so one coin
does not stand for both (`DenomPair.distinct`). -/
theorem shows_of_align? (h : align? assets coins = some amounts) : Shows coins assets amounts := by
  unfold align? at h
  obtain ⟨a, ha, h⟩ := Option.bind_eq_some_iff.1 h
  obtain ⟨b, hb, h⟩ := Option.bind_eq_some_iff.1 h
  cases h
  have hdistinct (coin : Coin) (ha : coin = ⟨a, assets.first⟩) (hb : coin = ⟨b, assets.second⟩) :
      False := assets.distinct (congrArg denom (ha.symm.trans hb))
  rcases eq_of_amountOf? ha with ha | ha <;> rcases eq_of_amountOf? hb with hb | hb
  · exact (hdistinct _ ha hb).elim
  · exact Or.inl (Both.ext ha hb)
  · exact Or.inr (Both.ext hb ha)
  · exact (hdistinct _ ha hb).elim

/-- Coins that cannot be put in order lack one of the assets: the one for which `amountOf?` finds
nothing. -/
theorem exists_lacks_of_align? (h : align? assets coins = none) : ∃ side, Lacks coins assets side := by
  cases ha : amountOf? coins assets.first with
  | none => exact ⟨.first, amountOf?_eq_none.1 ha⟩
  | some a =>
    cases hb : amountOf? coins assets.second with
    | none => exact ⟨.second, amountOf?_eq_none.1 hb⟩
    | some b =>
      rw [align?, ha, hb] at h
      cases h

/-- Coins that are of both assets lack neither, so the two verdicts exclude each other. By the two
orders of `Shows`. -/
theorem Shows.not_lacks {side : Side} (h : Shows coins assets amounts) :
    ¬ Lacks coins assets side := by
  intro hlacks
  rcases h with rfl | rfl
  · cases side with
    | first => exact hlacks _ (List.mem_cons_self ..) rfl
    | second => exact hlacks _ (List.mem_cons_of_mem _ (List.mem_cons_self ..)) rfl
  · cases side with
    | first => exact hlacks _ (List.mem_cons_of_mem _ (List.mem_cons_self ..)) rfl
    | second => exact hlacks _ (List.mem_cons_self ..) rfl

end Coin

namespace Pair

variable {assets : DenomPair} {contract : Addr} {coins : Both Coin} {amounts : Both Amount}

/-- The same with the fault of `Pair.align`: where it succeeds, the coins are those of the
assets. -/
theorem shows_of_align (h : align assets contract coins = .ok amounts) :
    Coin.Shows coins assets amounts := by
  unfold align at h
  split at h
  · next halign =>
    cases h
    exact Coin.shows_of_align? halign
  · cases h

/-- Where `Pair.align` fails, it names the contract, and one of the assets is lacking. -/
theorem exists_lacks_of_align {fault : Fault} (h : align assets contract coins = .error fault) :
    fault = .pairMismatch contract.text ∧ ∃ side, Coin.Lacks coins assets side := by
  unfold align at h
  split at h
  · cases h
  · next halign =>
    cases h
    exact ⟨rfl, Coin.exists_lacks_of_align? halign⟩

end Pair

namespace Reading

variable {r s t : Reading} {query : PairQuery} {reply : Outcome Json} {snapshot : Snapshot}
  {log : List (PairQuery × Outcome Json)} {progress : Outcome Progress} {fault : Fault}

/-- Two denoms that pass for those of the listing are these, in either order. They are read and
looked up one by one; both could not be the same, since a pair of denoms has two
(`DenomPair.distinct`). -/
theorem denoms_of_checkDenoms {reported : Both String} (h : r.checkDenoms reported = .ok ()) :
    reported = r.assets.toStrings ∨ reported = r.assets.toStrings.swap := by
  unfold checkDenoms at h
  obtain ⟨pair, hpair, h⟩ := Outcome.bind_eq_ok.1 h
  split at h
  · next hcontains =>
    rw [← DenomPair.toStrings_of_ofStrings hpair]
    rw [Bool.and_eq_true, DenomPair.contains_iff, DenomPair.contains_iff] at hcontains
    have hdistinct := pair.distinct
    -- two distinct denoms fill the pair in one of two orders
    obtain ⟨hfirst | hfirst, hsecond | hsecond⟩ := hcontains
    · exact absurd (hfirst.symm.trans hsecond) hdistinct
    · exact Or.inl (by rw [DenomPair.ext hfirst hsecond])
    · refine Or.inr ?_
      rw [DenomPair.toStrings, DenomPair.toStrings, DenomPair.toBoth, DenomPair.toBoth, ← hfirst,
        ← hsecond]
      rfl
    · exact absurd (hfirst.symm.trans hsecond) hdistinct
  · cases h

/-! ## A reading ends

`left` counts what is still to come. A reply that is noted closes its question (`Notes.left_lt`),
and going on opens no more than was counted for it (`left_le_of_proceed`). -/

/-- A reading that goes on to wait has a question open: one of the first round that is not told yet,
or that of the second. By the branches of `Reading.proceed`. -/
theorem questions_ne_nil_of_proceed {config : Option PairConfig} {shares : Option Amount}
    {denoms : Option (Both String)} (hstage : t.stage = .survey config shares denoms)
    (h : t.proceed = .ok (.waiting s)) : s.questions ≠ [] := by
  unfold proceed at h
  split at h
  · next hstage =>
    split at h
    · next hchecks =>
      cases h
      simp [questions, hstage, hchecks]
    · obtain ⟨_, -, h⟩ := Outcome.bind_eq_ok.1 h
      obtain ⟨_, -, h⟩ := Outcome.bind_eq_ok.1 h
      cases h
      simp [questions]
    · obtain ⟨_, -, h⟩ := Outcome.bind_eq_ok.1 h
      cases h
      simp [questions]
  · next hpartly =>
    -- the settings or the supply are not there yet
    cases h
    rcases config with _ | config
    · simp [questions, hstage]
    rcases shares with _ | shares
    · simp [questions, hstage]
    · exact absurd hstage (hpartly config shares denoms)

theorem Notes.exists_survey (h : s.Notes query reply t) :
    ∃ config shares denoms, t.stage = .survey config shares denoms := by
  cases h <;> exact ⟨_, _, _, rfl⟩

/-- A reply that is noted leaves less to come, as its question is closed (`Notes.exists_survey`). -/
theorem Notes.left_lt (h : s.Notes query reply t) (hasked : query ∈ s.questions) :
    t.left < s.left := by
  have hleft : t.left = t.questions.length + 1 := by
    obtain ⟨config, shares, denoms, hstage⟩ := h.exists_survey
    rw [left, hstage]
  rw [hleft]
  -- a noted reply was one of those asked for, so its place was empty before
  cases h with
  | @config config _ _ _ _ stage _ =>
    have hnone : config = none := by simpa [Reading.questions, stage] using hasked
    simp [left, Reading.questions, stage, hnone]
  | @totalShares _ shares _ _ _ stage _ =>
    have hnone : shares = none := by simpa [Reading.questions, stage] using hasked
    simp [left, Reading.questions, stage, hnone]
  | @denoms _ _ denoms _ _ stage _ =>
    obtain ⟨hchecks, hnone⟩ : s.checksDenoms = true ∧ denoms = none := by
      simpa [Reading.questions, stage] using hasked
    simp [left, Reading.questions, stage, hchecks, hnone]

/-- Going on leaves no more to come. By `proceed_eq_waiting` it changes nothing, or it opens the one
question that `left` counts from the beginning. -/
theorem left_le_of_proceed (h : t.proceed = .ok (.waiting s)) : s.left ≤ t.left := by
  rcases proceed_eq_waiting h with rfl | ⟨config, fees, shares, denoms, hsurveyed, rfl⟩
  · exact Nat.le_refl _
  · have hleft : t.left = t.questions.length + 1 := by rw [left, hsurveyed.stage]
    rw [hleft]
    exact Nat.succ_le_succ (Nat.zero_le _)

theorem left_pos (r : Reading) : 0 < r.left := by
  unfold left
  split <;> exact Nat.succ_pos _

/-- The replies heard and those to come are no more than there were to come at first. By induction
on the log. The step is `Notes.left_lt`, then `left_le_of_proceed`. -/
theorem Hears.length_add_left_le (h : r.Hears log progress)
    (hwaiting : progress = .ok (.waiting s)) : log.length + s.left ≤ r.left := by
  induction h generalizing s with
  | start =>
    cases hwaiting
    exact Nat.le_of_eq (Nat.zero_add _)
  | reply before asked reply ih =>
    obtain ⟨t, hnotes, hproceed⟩ := receive_eq_waiting asked hwaiting
    have hearlier := ih rfl
    have hleft := hnotes.left_lt asked
    have hproceeds := left_le_of_proceed hproceed
    rw [List.length_append, List.length_singleton]
    omega

/-- A reading that waits has a question open, and it is done after one reply more than it has asked
at first: the bound by `Hears.length_add_left_le`, with one for the reply that ends the reading. -/
theorem Hears.ends (hr : r.stage = .survey none none none) (h : r.Hears log progress) :
    log.length ≤ r.questions.length + 1 ∧
      ∀ s, progress = .ok (.waiting s) → s.questions ≠ [] := by
  have hleft : r.left = r.questions.length + 1 := by rw [left, hr]
  rw [← hleft]
  cases h with
  | start =>
    refine ⟨Nat.zero_le _, fun s hs => ?_⟩
    cases hs
    simp [questions, hr]
  | reply before asked reply =>
    refine ⟨?_, fun s hs => ?_⟩
    · have hle := before.length_add_left_le rfl
      rw [List.length_append, List.length_singleton]
      exact Nat.le_trans (Nat.add_le_add_left (left_pos _) _) hle
    · -- in the second round there is always one thing to ask
      obtain ⟨t, hnotes, hproceed⟩ := receive_eq_waiting asked hs
      obtain ⟨config, shares, denoms, hstage⟩ := hnotes.exists_survey
      exact questions_ne_nil_of_proceed hstage hproceed

/-! ## A reading succeeds

What is on record (`Hears.gives`) is put in terms of the pool: its fees by `PairConfig.fees_eq_ok`,
its coins by `Pair.shows_of_align`, its denoms by `denoms_of_checkDenoms`. -/

/-- What a completed reading gives is what the pool has replied. -/
structure Renders (r : Reading) (log : List (PairQuery × Outcome Json)) (s : Snapshot) : Prop where
  fees : ∃ config, Told (.config r.contract) .config log config ∧ config.Reports s.fees
  shares : Told (.totalShares r.contract) .totalShares log s.shares
  /-- On each side the reserve is the amount of the coin of that asset. -/
  deposits : ∃ coins, Told (.shareValue r.contract s.shares) (.shareValue s.shares) log coins ∧
    Coin.Shows coins r.assets s.deposits
  /-- At the first reading, the denoms that the pool reports are those of the listing. -/
  denoms : r.checksDenoms = true → ∃ reported, Told (.denoms r.contract) .denoms log reported ∧
    (reported = r.assets.toStrings ∨ reported = r.assets.toStrings.swap)

/-- What a completed reading gives is what the pool has replied: each field of `Gives`, with the
checks of the reading turned into what they check. -/
theorem Gives.renders (h : r.Gives log snapshot) : r.Renders log snapshot where
  fees := by
    obtain ⟨config, htold, hfees⟩ := h.fees
    exact ⟨config, htold, PairConfig.fees_eq_ok.1 hfees⟩
  shares := h.shares
  deposits := by
    obtain ⟨earlier, reply, coins, rfl, hcoins, halign⟩ := h.deposits
    exact ⟨coins, .last hcoins, Pair.shows_of_align halign⟩
  denoms hchecks := by
    obtain ⟨reported, htold, hreported⟩ := h.denoms hchecks
    exact ⟨reported, htold, denoms_of_checkDenoms hreported⟩

/-! ## A reading fails

Replies that cannot be read fail a reading at once, so they are left out (`Decodes`). What remains
are the checks of a reading. At most one of them refuses (`Refuses.unique`), and none where the
reading succeeds (`Gives.not_refuses`), which is why the reasons make an equivalence. -/

/-- The reply to a question reads as what was asked. -/
def Decodes (contract : Addr) (query : PairQuery) (reply : Outcome Json) : Prop :=
  match query with
  | .config => ∃ told, (Inquiry.config contract).conclude reply = .ok told
  | .totalShares => ∃ told, (Inquiry.totalShares contract).conclude reply = .ok told
  | .denoms => ∃ told, (Inquiry.denoms contract).conclude reply = .ok told
  | .shareValue shares => ∃ told, (Inquiry.shareValue contract shares).conclude reply = .ok told
  | _ => False

/-- The replies to another reading of a known pair that refuse it, though they can be read: the fees
do not fit each other, or they do and one of the assets is lacking in the worth. -/
inductive Refuses (r : Reading) (log : List (PairQuery × Outcome Json)) : Fault → Prop where
  | fees {config : PairConfig} {why : FeeFault} (told : Told (.config r.contract) .config log config)
      (misfit : config.Misfit why) : Refuses r log (.invalidFee why)
  | coins {config : PairConfig} {fees : Fees} {shares : Amount} {coins : Both Coin} {side : Side}
      (told : Told (.config r.contract) .config log config) (reports : config.Reports fees)
      (supply : Told (.totalShares r.contract) .totalShares log shares)
      (worth : Told (.shareValue r.contract shares) (.shareValue shares) log coins)
      (lacks : Coin.Lacks coins r.assets side) : Refuses r log (.pairMismatch r.contract.text)

/-- Going on with a known pair fails only at the fees, as its denoms are not asked for
(`Reading.checksDenoms`). -/
theorem proceed_eq_error (hchecks : t.checksDenoms = false) (h : t.proceed = .error fault) :
    ∃ config shares denoms, t.stage = .survey (some config) shares denoms ∧
      config.fees = .error fault := by
  unfold proceed at h
  split at h
  · next config shares denoms hstage =>
    rw [hchecks] at h
    refine ⟨config, _, denoms, hstage, ?_⟩
    cases hfees : config.fees with
    | error other =>
      rw [hfees] at h
      exact congrArg Except.error (Except.error.inj h)
    | ok fees =>
      rw [hfees] at h
      cases h
  · cases h

theorem Hears.of_nil (h : r.Hears [] progress) : progress = .ok (.waiting r) := by
  generalize hall : [] = all at h
  cases h with
  | start => rfl
  | reply => exact absurd hall (by simp)

/-- The last reply that a reading has heard was one that it waited for. It is the last step of
`Hears`. -/
theorem Hears.of_concat {entry : PairQuery × Outcome Json} (h : r.Hears (log ++ [entry]) progress) :
    ∃ s, r.Hears log (.ok (.waiting s)) ∧ entry.1 ∈ s.questions ∧
      progress = s.receive entry.1 entry.2 := by
  generalize hall : log ++ [entry] = all at h
  cases h with
  | start => exact absurd hall (by simp)
  | reply before asked reply =>
    obtain ⟨rfl, hentry⟩ := List.append_inj' hall rfl
    cases hentry
    exact ⟨_, before, asked, rfl⟩

/-- A reply has to be to a question that is open, else the log is not one of this reading. -/
def hearNext? (progress : Outcome Progress) (entry : PairQuery × Outcome Json) :
    Option (Outcome Progress) :=
  match progress with
  | .ok (.waiting s) => if entry.1 ∈ s.questions then some (s.receive entry.1 entry.2) else none
  | _ => none

/-- Where some replies leave a reading, if each is to a question that is open then. It computes what
`Hears` states (`hear?_eq_some`). -/
def hear? (r : Reading) (log : List (PairQuery × Outcome Json)) : Option (Outcome Progress) :=
  log.foldlM hearNext? (.ok (.waiting r))

/-- The last reply comes to where the others have left the reading: `List.foldlM_append`, for one
reply. -/
theorem hear?_concat (entry : PairQuery × Outcome Json) : r.hear? (log ++ [entry]) = some progress ↔
    ∃ s, r.hear? log = some (.ok (.waiting s)) ∧ entry.1 ∈ s.questions ∧
      progress = s.receive entry.1 entry.2 := by
  rw [hear?, List.foldlM_append]
  constructor
  · intro h
    obtain ⟨before, hbefore, hlast⟩ := Option.bind_eq_some_iff.1 h
    obtain ⟨_, hnext, hout⟩ := Option.bind_eq_some_iff.1 hlast
    cases hout
    unfold hearNext? at hnext
    split at hnext
    · next s =>
      split at hnext
      · next hasked => exact ⟨s, hbefore, hasked, (Option.some.inj hnext).symm⟩
      · cases hnext
    · cases hnext
  · rintro ⟨s, hbefore, hasked, rfl⟩
    rw [hear?] at hbefore
    simp [hbefore, hearNext?, hasked]

/-- `hear?` computes where a reading stands. By induction on the log from its end: `hear?_concat` on
one side is `Hears.of_concat` on the other. -/
theorem hear?_eq_some : r.hear? log = some progress ↔ r.Hears log progress := by
  induction log using List.reverseRecOn generalizing progress with
  | nil =>
    constructor
    · intro h
      cases h
      exact .start
    · intro h
      rw [h.of_nil]
      rfl
  | append_singleton log entry ih =>
    rw [hear?_concat]
    constructor
    · rintro ⟨s, hbefore, hasked, rfl⟩
      exact (ih.1 hbefore).reply hasked entry.2
    · intro h
      obtain ⟨s, hbefore, hasked, hprogress⟩ := h.of_concat
      exact ⟨s, ih.2 hbefore, hasked, hprogress⟩

instance : Decidable (r.Hears log progress) := decidable_of_iff _ hear?_eq_some

/-- What a reply does that can be read and fails a reading. It was noted, and going on from there
fails; or it was the worth, and its coins cannot be put in order. By the branches of
`Reading.receive`. -/
theorem receive_eq_error (hasked : query ∈ r.questions) (hdecodes : Decodes r.contract query reply)
    (h : r.receive query reply = .error fault) :
    (∃ t, r.Notes query reply t ∧ t.proceed = .error fault) ∨
      ∃ fees shares coins, r.stage = .valuation fees shares ∧ query = .shareValue shares ∧
        (Inquiry.shareValue r.contract shares).conclude reply = .ok coins ∧
        Pair.align r.assets r.contract coins = .error fault := by
  unfold receive at h
  split at h
  · next hstage =>
    obtain ⟨told, htold⟩ := hdecodes
    rw [htold] at h
    exact Or.inl ⟨_, .config hstage htold, h⟩
  · next hstage =>
    obtain ⟨told, htold⟩ := hdecodes
    rw [htold] at h
    exact Or.inl ⟨_, .totalShares hstage htold, h⟩
  · next hstage =>
    obtain ⟨told, htold⟩ := hdecodes
    rw [htold] at h
    exact Or.inl ⟨_, .denoms hstage htold, h⟩
  · next fees shares asked hstage =>
    -- only the value of the supply is asked for in the second round
    rw [questions, hstage, List.mem_singleton, PairQuery.shareValue.injEq] at hasked
    subst hasked
    obtain ⟨coins, hcoins⟩ := hdecodes
    rw [hcoins] at h
    refine Or.inr ⟨fees, asked, coins, hstage, rfl, hcoins, ?_⟩
    cases halign : Pair.align r.assets r.contract coins with
    | error other =>
      rw [show (Except.ok coins >>= _) = (Pair.align r.assets r.contract coins >>= _) from rfl,
        halign] at h
      exact congrArg Except.error (Except.error.inj h)
    | ok deposits =>
      rw [show (Except.ok coins >>= _) = (Pair.align r.assets r.contract coins >>= _) from rfl,
        halign] at h
      cases h
  · cases h

/-- A reading that has failed was refused. By the last reply (`receive_eq_error`): the fees are
those that are on record by then, or the coins are those of the last reply. -/
theorem Hears.refuses (hr : r.stage = .survey none none none) (hchecks : r.checksDenoms = false)
    (hdecodes : ∀ entry ∈ log, Decodes r.contract entry.1 entry.2) (h : r.Hears log progress)
    (hfails : progress = .error fault) : r.Refuses log fault := by
  cases h with
  | start => cases hfails
  | @reply earlier s query before asked reply =>
    have hbehind := before.behind hr rfl
    have hread := hdecodes (query, reply) (List.mem_append_right _ (List.mem_cons_self ..))
    rw [← hbehind.same.contract] at hread
    rcases receive_eq_error asked hread hfails with
      ⟨t, hnotes, hproceed⟩ | ⟨fees, shares, coins, hstage, rfl, hcoins, halign⟩
    · -- in the first round only the fees can be refused, and they are those the log reports
      have hnoted := hbehind.notes asked hnotes
      obtain ⟨config, shares, denoms, hstage, hfees⟩ :=
        proceed_eq_error (hnoted.same.checksDenoms.trans hchecks) hproceed
      have hrecorded : r.Recorded _ (.survey (some config) shares denoms) :=
        hstage ▸ hnoted.recorded
      obtain ⟨why, rfl, hmisfit⟩ := PairConfig.exists_misfit hfees
      exact .fees (hrecorded.1 config rfl) hmisfit
    · obtain ⟨⟨config, hconfig, hfees⟩, hsupply, -⟩ : r.Recorded _ (.valuation fees shares) :=
        hstage ▸ hbehind.recorded
      rw [hbehind.same.contract] at hcoins halign
      rw [hbehind.same.assets] at halign
      obtain ⟨rfl, side, hlacks⟩ := Pair.exists_lacks_of_align halign
      exact .coins (hconfig.append _) (PairConfig.fees_eq_ok.1 hfees) (hsupply.append _)
        (.last hcoins) hlacks

/-- No question is on the log twice, as `Behind.once` keeps. -/
theorem Hears.once (hr : r.stage = .survey none none none) (h : r.Hears log progress) :
    (log.map Prod.fst).Nodup := by
  cases h with
  | start => exact List.nodup_nil
  | reply before asked _ =>
    have hbehind := before.behind hr rfl
    exact nodup_append_reply hbehind.once (hbehind.new _ asked)

/-- A question that is asked once has one reply, so what it told is one value (`Hears.once`). -/
theorem Told.unique {α : Type} {inquiry : Inquiry α} {a b : α} (honce : (log.map Prod.fst).Nodup)
    (ha : Told inquiry query log a) (hb : Told inquiry query log b) : a = b := by
  obtain ⟨reply, hreply, ha⟩ := ha
  obtain ⟨other, hother, hb⟩ := hb
  have hsame := List.inj_on_of_nodup_map honce hreply hother rfl
  cases hsame
  rw [ha, Except.ok.injEq] at hb
  exact hb

/-- Replies refuse a reading with one fault. Fees that do not fit cannot be reported as well, and
both reasons are about the same reply (`Told.unique`). -/
theorem Refuses.unique {other : Fault} (honce : (log.map Prod.fst).Nodup) (h : r.Refuses log fault)
    (hother : r.Refuses log other) : fault = other := by
  -- the fees are told once, so they cannot be refused in one place and taken in another
  cases h with
  | fees told misfit =>
    have hfees := misfit.fees
    cases hother with
    | fees told' misfit' =>
      rw [told.unique honce told', misfit'.fees] at hfees
      exact (Except.error.inj hfees).symm
    | coins told' reports' =>
      rw [told.unique honce told', PairConfig.fees_eq_ok.2 reports'] at hfees
      cases hfees
  | coins told reports =>
    cases hother with
    | fees told' misfit' =>
      have hfees := misfit'.fees
      rw [told'.unique honce told, PairConfig.fees_eq_ok.2 reports] at hfees
      cases hfees
    | coins => rfl

/-- A reading that has given something was not refused: its fees are reported (`Misfit.fees`), and
its coins lack nothing (`Shows.not_lacks`). -/
theorem Gives.not_refuses (h : r.Gives log snapshot) : ¬ r.Refuses log fault := by
  intro hrefuses
  cases hrefuses with
  | fees told misfit =>
    obtain ⟨config, hconfig, hfees⟩ := h.fees
    rw [hconfig.unique h.once told, misfit.fees] at hfees
    cases hfees
  | coins _ _ supply worth lacks =>
    obtain ⟨coins, hcoins, hshows⟩ := h.renders.deposits
    obtain rfl := supply.unique h.once h.shares
    obtain rfl := worth.unique h.once hcoins
    exact hshows.not_lacks lacks

/-- Once all replies are there and can be read, another reading of a known pair has failed exactly
if they refuse it. One way is `Hears.refuses`. The other way it has ended, and had it succeeded,
nothing would refuse it (`Gives.not_refuses`). -/
theorem Hears.fails_iff (hr : r.stage = .survey none none none) (hchecks : r.checksDenoms = false)
    (hdecodes : ∀ entry ∈ log, Decodes r.contract entry.1 entry.2) (h : r.Hears log progress)
    (hended : ∀ s, progress ≠ .ok (.waiting s)) :
    progress = .error fault ↔ r.Refuses log fault := by
  refine ⟨h.refuses hr hchecks hdecodes, fun hrefuses => ?_⟩
  cases hprogress : progress with
  | error other =>
    rw [(h.refuses hr hchecks hdecodes hprogress).unique (h.once hr) hrefuses]
  | ok progress =>
    subst hprogress
    cases progress with
    | waiting s => exact absurd rfl (hended s)
    | complete snapshot => exact absurd hrefuses (h.gives hr rfl).not_refuses

end Reading

end PoolMarket
