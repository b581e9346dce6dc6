import PoolMarket.Market.Reading

/-!
# What the replies to a reading give

A reading that is completed has asked each of its questions once. Its snapshot holds the fees and
the supply that were replied, and the reserves that the worth of that supply tells.

* `Hears` — a reading together with the log of replies that it has taken.
* `Gives` — the log of a completed reading, in terms of the questions and not of the stages.
* `Behind` — the invariant between the log and the stage; `Behind.notes` and `Behind.proceed` are
  its steps, and `Hears.gives` the conclusion.
-/

namespace PoolMarket.Reading

/-- The replies to a reading so far, each to a question that was open, and where they leave it. -/
inductive Hears (r : Reading) : List (PairQuery × Outcome Json) → Outcome Progress → Prop where
  | start : Hears r [] (.ok (.waiting r))
  | reply {log : List (PairQuery × Outcome Json)} {s : Reading} {query : PairQuery}
      (before : Hears r log (.ok (.waiting s))) (asked : query ∈ s.questions)
      (reply : Outcome Json) : Hears r (log ++ [(query, reply)]) (s.receive query reply)

/-- A reply on record reads as the value. -/
def Told {α : Type} (inquiry : Inquiry α) (query : PairQuery)
    (log : List (PairQuery × Outcome Json)) (a : α) : Prop :=
  ∃ reply, (query, reply) ∈ log ∧ inquiry.conclude reply = .ok a

/-- The replies that complete a reading, and the snapshot that they give. -/
structure Gives (r : Reading) (log : List (PairQuery × Outcome Json)) (s : Snapshot) : Prop where
  /-- Nothing is asked twice. -/
  once : (log.map Prod.fst).Nodup
  fees : ∃ config, Told (.config r.contract) .config log config ∧ config.fees = .ok s.fees
  shares : Told (.totalShares r.contract) .totalShares log s.shares
  denoms : r.checksDenoms = true →
    ∃ reported, Told (.denoms r.contract) .denoms log reported ∧ r.checkDenoms reported = .ok ()
  /-- The last reply tells what the whole supply is worth. -/
  deposits : ∃ earlier reply value, log = earlier ++ [(.shareValue s.shares, reply)] ∧
    (Inquiry.shareValue r.contract s.shares).conclude reply = .ok value ∧
    Pair.align r.assets r.contract value = .ok s.deposits

/-! ## One reply

A reply is noted, and if the first round is complete by it, the reading goes on to the second. The
relations `Notes` and `Surveyed` split `Reading.receive` into these two, so that each is inverted
once. -/

/-- A reply of the first round is noted. -/
inductive Notes (r : Reading) : PairQuery → Outcome Json → Reading → Prop where
  | config {config : Option PairConfig} {shares : Option Amount} {denoms : Option (Both String)}
      {reply : Outcome Json} {told : PairConfig} (stage : r.stage = .survey config shares denoms)
      (concluded : (Inquiry.config r.contract).conclude reply = .ok told) :
      Notes r .config reply { r with stage := .survey (some told) shares denoms }
  | totalShares {config : Option PairConfig} {shares : Option Amount}
      {denoms : Option (Both String)} {reply : Outcome Json} {told : Amount}
      (stage : r.stage = .survey config shares denoms)
      (concluded : (Inquiry.totalShares r.contract).conclude reply = .ok told) :
      Notes r .totalShares reply { r with stage := .survey config (some told) denoms }
  | denoms {config : Option PairConfig} {shares : Option Amount} {denoms : Option (Both String)}
      {reply : Outcome Json} {told : Both String} (stage : r.stage = .survey config shares denoms)
      (concluded : (Inquiry.denoms r.contract).conclude reply = .ok told) :
      Notes r .denoms reply { r with stage := .survey config shares (some told) }

/-- The first round is complete. -/
structure Surveyed (r : Reading) (config : PairConfig) (fees : Fees) (shares : Amount)
    (denoms : Option (Both String)) : Prop where
  stage : r.stage = .survey (some config) (some shares) denoms
  fees : config.fees = .ok fees
  denoms : r.checksDenoms = true →
    ∃ reported, denoms = some reported ∧ r.checkDenoms reported = .ok ()

variable {r s t : Reading} {query : PairQuery} {reply : Outcome Json} {snapshot : Snapshot}
  {log : List (PairQuery × Outcome Json)}

/-- Going on changes nothing, or begins the second round with the fees and the supply of the first.
By the branches of `Reading.proceed`. -/
theorem proceed_eq_waiting (h : r.proceed = .ok (.waiting s)) :
    s = r ∨ ∃ config fees shares denoms, r.Surveyed config fees shares denoms ∧
      s = { r with stage := .valuation fees shares } := by
  unfold proceed at h
  split at h
  · next config shares denoms hstage =>
    -- a second reading reports its denoms, and they are checked before the fees
    split at h
    · cases h
      exact Or.inl rfl
    · next reported hchecks =>
      obtain ⟨_, hdenoms, h⟩ := Outcome.bind_eq_ok.1 h
      obtain ⟨fees, hfees, h⟩ := Outcome.bind_eq_ok.1 h
      cases h
      exact Or.inr ⟨config, fees, shares, _, ⟨hstage, hfees, fun _ => ⟨reported, rfl, hdenoms⟩⟩, rfl⟩
    · next hchecks =>
      obtain ⟨fees, hfees, h⟩ := Outcome.bind_eq_ok.1 h
      cases h
      refine Or.inr ⟨config, fees, shares, _, ⟨hstage, hfees, fun h => ?_⟩, rfl⟩
      rw [hchecks] at h
      cases h
  · cases h
    exact Or.inl rfl

/-- It never completes a reading, since the second round has a question of its own. So only a reply
does (`receive_eq_complete`). -/
theorem proceed_ne_complete (r : Reading) (snapshot : Snapshot) :
    r.proceed ≠ .ok (.complete snapshot) := by
  intro h
  unfold proceed at h
  split at h
  · split at h
    · cases h
    · obtain ⟨_, -, h⟩ := Outcome.bind_eq_ok.1 h
      obtain ⟨_, -, h⟩ := Outcome.bind_eq_ok.1 h
      cases h
    · obtain ⟨_, -, h⟩ := Outcome.bind_eq_ok.1 h
      cases h
  · cases h

/-- What a reply does that does not end the reading: it is noted, and the reading goes on from
there. The question was open, so the cases in which a reply is ignored do not arise. By the branches
of `Reading.receive`. -/
theorem receive_eq_waiting (hasked : query ∈ r.questions)
    (h : r.receive query reply = .ok (.waiting s)) :
    ∃ t, r.Notes query reply t ∧ t.proceed = .ok (.waiting s) := by
  unfold receive at h
  split at h
  · next hstage =>
    obtain ⟨told, htold, h⟩ := Outcome.bind_eq_ok.1 h
    exact ⟨_, .config hstage htold, h⟩
  · next hstage =>
    obtain ⟨told, htold, h⟩ := Outcome.bind_eq_ok.1 h
    exact ⟨_, .totalShares hstage htold, h⟩
  · next hstage =>
    obtain ⟨told, htold, h⟩ := Outcome.bind_eq_ok.1 h
    exact ⟨_, .denoms hstage htold, h⟩
  · obtain ⟨_, -, h⟩ := Outcome.bind_eq_ok.1 h
    obtain ⟨_, -, h⟩ := Outcome.bind_eq_ok.1 h
    cases h
  · next hconfig hshares hdenoms hvalue =>
    -- there is no such question
    exfalso
    unfold questions at hasked
    cases hstage : r.stage with
    | survey config shares denoms =>
      simp only [hstage, List.mem_append, List.mem_ite_nil_right, List.mem_singleton] at hasked
      rcases hasked with (⟨-, rfl⟩ | ⟨-, rfl⟩) | ⟨-, rfl⟩
      · exact hconfig _ _ _ hstage rfl
      · exact hshares _ _ _ hstage rfl
      · exact hdenoms _ _ _ hstage rfl
    | valuation fees shares =>
      simp only [hstage, List.mem_singleton] at hasked
      exact hvalue _ _ _ hstage hasked

/-- What a reply does that ends the reading: it was to the one question of the second round
(`proceed_ne_complete`). -/
theorem receive_eq_complete (hasked : query ∈ r.questions)
    (h : r.receive query reply = .ok (.complete snapshot)) :
    r.stage = .valuation snapshot.fees snapshot.shares ∧ query = .shareValue snapshot.shares ∧
      ∃ value, (Inquiry.shareValue r.contract snapshot.shares).conclude reply = .ok value ∧
        Pair.align r.assets r.contract value = .ok snapshot.deposits := by
  unfold receive at h
  split at h
  · -- the three replies of the first round only lead on to the second
    obtain ⟨_, -, h⟩ := Outcome.bind_eq_ok.1 h
    exact absurd h (proceed_ne_complete _ _)
  · obtain ⟨_, -, h⟩ := Outcome.bind_eq_ok.1 h
    exact absurd h (proceed_ne_complete _ _)
  · obtain ⟨_, -, h⟩ := Outcome.bind_eq_ok.1 h
    exact absurd h (proceed_ne_complete _ _)
  · next fees shares asked hstage =>
    obtain ⟨value, hvalue, h⟩ := Outcome.bind_eq_ok.1 h
    obtain ⟨deposits, hdeposits, h⟩ := Outcome.bind_eq_ok.1 h
    cases h
    rw [questions, hstage, List.mem_singleton] at hasked
    exact ⟨hstage, hasked, value, hvalue, hdeposits⟩
  · cases h

/-! ## All replies

`Behind` relates the log to where the reading stands. The replies of the first round may have come
in any order, so what is on record is said question by question (`Recorded`), and that none was
asked twice by the questions still open being `new`. -/

/-- The reply is on record that tells what a reading knows of the first round. -/
def Recorded (r : Reading) (log : List (PairQuery × Outcome Json)) : Stage → Prop
  | .survey config shares denoms =>
    (∀ told, config = some told → Told (.config r.contract) .config log told) ∧
      (∀ told, shares = some told → Told (.totalShares r.contract) .totalShares log told) ∧
      ∀ told, denoms = some told → Told (.denoms r.contract) .denoms log told
  | .valuation fees shares =>
    (∃ config, Told (.config r.contract) .config log config ∧ config.fees = .ok fees) ∧
      Told (.totalShares r.contract) .totalShares log shares ∧
      (r.checksDenoms = true →
        ∃ reported, Told (.denoms r.contract) .denoms log reported ∧ r.checkDenoms reported = .ok ())

/-- The questions of the first round. -/
def Surveys : PairQuery → Prop
  | .config | .totalShares | .denoms => True
  | _ => False

/-- A reading that has been replied to for a while: nothing was asked twice, and all that it knows
was replied. -/
structure Behind (r : Reading) (log : List (PairQuery × Outcome Json)) (s : Reading) : Prop where
  same : r.SamePool s
  once : (log.map Prod.fst).Nodup
  surveys : ∀ query ∈ log.map Prod.fst, Surveys query
  new : ∀ query ∈ s.questions, query ∉ log.map Prod.fst
  recorded : r.Recorded log s.stage

/-- At the beginning nothing is on record and nothing is known. Its fields are empty statements
about `Recorded`. -/
theorem Behind.start (hr : r.stage = .survey none none none) : Behind r [] r where
  same := ⟨rfl, rfl, rfl⟩
  once := List.nodup_nil
  surveys _ h := by cases h
  new _ _ h := by cases h
  recorded := by
    rw [hr]
    refine ⟨?_, ?_, ?_⟩
    all_goals
      intro _ h
      cases h

theorem Told.append {α : Type} {inquiry : Inquiry α} {a : α} (h : Told inquiry query log a)
    (more : List (PairQuery × Outcome Json)) : Told inquiry query (log ++ more) a := by
  obtain ⟨reply, hreply, htold⟩ := h
  exact ⟨reply, List.mem_append_left more hreply, htold⟩

theorem Told.last {α : Type} {inquiry : Inquiry α} {a : α} (h : inquiry.conclude reply = .ok a) :
    Told inquiry query (log ++ [(query, reply)]) a :=
  ⟨reply, List.mem_append_right log List.mem_cons_self, h⟩

/-- A question was not told by the reply to another. So what is on record behind a reply was there
in front of it, if it is not that reply's (`Told`). -/
theorem Told.of_append {α : Type} {inquiry : Inquiry α} {other : PairQuery} {a : α}
    (h : Told inquiry query (log ++ [(other, reply)]) a) (hne : query ≠ other) :
    Told inquiry query log a := by
  obtain ⟨told, hmem, hconclude⟩ := h
  rcases List.mem_append.1 hmem with hmem | hmem
  · exact ⟨told, hmem, hconclude⟩
  · cases List.mem_singleton.1 hmem
    exact absurd rfl hne

/-- A question that was not asked before may be added to the log (`Behind.new`). -/
theorem nodup_append_reply (honce : (log.map Prod.fst).Nodup) (hnew : query ∉ log.map Prod.fst) :
    ((log ++ [(query, reply)]).map Prod.fst).Nodup := by
  rw [List.map_append, List.map_singleton]
  refine List.nodup_append.2 ⟨honce, List.nodup_cons.2 ⟨List.not_mem_nil, List.nodup_nil⟩, ?_⟩
  rintro asked hlog _ hquery rfl
  obtain rfl : asked = query := List.mem_singleton.1 hquery
  exact hnew hlog

theorem Notes.samePool (h : s.Notes query reply t) : s.SamePool t := by
  cases h <;> exact ⟨rfl, rfl, rfl⟩

theorem Notes.surveys (h : s.Notes query reply t) : Surveys query := by
  cases h <;> trivial

/-- The question that was replied to is closed, and no other is opened. By the cases of `Notes`. -/
theorem Notes.questions (h : s.Notes query reply t) :
    ∀ other ∈ t.questions, other ≠ query ∧ other ∈ s.questions := by
  intro other hother
  cases h with
  | config stage _ | totalShares stage _ | denoms stage _ =>
    simp only [Reading.questions, stage] at hother ⊢
    simp only [List.mem_append, List.mem_ite_nil_right, List.mem_singleton, Option.isNone_some,
      Bool.and_false, Bool.false_eq_true, false_and, or_false, false_or] at hother ⊢
    grind

/-- What was known is still on record, and what was just told is there as the last reply:
`Told.append`, and `Told.last`. -/
theorem Recorded.notes (hsame : r.SamePool s) (h : r.Recorded log s.stage)
    (hnotes : s.Notes query reply t) : r.Recorded (log ++ [(query, reply)]) t.stage := by
  cases hnotes with
  | config stage concluded =>
    rw [stage] at h
    rw [hsame.contract] at concluded
    refine ⟨fun told htold => ?_, fun told htold => (h.2.1 told htold).append _,
      fun told htold => (h.2.2 told htold).append _⟩
    cases htold
    exact .last concluded
  | totalShares stage concluded =>
    rw [stage] at h
    rw [hsame.contract] at concluded
    refine ⟨fun told htold => (h.1 told htold).append _, fun told htold => ?_,
      fun told htold => (h.2.2 told htold).append _⟩
    cases htold
    exact .last concluded
  | denoms stage concluded =>
    rw [stage] at h
    rw [hsame.contract] at concluded
    refine ⟨fun told htold => (h.1 told htold).append _,
      fun told htold => (h.2.1 told htold).append _, fun told htold => ?_⟩
    cases htold
    exact .last concluded

/-- A reply that is noted keeps the invariant: its question was new (`Behind.new`), and is not open
any more (`Notes.questions`). -/
theorem Behind.notes (h : Behind r log s) (hasked : query ∈ s.questions)
    (hnotes : s.Notes query reply t) : Behind r (log ++ [(query, reply)]) t where
  same := h.same.trans hnotes.samePool
  once := nodup_append_reply h.once (h.new query hasked)
  surveys asked hlog := by
    rw [List.map_append, List.map_singleton, List.mem_append, List.mem_singleton] at hlog
    rcases hlog with hlog | rfl
    · exact h.surveys asked hlog
    · exact hnotes.surveys
  new other hother hlog := by
    obtain ⟨hne, hopen⟩ := hnotes.questions other hother
    rw [List.map_append, List.map_singleton, List.mem_append, List.mem_singleton] at hlog
    exact hlog.elim (h.new other hopen) hne
  recorded := h.recorded.notes h.same hnotes

/-- The second round asks what was not asked in the first, as none of its questions `Surveys`. What
it knows is what the first round was told. -/
theorem Behind.proceed (h : Behind r log t) (hproceed : t.proceed = .ok (.waiting s)) :
    Behind r log s := by
  rcases proceed_eq_waiting hproceed with rfl | ⟨config, fees, shares, denoms, hsurveyed, rfl⟩
  · exact h
  · obtain ⟨hconfig, hshares, hdenoms⟩ : r.Recorded log
        (.survey (some config) (some shares) denoms) := hsurveyed.stage ▸ h.recorded
    refine ⟨⟨h.same.contract, h.same.assets, h.same.checksDenoms⟩, h.once, h.surveys, ?_,
      ⟨config, hconfig config rfl, hsurveyed.fees⟩, hshares shares rfl, fun hchecks => ?_⟩
    · intro query hquery hlog
      cases List.mem_singleton.1 hquery
      exact h.surveys _ hlog
    · obtain ⟨reported, rfl, hreported⟩ := hsurveyed.denoms (h.same.checksDenoms.trans hchecks)
      refine ⟨reported, hdenoms reported rfl, ?_⟩
      rwa [checkDenoms, h.same.assets, h.same.contract] at hreported

/-- The invariant holds as long as the reading waits. By induction on the log, with `Behind.notes`
and `Behind.proceed` for a reply. -/
theorem Hears.behind (hr : r.stage = .survey none none none) {progress : Outcome Progress}
    (h : r.Hears log progress) (hwaiting : progress = .ok (.waiting s)) : Behind r log s := by
  induction h generalizing s with
  | start =>
    cases hwaiting
    exact .start hr
  | reply before asked reply ih =>
    obtain ⟨t, hnotes, hproceed⟩ := receive_eq_waiting asked hwaiting
    exact ((ih rfl).notes asked hnotes).proceed hproceed

/-- A reading that is completed has its snapshot from the replies: those of the first round by
`Behind.recorded`, and the last one by `receive_eq_complete`. -/
theorem Hears.gives (hr : r.stage = .survey none none none) {progress : Outcome Progress}
    (h : r.Hears log progress) (hcomplete : progress = .ok (.complete snapshot)) :
    r.Gives log snapshot := by
  cases h with
  | start => cases hcomplete
  | @reply earlier s query before asked reply =>
    have hbehind := before.behind hr rfl
    obtain ⟨hstage, rfl, value, hvalue, hdeposits⟩ := receive_eq_complete asked hcomplete
    rw [hbehind.same.contract] at hvalue hdeposits
    rw [hbehind.same.assets] at hdeposits
    obtain ⟨⟨config, hconfig, hfees⟩, hshares, hdenoms⟩ : r.Recorded earlier
        (.valuation snapshot.fees snapshot.shares) := hstage ▸ hbehind.recorded
    refine ⟨nodup_append_reply hbehind.once (hbehind.new _ asked),
      ⟨config, hconfig.append _, hfees⟩, hshares.append _, fun hchecks => ?_,
      earlier, reply, value, rfl, hvalue, hdeposits⟩
    obtain ⟨reported, htold, hreported⟩ := hdenoms hchecks
    exact ⟨reported, htold.append _, hreported⟩

end PoolMarket.Reading
