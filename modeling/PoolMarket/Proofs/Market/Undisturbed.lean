import Mathlib.Data.List.Induction
import PoolMarket.Proofs.Market.Failure
import PoolMarket.Proofs.Market.Names
import PoolMarket.Proofs.Market.Verdict

/-!
# A reading among other refreshes

As long as another reading of a known pair is not complete, and for good if it fails, the market and
all other refreshes are as if the refresh that reads had done nothing at all. The reply that
completes the reading puts the snapshot in place of the old one, and changes nothing else that is
registered.

* `step_put` — what the others do does not depend on the state of the one.
* `Stands` — where the one is, as long as its reading is not complete; it leaves the market alone.
* `run_eq_put` — both together, over a run: it comes to what it comes to without the one.
* `Rereads` — what the replies of a pool come to, from this and from `Hears.fails_iff`.
-/

namespace PoolMarket

/-- A loaded pair with another snapshot. -/
def Loaded.withSnapshot (p : Loaded) (snapshot : Snapshot) : Loaded :=
  { p with pair := { p.pair with snapshot } }

/-- Two pairs that are the same but for their snapshots, as an equation (`Loaded.withSnapshot`). -/
theorem Loaded.SamePair.eq_withSnapshot {p q : Loaded} (h : p.SamePair q) :
    q = p.withSnapshot q.pair.snapshot := by
  obtain ⟨id, contract, assets, name, snapshot⟩ := q
  obtain ⟨rfl, rfl, rfl, rfl⟩ := h
  rfl

/-- A pair that stands under its key, whatever its snapshot, is given another one:
`Registry.get?_update`, where what is written does not come from what stands there now. -/
theorem Registry.get?_update_of_known {g : Registry} {key : PairKey} {known : Loaded}
    {old : Snapshot} (h : g.get? key = some (known.withSnapshot old)) (snapshot : Snapshot)
    (k : PairKey) : (g.update key known snapshot).get? k =
      if k = key then some (known.withSnapshot snapshot) else g.get? k := by
  rw [Registry.get?_update]
  by_cases hk : k = key
  · subst hk
    rw [h, Option.map_some, if_pos ⟨rfl, rfl⟩, if_pos rfl]
    rfl
  · rw [if_neg hk]
    cases g.get? k with
    | none => rfl
    | some q => rw [Option.map_some, if_neg fun h => hk h.1]

namespace Interleaving

/-- The refresh that an event lets act. -/
def Event.task? : Event → Option Nat
  | .start => none
  | .reply task .. => some task
  | .wake task => some task

/-- What an event brings to a refresh from a pool. -/
def Event.poolReply? (task : Nat) (contract : Addr) : Event → Option (PairQuery × Outcome Json)
  | .reply i _ (.pool c query) told =>
    if i = task ∧ c = contract then some (query, told) else none
  | _ => none

/-- What some events bring to a refresh from a pool. -/
def poolReplies (task : Nat) (contract : Addr) (events : List Event) :
    List (PairQuery × Outcome Json) := events.filterMap (Event.poolReply? task contract)

/-- Some events without those of one refresh. -/
def besides (task : Nat) (events : List Event) : List Event :=
  events.filter fun e => e.task? ≠ some task

/-- The same market and refreshes, but for one refresh. -/
def put (s : Interleaving) (task : Nat) (r : Refresh) : Interleaving :=
  { s with refreshes := s.refreshes.set task r }

/-! ## The other refreshes

The refresh that reads may be put into any state of its own without the others noticing, so a run
can be taken through it first and have the state put in afterwards. -/

section Others

variable {s : Interleaving} {task : Nat} {r t : Refresh} {e : Event}

/-- Another refresh acts the same, whichever state the one has been put in. -/
theorem act_put {i : Nat} (hne : i ≠ task) (f : Market → Refresh → Market × Refresh) :
    (s.put task r).act i f = (s.act i f).put task r := by
  unfold act put
  rw [List.getElem?_set_ne hne.symm]
  cases s.refreshes[i]? with
  | none => rfl
  | some t => simp only [List.set_comm _ _ hne]

/-- What the others do does not depend on the state of the one. By the event; each acts on a refresh
that is not the one (`act_put`), or starts one behind all others. -/
theorem step_put (htask : task < s.refreshes.length) (hne : e.task? ≠ some task) :
    (s.put task r).step e = (s.step e).put task r := by
  cases e with
  | start =>
    show Interleaving.mk s.market (s.refreshes.set task r ++ [Refresh.start]) =
      ⟨s.market, (s.refreshes ++ [Refresh.start]).set task r⟩
    rw [List.set_append_left _ _ htask]
  | reply i tokens question reply => exact act_put (fun h => hne (congrArg some h)) _
  | wake i => exact act_put (fun h => hne (congrArg some h)) _

/-- A refresh that leaves the market as it is changes itself only. -/
theorem act_put_self (htask : task < s.refreshes.length)
    {f : Market → Refresh → Market × Refresh} (hf : f s.market r = (s.market, t)) :
    (s.put task r).act task f = s.put task t := by
  unfold act put
  rw [List.getElem?_set_self htask]
  simp only [hf, List.set_set]

theorem length_le_step (s : Interleaving) (e : Event) :
    s.refreshes.length ≤ (s.step e).refreshes.length := by
  have hact (i : Nat) (f : Market → Refresh → Market × Refresh) :
      s.refreshes.length ≤ (s.act i f).refreshes.length := by
    unfold act
    cases s.refreshes[i]? with
    | none => exact Nat.le_refl _
    | some t => exact Nat.le_of_eq List.length_set.symm
  cases e with
  | start =>
    show _ ≤ (s.refreshes ++ [Refresh.start]).length
    rw [List.length_append]
    exact Nat.le_add_right ..
  | reply => exact hact ..
  | wake => exact hact ..

/-- A run takes no refresh away, so the number of one stays good. By induction on the events, with
`length_le_step`. -/
theorem length_le_run (s : Interleaving) (events : List Event) :
    s.refreshes.length ≤ (s.run events).refreshes.length := by
  induction events generalizing s with
  | nil => exact Nat.le_refl _
  | cons e rest ih => exact Nat.le_trans (s.length_le_step e) (ih (s.step e))

theorem run_concat (s : Interleaving) (events : List Event) (e : Event) :
    s.run (events ++ [e]) = (s.run events).step e := List.foldl_concat ..

theorem besides_concat_of_task (events : List Event) (h : e.task? = some task) :
    besides task (events ++ [e]) = besides task events := by
  simp [besides, List.filter_append, h]

theorem besides_concat_of_ne (events : List Event) (h : e.task? ≠ some task) :
    besides task (events ++ [e]) = besides task events ++ [e] := by
  simp [besides, List.filter_append, h]

theorem poolReplies_concat (contract : Addr) (events : List Event) (e : Event) :
    poolReplies task contract (events ++ [e]) =
      poolReplies task contract events ++ (e.poolReply? task contract).toList := by
  rw [poolReplies, List.filterMap_append, poolReplies]
  cases h : e.poolReply? task contract <;> simp [h]

/-- Only a reply brings one, and it is the reply to a question to the pool. It is `Event.poolReply?`
turned around. -/
theorem Event.poolReply?_eq_some {contract : Addr} {entry : PairQuery × Outcome Json}
    (h : e.poolReply? task contract = some entry) :
    ∃ tokens, e = .reply task tokens (.pool contract entry.1) entry.2 := by
  unfold Event.poolReply? at h
  split at h
  · next i tokens c query told =>
    split at h
    · next hown =>
      obtain ⟨rfl, rfl⟩ := hown
      cases h
      exact ⟨tokens, rfl⟩
    · cases h
  · cases h

theorem Event.poolReply?_of_ne (contract : Addr) (h : e.task? ≠ some task) :
    e.poolReply? task contract = none := by
  cases hreply : e.poolReply? task contract with
  | none => rfl
  | some entry =>
    obtain ⟨tokens, rfl⟩ := Event.poolReply?_eq_some hreply
    exact absurd rfl h

/-- What comes to a refresh is not waited for unless it is from the pool. All its questions are to
the pool, and to wake it does nothing, so it stays in the state it was put in (`act_put_self`). -/
theorem step_put_unheard {contract : Addr} (htask : task < s.refreshes.length)
    (hquestions : ∀ question ∈ Market.questions r, ∃ query, question = .pool contract query)
    (hwake : s.market.wake r = (s.market, r)) (hown : e.task? = some task)
    (hunheard : e.poolReply? task contract = none) : (s.put task r).step e = s.put task r := by
  cases e with
  | start => cases hown
  | reply i tokens question told =>
    cases hown
    refine act_put_self htask (if_neg fun hasked => ?_)
    obtain ⟨query, rfl⟩ := hquestions question hasked
    simp [Event.poolReply?] at hunheard
  | wake i =>
    cases hown
    exact act_put_self htask hwake

end Others

/-! ## The reading

The refresh that reads is put into the state that the replies of the pool give it (`Stands`). An
event of another refresh is `step_put`; one of its own is a reply of the pool, or is not waited
for. -/

section Rereading

variable {s : Interleaving} {task : Nat} {r t : Refresh} {key : PairKey} {known : Loaded}
  {first : Reading} {events : List Event} {progress : Outcome Reading.Progress}

/-- Where a refresh is that reads a known pair again, as long as the reading is not complete. -/
inductive Stands (r : Refresh) (key : PairKey) (known : Loaded) :
    Outcome Reading.Progress → Refresh → Prop where
  | waiting (reading : Reading) : Stands r key known (.ok (.waiting reading))
      { r with stage := .updating key known reading }
  | failed (fault : Fault) : Stands r key known (.error fault) (r.fail fault)

/-- A refresh that reads is not waiting for a cell, so to wake it does nothing. -/
theorem Stands.wake (h : Stands r key known progress t) (m : Market) : m.wake t = (m, t) := by
  cases h <;> rfl

/-- A reading asks one pool only, namely that of `Reading.contract`, which no reply changes
(`Hears.behind`). -/
theorem Stands.questions (h : Stands r key known progress t) (hfirst : first.stage = .survey none none none)
    {log : List (PairQuery × Outcome Json)} (hheard : first.Hears log progress) :
    ∀ question ∈ Market.questions t, ∃ query, question = .pool first.contract query := by
  intro question hquestion
  cases h with
  | waiting reading =>
    obtain ⟨query, -, rfl⟩ := List.mem_map.1 hquestion
    exact ⟨query, by rw [(hheard.behind hfirst rfl).same.contract]⟩
  | failed => cases hquestion

/-- A reply that does not complete the reading leaves the market as it is, and the refresh stands
where the reading does (`Market.receive`). -/
theorem Stands.receive (h : Stands r key known progress t) {reading : Reading} {query : PairQuery}
    {reply : Outcome Json} (hprogress : progress = reading.receive query reply)
    (hasked : query ∈ reading.questions) (m : Market) (tokens : TokenDirectory) :
    hear tokens (.pool reading.contract query) reply m { r with stage := .updating key known reading } =
      (m, t) := by
  have hmem : Question.pool reading.contract query ∈
      Market.questions { r with stage := .updating key known reading } :=
    List.mem_map_of_mem hasked
  rw [hear, if_pos hmem]
  unfold Market.receive
  simp only [← hprogress]
  cases h <;> rfl

theorem put_self (hr : s.refreshes[task]? = some r) : s.put task r = s := by
  obtain ⟨htask, hr⟩ := List.getElem?_eq_some_iff.1 hr
  rw [put, ← hr, List.set_getElem_self]

/-- As long as the reading is not complete, and for good if it fails, a run comes to what it comes
to without the refresh, but for the refresh itself. By induction on the events from the end: the
last one is of another refresh (`step_put`), is not heard (`step_put_unheard`), or is a reply of the
pool, by which `Stands.receive` goes on. -/
theorem run_eq_put (hr : s.refreshes[task]? = some r) (hstage : r.stage = .updating key known first)
    (hfirst : first.stage = .survey none none none)
    (h : first.Hears (poolReplies task first.contract events) progress)
    (hstands : Stands r key known progress t) :
    s.run events = (s.run (besides task events)).put task t := by
  -- from the last event, since a reading hears its replies in order
  induction events using List.reverseRecOn generalizing progress t with
  | nil =>
    obtain rfl := h.of_nil
    cases hstands
    rw [← hstage]
    exact (put_self hr).symm
  | append_singleton events e ih =>
    have htask : task < (s.run (besides task events)).refreshes.length :=
      Nat.lt_of_lt_of_le (List.getElem?_eq_some_iff.1 hr).1 (s.length_le_run _)
    rw [poolReplies_concat] at h
    rw [run_concat]
    -- the task's own events are left out on the right, those of the others pass through on both
    -- sides
    by_cases hown : e.task? = some task
    · rw [besides_concat_of_task events hown]
      cases hreply : e.poolReply? task first.contract with
      | none =>
        rw [hreply, Option.toList_none, List.append_nil] at h
        rw [ih h hstands]
        exact step_put_unheard htask (hstands.questions hfirst h) (hstands.wake _) hown hreply
      | some entry =>
        rw [hreply, Option.toList_some] at h
        obtain ⟨tokens, rfl⟩ := Event.poolReply?_eq_some hreply
        obtain ⟨reading, hbefore, hasked, hprogress⟩ := h.of_concat
        have hcontract := (hbefore.behind hfirst rfl).same.contract
        rw [ih hbefore (.waiting reading), ← hcontract]
        exact act_put_self htask (hstands.receive hprogress hasked _ tokens)
    · rw [Event.poolReply?_of_ne _ hown, Option.toList_none, List.append_nil] at h
      rw [besides_concat_of_ne events hown, run_concat, ih h hstands]
      exact step_put htask hown

/-- The reply that completes a reading puts the snapshot in place of the old one. Up to that reply
the run is that of the others (`run_eq_put`), and going on to the next listing changes nothing that
is registered (`Consistent.registry_advance`). -/
theorem Sound.registry_complete (hs : s.Sound) (hr : s.refreshes[task]? = some r)
    (hstage : r.stage = .updating key known first)
    (hfirst : first.stage = .survey none none none) {reading : Reading} {query : PairQuery}
    {reply : Outcome Json} {snapshot : Snapshot}
    (h : first.Hears (poolReplies task first.contract events) (.ok (.waiting reading)))
    (hasked : query ∈ reading.questions)
    (hcomplete : reading.receive query reply = .ok (.complete snapshot)) (tokens : TokenDirectory) :
    ((s.run events).step (.reply task tokens (.pool reading.contract query) reply)).market.registry =
      (s.run (besides task events)).market.registry.update key known snapshot := by
  have hput := run_eq_put hr hstage hfirst h (.waiting reading)
  have hconsistent : (s.run (besides task events)).market.Consistent := (hs.run _).consistent
  have htask : task < (s.run (besides task events)).refreshes.length :=
    Nat.lt_of_lt_of_le (List.getElem?_eq_some_iff.1 hr).1 (s.length_le_run _)
  -- without the task the market is the same, so its last reply is heard there
  rw [hput]
  generalize s.run (besides task events) = alone at hconsistent htask ⊢
  have hmem : Question.pool reading.contract query ∈
      Market.questions { r with stage := .updating key known reading } :=
    List.mem_map_of_mem hasked
  show ((alone.put task _).act task _).market.registry = _
  unfold Interleaving.act Interleaving.put
  rw [List.getElem?_set_self htask]
  simp only [Interleaving.hear, if_pos hmem]
  unfold Market.receive
  simp only [hcomplete]
  exact Market.Consistent.registry_advance hconsistent.updated _ _

end Rereading

/-! ## Every reading

What the replies come to is known of every reading (`Proofs/Market/Verdict`), and what this does to
the market of every reading among others. Here the two are put together. -/

/-- What the replies of a pool to another reading of a known pair come to, the last of which is the
last event of a run, whatever else has happened in the run. -/
structure Rereads (s : Interleaving) (task : Nat) (r : Refresh) (key : PairKey) (known : Loaded)
    (events : List Event) (progress : Outcome Reading.Progress) : Prop where
  /-- The reading ends with its third reply, if not before. -/
  ends : (poolReplies task known.pair.contract events).length ≤ 3 ∧
    ∀ reading, progress = .ok (.waiting reading) → reading.questions ≠ []
  /-- If the reading fails, so does the refresh, and all else is as if it had done nothing. -/
  fails : ∀ fault, progress = .error fault →
    s.run events = (s.run (besides task events)).put task (r.fail fault)
  /-- If it succeeds, the known pair has the snapshot that was replied, and all else that is
  registered is as if the refresh had done nothing. -/
  succeeds : ∀ snapshot, progress = .ok (.complete snapshot) →
    (Reading.again known.pair).Renders (poolReplies task known.pair.contract events) snapshot ∧
      (∃ old, (s.run (besides task events)).market.registry.get? key =
        some (known.withSnapshot old)) ∧
      ∀ k, (s.run events).market.registry.get? k =
        if k = key then some (known.withSnapshot snapshot)
        else (s.run (besides task events)).market.registry.get? k
  /-- If all replies can be read, it fails exactly if they refuse the pair. -/
  refused : (∀ entry ∈ poolReplies task known.pair.contract events,
      Reading.Decodes known.pair.contract entry.1 entry.2) →
    (∀ reading, progress ≠ .ok (.waiting reading)) → ∀ fault, progress = .error fault ↔
      (Reading.again known.pair).Refuses (poolReplies task known.pair.contract events) fault

/-- A run of steps is a history without other requests in it. So what is shown of histories holds of
runs (`Interleaving.after`). -/
theorem run_eq_after (s : Interleaving) (events : List Event) :
    s.run events = s.after (events.map .event) := by
  rw [after, List.foldl_map]
  rfl

/-- A known pair stays the one it is, but for its snapshot (`Sound.samePair_after`). -/
theorem Sound.exists_withSnapshot {s : Interleaving} (hs : s.Sound) {key : PairKey}
    {known : Loaded} (hknown : s.market.registry.get? key = some known) (events : List Event) :
    ∃ old, (s.run events).market.registry.get? key = some (known.withSnapshot old) := by
  obtain ⟨q, hq, hsame⟩ := hs.samePair_after hknown (events.map .event)
  rw [← run_eq_after] at hq
  exact ⟨q.pair.snapshot, by rw [hq, ← hsame.eq_withSnapshot]⟩

/-- Another reading of a known pair, in a sound state. It ends by `Hears.ends`, and is refused as
`Hears.fails_iff` says. If it fails nothing has been changed (`run_eq_put`); if it succeeds it was
with its last reply, so `Sound.registry_complete` says what is registered. -/
theorem Sound.rereads {s : Interleaving} (hs : s.Sound) {task : Nat} {r : Refresh} {key : PairKey}
    {known : Loaded} (hr : s.refreshes[task]? = some r)
    (hstage : r.stage = .updating key known (.again known.pair))
    (hknown : s.market.registry.get? key = some known) {before : List Event} {last : Event}
    (hlast : (last.poolReply? task known.pair.contract).isSome = true)
    {progress : Outcome Reading.Progress}
    (h : (Reading.again known.pair).Hears
      (poolReplies task known.pair.contract (before ++ [last])) progress) :
    s.Rereads task r key known (before ++ [last]) progress := by
  have hfirst : (Reading.again known.pair).stage = .survey none none none := rfl
  refine ⟨h.ends hfirst, fun fault hfault => ?_, fun snapshot hsnapshot => ?_,
    fun hdecodes hended fault => h.fails_iff hfirst rfl hdecodes hended⟩
  · exact run_eq_put hr hstage hfirst h (hfault ▸ .failed fault)
  · refine ⟨(h.gives hfirst hsnapshot).renders, ?_⟩
    obtain ⟨entry, hentry⟩ := Option.isSome_iff_exists.1 hlast
    obtain ⟨tokens, rfl⟩ := Event.poolReply?_eq_some hentry
    rw [poolReplies_concat, hentry, Option.toList_some] at h
    -- the reading still waits before its last reply, and is complete with it
    obtain ⟨reading, hbefore, hasked, hprogress⟩ := h.of_concat
    have hregistry := hs.registry_complete hr hstage hfirst hbefore hasked
      (hprogress.symm.trans hsnapshot) tokens
    rw [(hbefore.behind hfirst rfl).same.contract,
      show (Reading.again known.pair).contract = known.pair.contract from rfl] at hregistry
    rw [besides_concat_of_task before rfl, run_concat, hregistry]
    obtain ⟨old, hold⟩ := hs.exists_withSnapshot hknown (besides task before)
    exact ⟨⟨old, hold⟩, Registry.get?_update_of_known hold snapshot⟩

/-- Whatever has happened to a market and whatever pools reply: a first reading that succeeds gives
what the pool has replied, and its denoms are those of the listing; and so does another reading of a
known pair, or else it changes nothing. The first part is `Gives.renders`; the second is
`Sound.rereads`, in the state that the history has come to. -/
theorem after_readsPools (settings : Settings) (history : List Happening) :
    (∀ (contract : Addr) (assets : DenomPair) (log : List (PairQuery × Outcome Json))
        (snapshot : Snapshot),
        (Reading.first contract assets).Hears log (.ok (.complete snapshot)) →
        (Reading.first contract assets).Renders log snapshot) ∧
      ∀ (task : Nat) (r : Refresh) (key : PairKey) (known : Loaded),
        ((new settings).after history).refreshes[task]? = some r →
        r.stage = .updating key known (.again known.pair) →
        ((new settings).after history).market.registry.get? key = some known →
        ∀ (before : List Event) (last : Event) (progress : Outcome Reading.Progress),
          (last.poolReply? task known.pair.contract).isSome = true →
          (Reading.again known.pair).Hears
            (poolReplies task known.pair.contract (before ++ [last])) progress →
          ((new settings).after history).Rereads task r key known (before ++ [last]) progress := by
  refine ⟨fun contract assets log snapshot h => (h.gives rfl rfl).renders, ?_⟩
  intro task r key known hr hstage hknown before last progress hlast h
  exact ((sound_new settings).after history).rereads hr hstage hknown hlast h

/-! ### The loaded pair is read again, and the pool shows another asset than before -/

namespace Sample

open Chain (Ledger)
open Deployment (factory router settings)

/-- The pair as the first refresh has loaded it. -/
def knownPair : Loaded :=
  ⟨0, known, assets, "ukuji-uatom", ⟨.ofUInt32 4000, .ofUInt32 9000⟩, .ofUInt32 6000, .zero⟩

/-- A second refresh has come to the loaded pair. -/
def rereading : List Happening :=
  loaded ++ .event .start :: ([.page none, .page (some assets.toStrings)].map (ask chain)).map
    fun entry => .event (.reply 1 (.ofList []) entry.1 entry.2)

/-- Other assets lie under the address of the pool. -/
def foreign : Ledger :=
  (Ledger.new factory router).run
    [.addPair known others .zero, .deposit known ⟨.ofUInt32 4000, .ofUInt32 9000⟩]

/-- What a refresh is told by a chain. -/
def told (task : Nat) (l : Ledger) (question : Question) : Event :=
  .reply task (.ofList []) question (ask l question).2

/-- What happens while the pair is read, another refresh included, up to the last reply of the
pool. -/
def meanwhile : List Event :=
  [told 1 foreign (.pool known .totalShares), .start, told 2 chain (.page none),
    told 1 foreign (.pool known .config), .wake 1]

/-- The reply that the reading ends with, which shows an asset that is not of the pair. -/
def worth : Event := told 1 foreign (.pool known (.shareValue (.ofUInt32 6000)))

/-- The key, the pair and the reading of a refresh that reads a known pair again. -/
def rereads? (r : Refresh) : Option (PairKey × Loaded × Reading) :=
  match r.stage with
  | .updating key p reading => some (key, p, reading)
  | _ => none

/-- What `rereads?` finds is the stage of the refresh. -/
theorem stage_of_rereads? {r : Refresh} {key : PairKey} {p : Loaded} {reading : Reading}
    (h : rereads? r = some (key, p, reading)) : r.stage = .updating key p reading := by
  unfold rereads? at h
  split at h
  · next hstage =>
    cases h
    exact hstage
  · cases h

/-- The replies to the first reading of the pool. -/
def firstReplies : List (PairQuery × Outcome Json) :=
  [.denoms, .totalShares, .config, .shareValue (.ofUInt32 6000)].map fun query =>
    (query, (ask chain (.pool known query)).2)

set_option maxRecDepth 4000 in
theorem readsPools_of_foreign :
    (Reading.first known assets).Renders firstReplies knownPair.pair.snapshot ∧
      ∃ r, ((new settings).after rereading).refreshes[1]? = some r ∧
        (poolReplies 1 known (meanwhile ++ [worth])).length = 3 ∧
        ((new settings).after rereading).Rereads 1 r assets.key knownPair (meanwhile ++ [worth])
          (.error (.pairMismatch "known")) := by
  have hfirst : (Reading.first known assets).Hears firstReplies
      (.ok (.complete knownPair.pair.snapshot)) := by decide +kernel
  have hrefresh : (((new settings).after rereading).refreshes[1]?.bind rereads?) =
      some (assets.key, knownPair, .again knownPair.pair) := by decide +kernel
  obtain ⟨r, hr, hstage⟩ := Option.bind_eq_some_iff.1 hrefresh
  have hknown : ((new settings).after rereading).market.registry.get? assets.key =
      some knownPair := by decide +kernel
  have hheard : (Reading.again knownPair.pair).Hears
      (poolReplies 1 knownPair.pair.contract (meanwhile ++ [worth]))
      (.error (.pairMismatch "known")) := by decide +kernel
  have hreads := after_readsPools settings rereading
  exact ⟨hreads.1 known assets firstReplies _ hfirst, r, hr, by decide +kernel,
    hreads.2 1 r assets.key knownPair hr (stage_of_rereads? hstage) hknown meanwhile worth _ rfl
      hheard⟩

end Sample

end Interleaving

end PoolMarket
