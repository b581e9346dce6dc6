import Mathlib.Data.List.Induction
import PoolMarket.Proofs.Market.Visits

/-!
# A refresh that fails

Where a refresh fails in the listing, nothing has changed. Where it fails at a pair, the pairs that
are listed before are as their replies told, and all others are as they were. The load that has
failed leaves no trace that a later refresh could find.

* `Market.Fails` — how far a refresh has come, what it leaves, and by which replies.
* `Market.Course` — the invariant: where a refresh is that has a market to itself. `Course.reply` is
  its step, and `course_of_alone` the induction.
* `Went` — the part of the invariant about listings that were gone through; `Went.visit` adds one,
  by `Registry.Visited.visit`.
* `FailsCleanly` — `Fails`, and that a later refresh cannot tell (`Market.Alike`).
-/

namespace PoolMarket

/-! ## How a refresh fails -/

namespace Market

/-- How far a refresh has come that fails with a fault, and what it leaves of the market `m`, namely
`n`. The log is all it was replied, so the two cases also say where in the log the fault came up. -/
inductive Fails (m : Market) (tokens : TokenDirectory) (log : List (Question × Outcome Json))
    (n : Market) (fault : Fault) : Prop where
  /-- A page is not there, or something on it does not read as two denoms. -/
  | listing {pages : List (Question × Outcome Json)} {after : Option (Both String)}
      {found : List (DenomPair × Addr)} {reply : Outcome Json} (read : m.Pages pages after found)
      (log_eq : log = pages ++ [(.page after, reply)])
      (failed : (Inquiry.page m.factory after m.pageSize).conclude reply = .error fault ∨
        ∃ page, (Inquiry.page m.factory after m.pageSize).conclude reply = .ok page ∧
          readPage page = .error fault)
      (same : n = m) : Fails m tokens log n fault
  /-- The whole listing has been read, and the reading of one of its pairs fails. -/
  | position {pages : List (Question × Outcome Json)} {after : Option (Both String)}
      {found rest : List (DenomPair × Addr)} {reply : Outcome Json} {visits : List Visit}
      {e : DenomPair × Addr} {replies : List (PairQuery × Outcome Json)}
      (read : m.Pages pages after found)
      (ended : (Inquiry.page m.factory after m.pageSize).conclude reply = .ok [])
      (found_eq : found = visits.map Visit.listing ++ e :: rest)
      (log_eq : log = pages ++ (.page after, reply) :: (visits.flatMap Visit.log ++
        Visit.logOf (n.registry.reading e).contract replies))
      (visited : m.registry.Visited tokens visits n.registry)
      (failed : (n.registry.reading e).Hears replies (.error fault)) : Fails m tokens log n fault

end Market

/-! ## The course of a refresh

The stage of a refresh says what it waits for, and `Course` adds what has been replied up to then.
A reply to a page is dealt with in `Pages.course`. A reply to a reading is dealt with in
`Went.reply_updating` and `Went.reply_loading`, by what the reading makes of it: it fails, is
complete, or goes on. -/

namespace Market

variable {m n k : Market} {r : Refresh} {tokens : TokenDirectory}
  {log : List (Question × Outcome Json)} {visits : List Visit} {e : DenomPair × Addr}

/-- A market, and the stage of a refresh, while the pair of a listing is being read. A known pair
changes nothing in the market; an unknown one has a cell, which the refresh has taken. -/
inductive Enters (k : Market) (e : DenomPair × Addr) (s : Reading) :
    Market → Refresh.Stage → Prop where
  | updating {known : Loaded} (there : k.registry.get? e.1.key = some known) :
      Enters k e s k (.updating e.1.key known s)
  | loading (unknown : k.registry.get? e.1.key = none) :
      Enters k e s ((k.join e.1.key).1.occupy (k.join e.1.key).2)
        (.loading (k.join e.1.key).2 s)

/-- A market once the listing has been read and some of it has been gone through. What is left is
`todo`, and no cell is busy between two listings (`Market.Idle`). -/
structure Went (m : Market) (tokens : TokenDirectory) (log : List (Question × Outcome Json))
    (visits : List Visit) (todo found : List (DenomPair × Addr)) (k : Market) : Prop where
  idle : k.Idle
  visited : m.registry.Visited tokens visits k.registry
  found_eq : found = visits.map Visit.listing ++ todo
  listed : ∃ pages after reply, m.Pages pages after found ∧
    (Inquiry.page m.factory after m.pageSize).conclude reply = .ok [] ∧
    log = pages ++ (.page after, reply) :: visits.flatMap Visit.log

/-- Where a refresh is that has a market to itself, which was `m` when it began. While it reads
pages the market has not changed. While it reads a pair, the market is that of `Went`, but for the
cell that is taken (`Enters`). -/
inductive Course (m : Market) (tokens : TokenDirectory) (log : List (Question × Outcome Json))
    (n : Market) (r : Refresh) : Prop where
  | listing {after : Option (Both String)} (stage : r.stage = .listing after)
      (read : m.Pages log after r.found) (same : n = m)
  | reading {visits : List Visit} {k : Market} {before : List (Question × Outcome Json)}
      {e : DenomPair × Addr} {s : Reading} {replies : List (PairQuery × Outcome Json)}
      (went : m.Went tokens before visits (e :: r.todo) r.found k) (enters : k.Enters e s n r.stage)
      (heard : (k.registry.reading e).Hears replies (.ok (.waiting s)))
      (log_eq : log = before ++ Visit.logOf (k.registry.reading e).contract replies)
  | succeeded {count : Nat} (result : r.result? = some (.ok count))
  | failed {fault : Fault} (result : r.result? = some (.error fault)) (idle : n.Idle)
      (fails : m.Fails tokens log n fault)

/-- Reading a pair leaves the registry alone, as taking a cell does (`registry_take`). -/
theorem Enters.registry {s : Reading} {stage : Refresh.Stage} (h : k.Enters e s n stage) :
    n.registry = k.registry := by
  cases h with
  | updating => rfl
  | loading => exact registry_take k e.1.key _

/-- A refresh goes into the next listing, or it is done. Which of the two readings it begins is
decided by the registry, as in `Registry.reading`; a cell is free for it since the market is idle
(`Idle.take`). -/
theorem Went.advance {todo found : List (DenomPair × Addr)}
    (h : m.Went tokens log visits todo found k) (hfound : r.found = found) :
    m.Course tokens log (k.advance r todo).1 (k.advance r todo).2 := by
  subst hfound
  cases todo with
  | nil =>
    rw [Market.advance]
    exact .succeeded rfl
  | cons e rest =>
    have hlog (contract : Addr) : log = log ++ Visit.logOf contract [] := (List.append_nil log).symm
    rw [Market.advance]
    -- a known pair is read again, an unknown one takes a cell that nobody is filling
    cases hknown : k.registry.get? e.1.key with
    | some known =>
      refine .reading h (.updating hknown) ?_ (hlog _)
      rw [Registry.reading, hknown]
      exact .start
    | none =>
      obtain ⟨hempty, hfree, -⟩ := h.idle.take hknown
      simp only [hempty, hfree]
      refine .reading h (.loading hknown) ?_ (hlog _)
      rw [Registry.reading, hknown]
      exact .start

variable {rest found : List (DenomPair × Addr)} {replies : List (PairQuery × Outcome Json)}

/-- The reading of a listed pair fails, so the refresh does, at the position of that pair. It is the
case `Fails.position`. -/
theorem Went.fails (h : m.Went tokens log visits (e :: rest) found k) {fault : Fault}
    (hn : n.registry = k.registry) (hfailed : (k.registry.reading e).Hears replies (.error fault)) :
    m.Fails tokens (log ++ Visit.logOf (k.registry.reading e).contract replies) n fault := by
  obtain ⟨pages, after, reply, hread, hended, rfl⟩ := h.listed
  rw [← hn] at hfailed ⊢
  refine .position hread hended h.found_eq ?_ (hn ▸ h.visited) hfailed
  rw [List.append_assoc, List.cons_append]

/-- The reading of a listed pair is complete. Its replies are put behind the log, and what they give
is said by `Hears.gives`, which makes it one more visit for `Registry.Visited.visit`. -/
theorem Went.visit (h : m.Went tokens log visits (e :: rest) found k) {snapshot : Snapshot}
    (hcomplete : (k.registry.reading e).Hears replies (.ok (.complete snapshot))) (hn : n.Idle)
    {p : Loaded} (hlearns : k.registry.Learns tokens ⟨e, k.registry.reading e, replies, snapshot⟩ p)
    (hregistry : ∀ key, n.registry.get? key =
      if e.1.key = key then some p else k.registry.get? key) :
    m.Went tokens (log ++ Visit.logOf (k.registry.reading e).contract replies)
      (visits ++ [⟨e, k.registry.reading e, replies, snapshot⟩]) rest found n := by
  obtain ⟨pages, after, reply, hread, hended, rfl⟩ := h.listed
  refine ⟨hn, ?_, ?_, pages, after, reply, hread, hended, ?_⟩
  · exact h.visited.visit (hcomplete.gives (k.registry.stage_reading e) rfl) hlearns hregistry
  · rw [h.found_eq, List.map_append, List.append_assoc]
    rfl
  · rw [List.flatMap_append, List.append_assoc, List.cons_append]
    simp [Visit.log]

/-- A known pair has been read again: it has another snapshot (`Registry.get?_update`), and this is
what `Learns.again` says of it. -/
theorem Went.visit_known (h : m.Went tokens log visits (e :: rest) found k) {known : Loaded}
    (there : k.registry.get? e.1.key = some known) {snapshot : Snapshot}
    (hcomplete : (k.registry.reading e).Hears replies (.ok (.complete snapshot))) :
    m.Went tokens (log ++ Visit.logOf (k.registry.reading e).contract replies)
      (visits ++ [⟨e, k.registry.reading e, replies, snapshot⟩]) rest found
      (k.updated e.1.key known snapshot) := by
  have hreading : k.registry.reading e = .again known.pair := by rw [Registry.reading, there]
  refine h.visit hcomplete (h.idle.updated ..) (.again there hreading) fun key => ?_
  rw [Market.updated, Registry.get?_update]
  by_cases hkey : e.1.key = key
  · subst hkey
    rw [if_pos rfl, there, Option.map_some, if_pos ⟨rfl, rfl⟩]
  · rw [if_neg hkey]
    cases k.registry.get? key with
    | none => rfl
    | some q => rw [Option.map_some, if_neg fun h => hkey h.1.symm]

/-- An unknown pair has been loaded. Its cell is given back with the pair in it, which is registered
(`Taken.deliver`), so the market is idle once more. -/
theorem Went.visit_unknown (h : m.Went tokens log visits (e :: rest) found k)
    (unknown : k.registry.get? e.1.key = none) {snapshot : Snapshot}
    (hcomplete : (k.registry.reading e).Hears replies (.ok (.complete snapshot))) {pair : Pair}
    (hpair : pair = ⟨e.2, e.1, tokens.pairName e.1, snapshot⟩) :
    m.Went tokens (log ++ Visit.logOf (k.registry.reading e).contract replies)
      (visits ++ [⟨e, k.registry.reading e, replies, snapshot⟩]) rest found
      (((k.join e.1.key).1.occupy (k.join e.1.key).2).deliver (k.join e.1.key).2
        pair.assets.key pair) := by
  subst hpair
  obtain ⟨-, -, htaken⟩ := h.idle.take unknown
  have hreading : k.registry.reading e = .first e.2 e.1 := by rw [Registry.reading, unknown]
  have hregistry := registry_take k e.1.key (k.join e.1.key).2
  refine h.visit hcomplete (Taken.deliver htaken)
    (.first (k.join e.1.key).1.loaded.length unknown hreading) fun key => ?_
  rw [registry_deliver _ _ _ _ (by rw [hregistry]; exact unknown), hregistry]
  rfl

/-- A page comes, or it does not. It may fail to come, or to be read, and then nothing has changed.
An empty one ends the listing, and the refresh goes into the first pair (`Went.advance`). -/
theorem Pages.course (hm : m.Idle) {after : Option (Both String)} (hread : m.Pages log after r.found)
    (reply : Outcome Json) :
    m.Course tokens (log ++ [(.page after, reply)]) (m.receivePage r after reply).1
      (m.receivePage r after reply).2 := by
  unfold receivePage
  cases hconclude : (Inquiry.page m.factory after m.pageSize).conclude reply with
  | error fault => exact .failed rfl hm (.listing hread rfl (Or.inl hconclude) rfl)
  | ok page =>
    simp only
    cases hlistings : readPage page with
    | error fault =>
      exact .failed rfl hm (.listing hread rfl (Or.inr ⟨page, hconclude, hlistings⟩) rfl)
    | ok listings =>
      simp only
      cases hlast : page.getLast? with
      | some last => exact .listing rfl (hread.next hconclude hlistings hlast) rfl
      | none =>
        -- the page is empty, so the whole listing has been read
        rw [List.getLast?_eq_none_iff] at hlast
        subst hlast
        have hwent : m.Went tokens (log ++ [(.page after, reply)]) [] r.found r.found m :=
          ⟨hm, Registry.visited_nil _ _, rfl, log, after, reply, hread, hconclude, rfl⟩
        exact hwent.advance rfl

/-- The questions of a reading go to the contract it began with, so a reply to one of them is one
more reply in its log (`Hears.behind`). -/
theorem asked_of_reading {s : Reading} {question : Question} {before : List (Question × Outcome Json)}
    (hheard : (k.registry.reading e).Hears replies (.ok (.waiting s)))
    (hasked : question ∈ s.questions.map (Question.pool s.contract)) (reply : Outcome Json) :
    ∃ query ∈ s.questions, question = .pool s.contract query ∧
      before ++ Visit.logOf (k.registry.reading e).contract replies ++ [(question, reply)] =
        before ++ Visit.logOf (k.registry.reading e).contract (replies ++ [(query, reply)]) := by
  obtain ⟨query, hquery, rfl⟩ := List.mem_map.1 hasked
  refine ⟨query, hquery, rfl, ?_⟩
  rw [(hheard.behind (k.registry.stage_reading e) rfl).same.contract, List.append_assoc,
    Visit.logOf, Visit.logOf, List.map_append]
  rfl

section Reading

variable {s : Reading} {query : PairQuery} {before : List (Question × Outcome Json)}

/-- A reply comes to the reading of a known pair. By what the reading makes of it: `Went.fails`,
`Went.visit_known`, or it goes on and waits for more. -/
theorem Went.reply_updating (hwent : m.Went tokens before visits (e :: r.todo) r.found k)
    {known : Loaded} (there : k.registry.get? e.1.key = some known)
    (hstage : r.stage = .updating e.1.key known s)
    (hheard : (k.registry.reading e).Hears replies (.ok (.waiting s)))
    (hquery : query ∈ s.questions) (reply : Outcome Json) :
    m.Course tokens
      (before ++ Visit.logOf (k.registry.reading e).contract (replies ++ [(query, reply)]))
      (k.receive tokens r (.pool s.contract query) reply).1
      (k.receive tokens r (.pool s.contract query) reply).2 := by
  have hnext := hheard.reply hquery reply
  unfold Market.receive
  simp only [hstage]
  cases hreceive : s.receive query reply with
  | error fault => exact .failed rfl hwent.idle (hwent.fails rfl (hreceive ▸ hnext))
  | ok progress =>
    cases progress with
    | waiting t => exact .reading hwent (.updating there) (hreceive ▸ hnext) rfl
    | complete snapshot => exact (hwent.visit_known there (hreceive ▸ hnext)).advance rfl

/-- A reply comes to the reading of an unknown pair. Its cell has to be given back if the reading
fails (`Taken.release`), and is delivered if it is complete (`receive_loaded`). -/
theorem Went.reply_loading (hwent : m.Went tokens before visits (e :: r.todo) r.found k)
    (unknown : k.registry.get? e.1.key = none)
    (hstage : r.stage = .loading (k.join e.1.key).2 s)
    (hheard : (k.registry.reading e).Hears replies (.ok (.waiting s)))
    (hquery : query ∈ s.questions) (reply : Outcome Json) :
    m.Course tokens
      (before ++ Visit.logOf (k.registry.reading e).contract (replies ++ [(query, reply)]))
      (((k.join e.1.key).1.occupy (k.join e.1.key).2).receive tokens r (.pool s.contract query)
        reply).1
      (((k.join e.1.key).1.occupy (k.join e.1.key).2).receive tokens r (.pool s.contract query)
        reply).2 := by
  obtain ⟨-, -, htaken⟩ := hwent.idle.take unknown
  have hregistry := registry_take k e.1.key (k.join e.1.key).2
  have hnext := hheard.reply hquery reply
  cases hreceive : s.receive query reply with
  | error fault =>
    unfold Market.receive
    -- the failed reading gives the cell back, and that is where the log is cut
    simp only [hstage, hreceive]
    exact .failed rfl htaken.release (hwent.fails hregistry (hreceive ▸ hnext))
  | ok progress =>
    cases progress with
    | waiting t =>
      unfold Market.receive
      simp only [hstage, hreceive]
      exact .reading hwent (.loading unknown) (hreceive ▸ hnext) rfl
    | complete snapshot =>
      have hsame := (hheard.behind (k.registry.stage_reading e) rfl).same
      have hpair : loadedPair tokens s snapshot = ⟨e.2, e.1, tokens.pairName e.1, snapshot⟩ := by
        rw [loadedPair, hsame.contract, hsame.assets, Registry.reading, unknown]
        rfl
      have hassets : s.assets = e.1 := congrArg Pair.assets hpair
      -- the last reply completes the pair, so the visit ends and the next entry follows
      rw [receive_loaded tokens s.contract hstage hreceive (by rw [hregistry, hassets, unknown])]
      exact (hwent.visit_unknown unknown (hreceive ▸ hnext) hpair).advance rfl

end Reading

/-- A refresh that has ended asks nothing. By its stage, which is `ended`. -/
theorem questions_of_result {result : Outcome Nat} (h : r.result? = some result) :
    questions r = [] := by
  unfold Refresh.result? at h
  unfold questions
  cases hstage : r.stage with
  | queued | finished => rfl
  | listing | updating | loading =>
    rw [hstage] at h
    cases h

/-- Whatever is replied, a refresh keeps its course. By its stage: a page, a reading of a known
pair, or one of an unknown pair. A refresh that has ended cannot have been replied to
(`questions_of_result`). -/
theorem Course.reply (hm : m.Idle) (h : m.Course tokens log n r) {question : Question}
    (hasked : question ∈ questions r) (reply : Outcome Json) :
    m.Course tokens (log ++ [(question, reply)]) (n.receive tokens r question reply).1
      (n.receive tokens r question reply).2 := by
  cases h with
  | listing hstage hread hsame =>
    subst hsame
    -- the one question is the next page
    rw [questions, hstage, List.mem_singleton] at hasked
    subst hasked
    unfold Market.receive
    simp only [hstage]
    exact hread.course hm reply
  | reading hwent henters hheard hlog =>
    subst hlog
    generalize hstage : r.stage = stage at henters
    cases henters with
    | updating there =>
      rw [questions, hstage] at hasked
      obtain ⟨query, hquery, rfl, hlog⟩ := asked_of_reading hheard hasked reply
      rw [hlog]
      exact hwent.reply_updating there hstage hheard hquery reply
    | loading unknown =>
      rw [questions, hstage] at hasked
      obtain ⟨query, hquery, rfl, hlog⟩ := asked_of_reading hheard hasked reply
      rw [hlog]
      exact hwent.reply_loading unknown hstage hheard hquery reply
  | succeeded result | failed result idle fails =>
    exact absurd (questions_of_result result ▸ hasked) List.not_mem_nil

/-- A refresh is on its course after any log. By induction on the log from its end, with
`Course.reply` for the last reply. -/
theorem course_of_alone (hm : m.Idle) {out : Market × Refresh}
    (h : m.alone tokens log = some out) : m.Course tokens log out.1 out.2 := by
  -- from the last reply, since a course says what has happened so far
  induction log using List.reverseRecOn generalizing out with
  | nil =>
    cases h
    exact .listing rfl .none rfl
  | append_singleton log entry ih =>
    rw [alone, List.foldlM_append] at h
    obtain ⟨before, hbefore, hlast⟩ := Option.bind_eq_some_iff.1 h
    obtain ⟨after, hstep, hout⟩ := Option.bind_eq_some_iff.1 hlast
    cases hout
    unfold replied at hstep
    split at hstep
    · next hasked =>
      cases hstep
      exact (ih hbefore).reply hm hasked entry.2
    · cases hstep

/-- What a failed refresh leaves behind, and that a later one, or any number of them, finds no trace
of the load that has failed: to them the market is `Alike` one with its cells cleared. -/
structure FailsCleanly (m : Market) (tokens : TokenDirectory) (log : List (Question × Outcome Json))
    (n : Market) (fault : Fault) : Prop where
  fails : m.Fails tokens log n fault
  later : ∀ happenings, ((Interleaving.mk n []).after happenings).Alike
    ((Interleaving.mk n.cleared []).after happenings)

end Market

/-- Whatever has happened to a market, once no refresh is under way: one that is by itself then and
fails, fails cleanly, whatever it is replied. By then the market is idle, so the refresh is on its
course (`course_of_alone`), and what it leaves is alike without its cells (`Idle.alike_after`). -/
theorem Interleaving.after_failsCleanly (settings : Settings)
    (happenings : List Interleaving.Happening)
    (hended : ∀ r ∈ ((new settings).after happenings).refreshes, r.result?.isSome = true)
    (tokens : TokenDirectory) (log : List (Question × Outcome Json)) (n : Market) (r : Refresh)
    (fault : Fault)
    (hlog : ((new settings).after happenings).market.alone tokens log = some (n, r))
    (hfailed : r.result? = some (.error fault)) :
    ((new settings).after happenings).market.FailsCleanly tokens log n fault := by
  -- only a failed course ends with an error, the other three do not end or end well
  have hidle := ((sound_new settings).after happenings).idle hended
  cases Market.course_of_alone hidle hlog with
  | failed result idle fails =>
    rw [result, Option.some.injEq, Except.error.injEq] at hfailed
    exact ⟨hfailed ▸ fails, idle.alike_after⟩
  | succeeded result =>
    rw [result] at hfailed
    cases hfailed
  | listing hstage _ _ =>
    rw [Refresh.result?, hstage] at hfailed
    cases hfailed
  | reading _ henters _ _ =>
    generalize hstage : r.stage = stage at henters
    rw [Refresh.result?, hstage] at hfailed
    cases henters <;> cases hfailed

/-! ### A known pair is read again, then the load of another one fails -/

namespace Interleaving.Sample

open Chain (Ledger)
open Deployment (factory router settings)

/-- The pool that is known when the refresh begins. -/
def known : Addr := ⟨"known", by decide, by decide⟩

/-- The pool that the refresh fails at. -/
def unknown : Addr := ⟨"unknown", by decide, by decide⟩

/-- What the first pool holds. -/
def assets : DenomPair := ⟨.native "ukuji", .native "uatom", by decide⟩

/-- What the second pool holds. -/
def others : DenomPair := ⟨.native "ukuji", .native "uosmo", by decide⟩

/-- One pool is listed and filled. -/
def chain : Ledger :=
  (Ledger.new factory router).run
    [.addPair known assets .zero, .deposit known ⟨.ofUInt32 4000, .ofUInt32 9000⟩]

/-- Another one is listed, and the first one is filled up. -/
def fuller : Ledger :=
  chain.run [.addPair unknown others .zero, .deposit known ⟨.ofUInt32 4000, .ofUInt32 9000⟩]

/-- What a chain answers to a question, to be put on a log. -/
def ask (l : Ledger) (question : Question) : Question × Outcome Json :=
  (question, l.answer ((Market.ofSettings settings).addressee question)
    ((Market.ofSettings settings).message question))

/-- A refresh that loads the first pool. -/
def loaded : List Happening :=
  .event .start :: ([.page none, .page (some assets.toStrings), .pool known .config,
    .pool known .totalShares, .pool known .denoms, .pool known (.shareValue (.ofUInt32 6000))].map
      (ask chain)).map fun entry => .event (.reply 0 (.ofList []) entry.1 entry.2)

/-- The second pool is asked for its supply, and then for its settings, to no avail. -/
def log : List (Question × Outcome Json) :=
  [.page none, .page (some others.toStrings), .pool known .config, .pool known .totalShares,
    .pool known (.shareValue (.ofUInt32 12000)), .pool unknown .totalShares].map (ask fuller) ++
    [(.pool unknown .config, .error (.query "unknown" .unavailable))]

set_option maxRecDepth 4000 in
theorem failsCleanly_at_unknown : ∃ n r,
    (∀ t ∈ ((new settings).after loaded).refreshes, t.result?.isSome = true) ∧
      ((new settings).after loaded).market.alone (.ofList []) log = some (n, r) ∧
      r.result? = some (.error (.query "unknown" .unavailable)) ∧
      (n.registry.all.map fun p => (p.pair.contract, p.pair.snapshot.shares)) =
        [(known, .ofUInt32 12000)] ∧
      ((new settings).after loaded).market.FailsCleanly (.ofList []) log n
        (.query "unknown" .unavailable) := by
  have hended : ∀ t ∈ ((new settings).after loaded).refreshes, t.result?.isSome = true := by
    decide +kernel
  have hrun : (((new settings).after loaded).market.alone (.ofList []) log).map (fun out =>
      (out.2.result?, out.1.registry.all.map fun p => (p.pair.contract, p.pair.snapshot.shares))) =
        some (some (.error (.query "unknown" .unavailable)), [(known, .ofUInt32 12000)]) := by
    decide +kernel
  obtain ⟨⟨n, r⟩, hlog, hout⟩ := Option.map_eq_some_iff.1 hrun
  have hfailed := congrArg Prod.fst hout
  exact ⟨n, r, hended, hlog, hfailed, congrArg Prod.snd hout,
    after_failsCleanly settings loaded hended _ log n r _ hlog hfailed⟩

end Interleaving.Sample

end PoolMarket
