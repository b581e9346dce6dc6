import PoolMarket.Chain.Answer
import PoolMarket.Proofs.Market.Alike
import PoolMarket.Proofs.Market.Hearing

/-!
# What a refresh visits

A refresh that has a market to itself reads the listing, then goes through it pair by pair. Each
listing it is done with is a `Visit`: the reading it began with, what that was replied, and the
snapshot it came to. `Registry.Visited` says of a registry what it has become by some visits. Where
a pair is listed more than once, its first visit decides what is registered, and its last one what
the snapshot is.

* `Market.alone` — a refresh that no other gets in the way of, as a fold over what it is replied.
* `Registry.Learns` — what one reading tells of a pair, known before or not.
* `Registry.Visited.visit` — one more visit; everything about a longer listing follows by it.
-/

namespace PoolMarket

/-! ## What a refresh by itself has done -/

namespace Market

/-- One reply to a refresh. It has to be to a question that is open, else the log is not one of this
refresh and nothing comes of it. -/
def replied (tokens : TokenDirectory) (out : Market × Refresh) (entry : Question × Outcome Json) :
    Option (Market × Refresh) :=
  if entry.1 ∈ questions out.2 then some (out.1.receive tokens out.2 entry.1 entry.2) else none

/-- One refresh on a market, with no other under way, once it has been replied to as the log says.
It is `none` for a log that replies to something that was not asked. -/
def alone (m : Market) (tokens : TokenDirectory) (log : List (Question × Outcome Json)) :
    Option (Market × Refresh) :=
  log.foldlM (replied tokens) (m, .start)

/-- Pages that were read one behind the other, and what is listed on them. Each begins behind the
last pair of the one before, as `last` has it. -/
inductive Pages (m : Market) :
    List (Question × Outcome Json) → Option (Both String) → List (DenomPair × Addr) → Prop where
  | none : Pages m [] none []
  | next {log : List (Question × Outcome Json)} {after : Option (Both String)}
      {found listings : List (DenomPair × Addr)} {reply : Outcome Json} {page : List Listing}
      {last : Listing} (before : Pages m log after found)
      (concluded : (Inquiry.page m.factory after m.pageSize).conclude reply = .ok page)
      (read : readPage page = .ok listings) (more : page.getLast? = some last) :
      Pages m (log ++ [(.page after, reply)]) (some last.pair) (found ++ listings)

end Market

/-- A listing that a refresh is done with, the reading it began with, and what that was replied. -/
structure Visit where
  listing : DenomPair × Addr
  reading : Reading
  replies : List (PairQuery × Outcome Json)
  snapshot : Snapshot

namespace Visit

/-- The key that the pair is registered under. -/
def key (v : Visit) : PairKey := v.listing.1.key

/-- What was asked and replied when a contract was read. -/
def logOf (contract : Addr) (replies : List (PairQuery × Outcome Json)) :
    List (Question × Outcome Json) :=
  replies.map fun entry => (.pool contract entry.1, entry.2)

/-- What was asked and replied at a visit, as a refresh puts it. -/
def log (v : Visit) : List (Question × Outcome Json) := logOf v.reading.contract v.replies

/-- The first visit to a pair, by which it is registered. -/
def first? (visits : List Visit) (key : PairKey) : Option Visit := visits.find? (·.key = key)

/-- The last visit to a pair, which gave its snapshot. -/
def last? (visits : List Visit) (key : PairKey) : Option Visit :=
  visits.reverse.find? (·.key = key)

end Visit

namespace Registry

/-- How the pair of a listing is read: again if it is known. -/
def reading (g : Registry) (e : DenomPair × Addr) : Reading :=
  match g.get? e.1.key with
  | some known => .again known.pair
  | none => .first e.2 e.1

/-- What a registry `g` has become, namely `h`, once some listings have been gone through. The
fields go by key: one that was known, one that is new, and one that no visit was to. -/
structure Visited (g : Registry) (tokens : TokenDirectory) (visits : List Visit) (h : Registry) :
    Prop where
  /-- Each snapshot is what the replies give. -/
  told : ∀ v ∈ visits, v.reading.Gives v.replies v.snapshot
  /-- What is read is the registered pair. -/
  read : ∀ v ∈ visits, ∃ p, h.get? v.key = some p ∧
    (v.reading = .again p.pair ∨ v.reading = .first p.pair.contract p.pair.assets)
  /-- A known pair has the snapshot of its last visit, and nothing else of it has changed. -/
  known : ∀ key q v, g.get? key = some q → Visit.last? visits key = some v →
    h.get? key = some { q with pair := { q.pair with snapshot := v.snapshot } }
  /-- An unknown pair is registered as its first listing has it, with the snapshot of its last
  visit. -/
  new : ∀ key v, g.get? key = none → Visit.last? visits key = some v →
    ∃ first id, Visit.first? visits key = some first ∧
      first.reading = .first first.listing.2 first.listing.1 ∧
      h.get? key = some ⟨id, ⟨first.listing.2, first.listing.1, tokens.pairName first.listing.1,
        v.snapshot⟩⟩
  /-- All else is as it was. -/
  others : ∀ key, Visit.last? visits key = none → h.get? key = g.get? key

end Registry

/-! ## Going through the listings

One more visit is put behind the others, so it is the last one of its key, and the first one only
if there was none before. This is all that `Visited.visit` needs of lists. -/

namespace Visit

variable {visits : List Visit} {v : Visit} {key : PairKey}

/-- A visit that is put behind the others is the last one of its key. -/
theorem last?_append (visits : List Visit) (v : Visit) (key : PairKey) :
    last? (visits ++ [v]) key = if v.key = key then some v else last? visits key := by
  rw [last?, List.reverse_append, List.reverse_singleton, List.singleton_append, List.find?_cons]
  by_cases hkey : v.key = key
  · simp [hkey]
  · simp [hkey, last?]

/-- It is the first one only where there was none: `List.find?_append`, for one visit. -/
theorem first?_append (visits : List Visit) (v : Visit) (key : PairKey) :
    first? (visits ++ [v]) key =
      (first? visits key).or (if v.key = key then some v else none) := by
  rw [first?, List.find?_append, List.find?_cons, List.find?_nil]
  by_cases hkey : v.key = key
  · simp [hkey, first?]
  · simp [hkey, first?]

/-- A key without a last visit has no first one, since both search for the same visits. -/
theorem first?_eq_none_of_last? (h : last? visits key = none) : first? visits key = none := by
  rw [last?, List.find?_eq_none] at h
  rw [first?, List.find?_eq_none]
  exact fun v hv => h v (List.mem_reverse.2 hv)

end Visit

namespace Registry

variable {g h : Registry} {tokens : TokenDirectory} {visits : List Visit} {v : Visit} {p : Loaded}

/-- Whether a pair is known or not, `Registry.reading` begins with all questions of the first round
open. -/
theorem stage_reading (g : Registry) (e : DenomPair × Addr) :
    (g.reading e).stage = .survey none none none := by
  unfold reading
  cases g.get? e.1.key <;> rfl

/-- What is learnt of a pair by reading it. A known one keeps its identity and all but its snapshot.
An unknown one is made from its listing, and its identity is any that the registry may give it. -/
inductive Learns (g : Registry) (tokens : TokenDirectory) (v : Visit) : Loaded → Prop where
  | again {known : Loaded} (there : g.get? v.key = some known)
      (read : v.reading = .again known.pair) :
      Learns g tokens v { known with pair := { known.pair with snapshot := v.snapshot } }
  | first (id : Nat) (unknown : g.get? v.key = none)
      (read : v.reading = .first v.listing.2 v.listing.1) :
      Learns g tokens v ⟨id, ⟨v.listing.2, v.listing.1, tokens.pairName v.listing.1, v.snapshot⟩⟩

theorem visited_nil (g : Registry) (tokens : TokenDirectory) : g.Visited tokens [] g where
  told v hv := by cases hv
  read v hv := by cases hv
  known key q v _ hv := by cases hv
  new key v _ hv := by cases hv
  others _ _ := rfl

/-- A pair that was known is known at every visit, and but for its snapshot as it was: `known` if
there was a visit to it, and `others` if there was none. -/
theorem Visited.get?_of_known (hvisited : g.Visited tokens visits h) {key : PairKey} {q : Loaded}
    (hq : g.get? key = some q) :
    ∃ snapshot, h.get? key = some { q with pair := { q.pair with snapshot } } := by
  cases hlast : Visit.last? visits key with
  | none => exact ⟨q.pair.snapshot, by rw [hvisited.others key hlast, hq]⟩
  | some v => exact ⟨v.snapshot, hvisited.known key q v hq hlast⟩

/-- One more listing has been gone through. Each field is shown for the key of the visit and for the
others. For the key itself it matters whether this is the first visit (`Learns.first`), so whether
there is a last one before it: `Visit.first?_eq_none_of_last?` ties the two together. -/
theorem Visited.visit {k : Registry} (hvisited : g.Visited tokens visits h)
    (hgives : v.reading.Gives v.replies v.snapshot) (hlearns : h.Learns tokens v p)
    (hk : ∀ key, k.get? key = if v.key = key then some p else h.get? key) :
    g.Visited tokens (visits ++ [v]) k := by
  have hown : k.get? v.key = some p := by rw [hk, if_pos rfl]
  refine ⟨?_, ?_, ?_, ?_, ?_⟩
  · intro u hu
    rcases List.mem_append.1 hu with hu | hu
    · exact hvisited.told u hu
    · rw [List.mem_singleton.1 hu]
      exact hgives
  · intro u hu
    rcases List.mem_append.1 hu with hu | hu
    · obtain ⟨q, hq, hread⟩ := hvisited.read u hu
      by_cases hkey : v.key = u.key
      · rw [← hkey] at hq ⊢
        refine ⟨p, hown, ?_⟩
        cases hlearns with
        | again there _ =>
          rw [there, Option.some.injEq] at hq
          subst hq
          exact hread
        | first _ unknown _ =>
          rw [unknown] at hq
          cases hq
      · exact ⟨q, by rw [hk, if_neg hkey, hq], hread⟩
    · rw [List.mem_singleton.1 hu]
      refine ⟨p, hown, ?_⟩
      cases hlearns with
      | again _ read => exact Or.inl read
      | first _ _ read => exact Or.inr read
  · intro key q u hq hu
    rw [Visit.last?_append] at hu
    rw [hk]
    split at hu
    · next hkey =>
      cases hu
      subst hkey
      rw [if_pos rfl]
      obtain ⟨snapshot, hthere⟩ := hvisited.get?_of_known hq
      cases hlearns with
      | again there _ =>
        rw [hthere, Option.some.injEq] at there
        subst there
        rfl
      | first _ unknown _ =>
        rw [hthere] at unknown
        cases unknown
    · next hkey =>
      rw [if_neg hkey]
      exact hvisited.known key q u hq hu
  · intro key u hnone hu
    rw [Visit.last?_append] at hu
    rw [Visit.first?_append, hk]
    split at hu
    · next hkey =>
      cases hu
      subst hkey
      rw [if_pos rfl, if_pos rfl]
      cases hlast : Visit.last? visits v.key with
      | none =>
        -- the first listing of its key
        have hunknown : h.get? v.key = none := by rw [hvisited.others v.key hlast, hnone]
        cases hlearns with
        | again there _ =>
          rw [hunknown] at there
          cases there
        | first id _ read =>
          exact ⟨v, id, by rw [Visit.first?_eq_none_of_last? hlast, Option.none_or], read, rfl⟩
      | some earlier =>
        obtain ⟨first, id, hfirst, hread, hthere⟩ := hvisited.new v.key earlier hnone hlast
        cases hlearns with
        | again there _ =>
          rw [hthere, Option.some.injEq] at there
          subst there
          exact ⟨first, id, by rw [hfirst, Option.some_or], hread, rfl⟩
        | first _ unknown _ =>
          rw [hthere] at unknown
          cases unknown
    · next hkey =>
      rw [if_neg hkey, if_neg hkey, Option.or_none]
      exact hvisited.new key u hnone hu
  · intro key hnone
    rw [Visit.last?_append] at hnone
    split at hnone
    · cases hnone
    · next hkey => rw [hk, if_neg hkey, hvisited.others key hnone]

end Registry

end PoolMarket
