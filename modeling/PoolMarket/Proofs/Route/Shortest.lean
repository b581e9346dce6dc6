import PoolMarket.Proofs.Route.Walk

/-!
# Routes with the fewest hops

The search comes to assets in the order of their distance from the source. Its invariant says so of
the queue, and that the links of every visited asset lead back along a shortest walk. From it come
the two halves of the main statement: a search whose queue is empty has visited all that can be
reached, and the links of a target that was just seen give a route that no walk undercuts.

* `Search.Trace` — the hops that links record, as a relation; `unwind_eq` says that `unwind` finds
  them and `nodup` that no asset comes twice.
* `Search.Invariant` — with a step lemma for each thing a search does: `reach` a new asset, `pop`
  one that is done, and `scan` over neighbours as the iteration of the former.
* `Invariant.run` — the invariant along the whole search, by induction along its own recursion.
-/

namespace PoolMarket

namespace Search

/-! ## Following links back

`unwind` follows links with a bound on their number, and would stop silently where one is missing.
The relation `Trace` has no such cases, so the invariant is about traces, and that `unwind` agrees
with them is proved once. -/

/-- The hops that links record from the source to an asset. -/
inductive Trace (links : Links) (source : Denom) : Denom → List Hop → Prop where
  | source : Trace links source source []
  | link {previous d : Denom} {hops : List Hop} (hne : d ≠ source)
      (hlink : links[d]? = some previous) (htrace : Trace links source previous hops) :
      Trace links source d (hops ++ [⟨previous, d⟩])

namespace Trace

variable {links : Links} {source d : Denom} {hops : List Hop}

/-- Links lead back in one way only: each asset has one link, and the source is recognized before
any is followed. By induction on the first of the two `Trace`s. -/
theorem unique {other : List Hop} (h : Trace links source d hops)
    (hother : Trace links source d other) : hops = other := by
  induction h generalizing other with
  | source =>
    cases hother with
    | source => rfl
    | link hne => exact absurd rfl hne
  | link hne hlink _ ih =>
    cases hother with
    | source => exact absurd rfl hne
    | link _ hlink' htrace' =>
      rw [hlink, Option.some.injEq] at hlink'
      subst hlink'
      rw [ih htrace']

/-- The link of a new asset leaves the traces of the others as they are, since none of them passes
it. It is the frame of `Search.reach`. -/
theorem insert {next current : Denom} (h : Trace links source d hops) (hnew : next ∉ links) :
    Trace (links.insert next current) source d hops := by
  induction h with
  | source => exact .source
  | link hne hlink _ ih =>
    refine .link hne ?_ ih
    rw [Std.TreeMap.getElem?_insert, if_neg, hlink]
    intro hcompare
    refine hnew (Std.TreeMap.mem_iff_isSome_getElem?.2 ?_)
    rw [Std.LawfulEqOrd.eq_of_compare hcompare, hlink]
    rfl

/-- Walking back along a trace gives its hops; no link is missing on the way. By induction on the
trace, with the hops behind it and the bound generalized, because `unwind` puts hops in front of
those it has. -/
theorem unwind_eq (h : Trace links source d hops) {n : Nat} (hn : hops.length ≤ n)
    (behind : List Hop) : unwind links source n d behind = hops ++ behind := by
  induction h generalizing n behind with
  | source => cases n <;> simp [unwind]
  | @link previous d hops hne hlink _ ih =>
    -- one link is followed, and the rest of the trace is shorter
    rw [List.length_append, List.length_singleton] at hn
    obtain ⟨m, rfl⟩ : ∃ m, n = m + 1 := ⟨n - 1, by omega⟩
    rw [unwind, if_neg hne, hlink]
    show unwind links source m previous (⟨previous, d⟩ :: behind) = _
    rw [ih (by omega), List.append_assoc, List.singleton_append]

/-- Each asset that a trace passes has a trace of its own, which is no longer: the part up to it. By
induction on the `Trace`. -/
theorem exists_of_mem (h : Trace links source d hops) :
    ∀ x ∈ source :: hops.map Hop.target,
      ∃ before, Trace links source x before ∧ before.length ≤ hops.length := by
  induction h with
  | source =>
    intro x hx
    rw [List.map_nil, List.mem_singleton] at hx
    exact ⟨[], hx ▸ .source, Nat.le_refl _⟩
  | @link previous d hops hne hlink htrace ih =>
    intro x hx
    rw [List.map_append, ← List.cons_append, List.mem_append] at hx
    -- the asset lies on the way to the last hop, or is where that hop leads
    rcases hx with hx | hx
    · obtain ⟨before, hbefore, hlen⟩ := ih x hx
      refine ⟨before, hbefore, ?_⟩
      rw [List.length_append]
      omega
    · rw [List.map_singleton, List.mem_singleton] at hx
      exact ⟨_, hx ▸ .link hne hlink htrace, Nat.le_refl _⟩

/-- A trace comes to no asset twice: the second visit would have a longer trace (`exists_of_mem`),
and there is only one (`unique`). -/
theorem nodup (h : Trace links source d hops) : (source :: hops.map Hop.target).Nodup := by
  induction h with
  | source => simp
  | @link previous d hops hne hlink htrace ih =>
    rw [List.map_append, ← List.cons_append, List.nodup_append]
    refine ⟨ih, by simp, fun x hx y hy hxy => ?_⟩
    rw [List.map_singleton, List.mem_singleton] at hy
    obtain ⟨before, hbefore, hlen⟩ := htrace.exists_of_mem x hx
    -- `d` has one trace only, but the one found on the way is shorter than the whole
    have hsame := (hxy.trans hy ▸ hbefore).unique (Trace.link hne hlink htrace)
    rw [hsame, List.length_append, List.length_singleton] at hlen
    omega

end Trace

/-! ## The invariant

`front` stands for the assets whose neighbours are still to be looked at: the queue, and while its
first asset is being dealt with that one too. The invariant is the usual one of a breadth-first
search. Its distances come from `TradeMap.dist`, so no counter has to be added to the search. -/

variable {map : TradeMap} {source target current next : Denom} {s : Search}

/-- The links of an asset lead back to the source along a shortest walk, and are no more than there
are links at all, which is the bound that `unwind` is given. -/
def Traced (map : TradeMap) (source : Denom) (links : Links) (d : Denom) : Prop :=
  ∃ hops, Trace links source d hops ∧ map.Walk source d hops ∧
    hops.length = map.dist source d ∧ hops.length ≤ links.size

/-- What holds of a search while the neighbours of the assets of `front` are still to be looked
at: those of every other visited asset are visited too, and `front` is sorted by distance, with
distances at most one apart. -/
structure Invariant (map : TradeMap) (source : Denom) (front : List Denom) (s : Search) : Prop where
  source_visited : source ∈ s.visited
  links_visited : ∀ d ∈ s.links, d ∈ s.visited
  front_visited : ∀ d ∈ front, d ∈ s.visited
  traced : ∀ d ∈ s.visited, Traced map source s.links d
  closed : ∀ d ∈ s.visited, d ∉ front → ∀ n, map.Trades d n → n ∈ s.visited
  sorted : front.Pairwise fun a b => map.dist source a ≤ map.dist source b
  level : ∀ a ∈ front, ∀ b ∈ front, map.dist source b ≤ map.dist source a + 1

/-- The invariant is about what was visited, whatever waits; the queue enters it as `front` only. -/
theorem Invariant.requeue {front : List Denom} (h : Invariant map source front s)
    (queue : List Denom) : Invariant map source front { s with queue } :=
  ⟨h.source_visited, h.links_visited, h.front_visited, h.traced, h.closed, h.sorted, h.level⟩

/-- It holds of the search that has visited just the source. The only trace is the empty one, and
`dist_self` is its length. -/
theorem invariant_start (map : TradeMap) (source : Denom) :
    Invariant map source [source] (.start source) := by
  have hvisited (d : Denom) : d ∈ (start source).visited ↔ source = d := by
    simp [start, Std.TreeSet.mem_insert]
  refine ⟨(hvisited source).2 rfl, ?_, ?_, ?_, ?_, List.pairwise_singleton _ _, ?_⟩
  · intro d hd
    exact absurd hd Std.TreeMap.not_mem_emptyc
  · intro d hd
    exact (hvisited d).2 (List.mem_singleton.1 hd).symm
  · intro d hd
    rw [← (hvisited d).1 hd]
    exact ⟨[], .source, .refl map source, (map.dist_self source).symm, Nat.zero_le _⟩
  · intro d hd hfront
    exact absurd (List.mem_singleton.2 ((hvisited d).1 hd).symm) hfront
  · intro a ha b hb
    rw [List.mem_singleton.1 ha, List.mem_singleton.1 hb]
    exact Nat.le_succ _

theorem Invariant.current_le {d : Denom} (h : Invariant map source (current :: s.queue) s)
    (hd : d ∈ current :: s.queue) : map.dist source current ≤ map.dist source d := by
  rcases List.mem_cons.1 hd with rfl | hqueue
  · exact Nat.le_refl _
  · exact (List.pairwise_cons.1 h.sorted).1 d hqueue

/-- Only an asset of the front has a neighbour that was not seen: the others are `closed`. -/
theorem Invariant.mem_front {front : List Denom} {d n : Denom} (h : Invariant map source front s)
    (hd : d ∈ s.visited) (htrades : map.Trades d n) (hn : n ∉ s.visited) : d ∈ front := by
  by_contra hout
  exact hn (h.closed d hd hout n htrades)

/-- What a walk leads to that is no longer than the asset in front is far has been visited: the walk
would leave the visited assets by one that waits and is nearer than the one in front
(`Walk.exists_exit`, `mem_front`). -/
theorem Invariant.mem_visited_of_walk {d : Denom} {hops : List Hop}
    (h : Invariant map source (current :: s.queue) s) (hwalk : map.Walk source d hops)
    (hlength : hops.length ≤ map.dist source current) : d ∈ s.visited := by
  by_contra hd
  obtain ⟨before, x, y, hbefore, hx, hxy, hy, hless⟩ :=
    hwalk.exists_exit (· ∈ s.visited) h.source_visited hd
  have hnear := h.current_le (h.mem_front hx hxy hy)
  have hfar := hbefore.dist_le
  omega

/-- An asset seen for the first time from the front of the queue is one hop further than that: what
a shorter walk leads to has been visited (`mem_visited_of_walk`). So its link is the last hop of a
shortest walk. -/
theorem Invariant.traced_new (h : Invariant map source (current :: s.queue) s)
    (htrades : map.Trades current next) (hnew : next ∉ s.visited) :
    map.dist source next = map.dist source current + 1 ∧
      Traced map source (s.reach current next).links next := by
  obtain ⟨hops, htrace, hwalk, hdist, hsize⟩ :=
    h.traced current (h.front_visited current List.mem_cons_self)
  have hnext := hwalk.concat htrades
  have hunlinked : next ∉ s.links := fun hmem => hnew (h.links_visited next hmem)
  have hshortest (other : List Hop) (hother : map.Walk source next other) :
      (hops ++ [Hop.mk current next]).length ≤ other.length := by
    -- a shorter walk would have brought the search there before
    have hfar : map.dist source current < other.length := by
      by_contra hnear
      exact hnew (h.mem_visited_of_walk hother (Nat.le_of_not_lt hnear))
    rw [List.length_append, List.length_singleton]
    omega
  have hdist' := TradeMap.dist_eq hnext hshortest
  rw [List.length_append, List.length_singleton, hdist] at hdist'
  refine ⟨hdist', hops ++ [⟨current, next⟩], ?_, hnext, (TradeMap.dist_eq hnext hshortest).symm, ?_⟩
  · refine .link ?_ Std.TreeMap.getElem?_insert_self (htrace.insert hunlinked)
    rintro rfl
    exact hnew h.source_visited
  · have hgrown : (s.reach current next).links.size = s.links.size + 1 := by
      rw [reach, Std.TreeMap.size_insert, if_neg]
      exact hunlinked
    rw [List.length_append, List.length_singleton, hgrown]
    exact Nat.succ_le_succ hsize

/-- Reaching a new asset keeps the invariant; it waits behind all others, being at least as far as
they are and at most one hop further (`traced_new`). -/
theorem Invariant.reach (h : Invariant map source (current :: s.queue) s)
    (htrades : map.Trades current next) (hnew : next ∉ s.visited) :
    Invariant map source (current :: (s.reach current next).queue) (s.reach current next) := by
  obtain ⟨hdist, htraced⟩ := h.traced_new htrades hnew
  have hunlinked : next ∉ s.links := fun hmem => hnew (h.links_visited next hmem)
  have hfront : current :: (s.reach current next).queue = (current :: s.queue) ++ [next] := rfl
  -- the new asset is at least as far as all that wait, and at most one hop further
  have hnear (d : Denom) (hd : d ∈ current :: s.queue) :
      map.dist source d ≤ map.dist source next ∧ map.dist source next ≤ map.dist source d + 1 := by
    have habove := h.level current (by simp) d hd
    have hbelow := h.current_le hd
    omega
  rw [hfront]
  refine ⟨mem_visited_reach.2 (Or.inr h.source_visited), ?_, ?_, ?_, ?_, ?_, ?_⟩
  · intro d hd
    rw [Search.reach, Std.TreeMap.mem_insert] at hd
    refine mem_visited_reach.2 (hd.imp Std.LawfulEqOrd.eq_of_compare (h.links_visited d))
  · intro d hd
    rcases List.mem_append.1 hd with hd | hd
    · exact mem_visited_reach.2 (Or.inr (h.front_visited d hd))
    · exact mem_visited_reach.2 (Or.inl (List.mem_singleton.1 hd).symm)
  · intro d hd
    rcases mem_visited_reach.1 hd with rfl | hd
    · exact htraced
    · obtain ⟨hops, htrace, hwalk, hlen, hsize⟩ := h.traced d hd
      refine ⟨hops, htrace.insert hunlinked, hwalk, hlen, ?_⟩
      exact Nat.le_trans hsize Std.TreeMap.size_le_size_insert
  · intro d hd hout n hn
    rw [List.mem_append, not_or, List.mem_singleton] at hout
    rcases mem_visited_reach.1 hd with rfl | hd
    · exact absurd rfl hout.2
    · exact mem_visited_reach.2 (Or.inr (h.closed d hd hout.1 n hn))
  · rw [List.pairwise_append]
    refine ⟨h.sorted, List.pairwise_singleton _ _, fun a ha b hb => ?_⟩
    rw [List.mem_singleton.1 hb]
    exact (hnear a ha).1
  · intro a ha b hb
    rcases List.mem_append.1 ha with ha | ha <;> rcases List.mem_append.1 hb with hb | hb
    · exact h.level a ha b hb
    · rw [List.mem_singleton.1 hb]
      exact (hnear a ha).2
    · rw [List.mem_singleton.1 ha]
      have := (hnear b hb).1
      omega
    · rw [List.mem_singleton.1 ha, List.mem_singleton.1 hb]
      exact Nat.le_succ _

/-- An asset all of whose neighbours are visited leaves the front, as it is `closed` from then
on. -/
theorem Invariant.pop {front : List Denom} (h : Invariant map source (current :: front) s)
    (hall : ∀ n, map.Trades current n → n ∈ s.visited) : Invariant map source front s where
  source_visited := h.source_visited
  links_visited := h.links_visited
  front_visited d hd := h.front_visited d (List.mem_cons_of_mem current hd)
  traced := h.traced
  closed d hd hout n hn := by
    by_cases hcurrent : d = current
    · exact hall n (hcurrent ▸ hn)
    · refine h.closed d hd ?_ n hn
      rw [List.mem_cons, not_or]
      exact ⟨hcurrent, hout⟩
  sorted := (List.pairwise_cons.1 h.sorted).2
  level a ha b hb := h.level a (List.mem_cons_of_mem current ha) b (List.mem_cons_of_mem current hb)

/-! ## One asset of the queue

`scan` goes through the neighbours of one asset, reaching those that are new. Its two outcomes
have a lemma each, both by induction on the neighbours still to be looked at with the search
generalized. -/

/-- Looking at neighbours of the front asset visits each of them and keeps the invariant. The target
is not among what was visited, or the scan would have ended with it. By induction on them, with
`Invariant.reach` for one that is new. -/
theorem Invariant.scan_waiting {ns : List Denom} {t : Search}
    (h : Invariant map source (current :: s.queue) s) (hns : ∀ n ∈ ns, map.Trades current n)
    (htarget : target ∉ s.visited) (hscan : scan target current ns s = .waiting t) :
    Invariant map source (current :: t.queue) t ∧ (∀ d ∈ s.visited, d ∈ t.visited) ∧
      (∀ n ∈ ns, n ∈ t.visited) ∧ target ∉ t.visited := by
  induction ns generalizing s with
  | nil =>
    cases hscan
    exact ⟨h, fun _ hd => hd, by simp, htarget⟩
  | cons next rest ih =>
    have hrest : ∀ n ∈ rest, map.Trades current n := fun n hn => hns n (List.mem_cons_of_mem _ hn)
    rw [scan] at hscan
    split at hscan
    · -- a neighbour that was visited before changes nothing
      next hseen =>
      obtain ⟨hinv, hkeep, hvisit, hout⟩ := ih h hrest htarget hscan
      refine ⟨hinv, hkeep, fun n hn => ?_, hout⟩
      rcases List.mem_cons.1 hn with rfl | hn
      · exact hkeep _ hseen
      · exact hvisit n hn
    · next hnew =>
      split at hscan
      · cases hscan
      · next hne =>
        have hreach := h.reach (hns next (by simp)) hnew
        have hout' : target ∉ (s.reach current next).visited := by
          rw [mem_visited_reach, not_or]
          exact ⟨hne, htarget⟩
        obtain ⟨hinv, hkeep, hvisit, hout⟩ := ih hreach hrest hout' hscan
        refine ⟨hinv, fun d hd => hkeep d (mem_visited_reach.2 (Or.inr hd)), fun n hn => ?_, hout⟩
        rcases List.mem_cons.1 hn with rfl | hn
        · exact hkeep _ (mem_visited_reach.2 (Or.inl rfl))
        · exact hvisit n hn

/-- The links of a target that has come into sight lead back along a shortest walk: it is a new
asset, and `traced_new` says so of every one. -/
theorem Invariant.scan_arrived {ns : List Denom} {links : Links}
    (h : Invariant map source (current :: s.queue) s) (hns : ∀ n ∈ ns, map.Trades current n)
    (hscan : scan target current ns s = .arrived links) : Traced map source links target := by
  induction ns generalizing s with
  | nil => cases hscan
  | cons next rest ih =>
    have hrest : ∀ n ∈ rest, map.Trades current n := fun n hn => hns n (List.mem_cons_of_mem _ hn)
    rw [scan] at hscan
    split at hscan
    · exact ih h hrest hscan
    · next hnew =>
      split at hscan
      · next heq =>
        cases hscan
        exact heq ▸ (h.traced_new (hns next (by simp)) hnew).2
      · exact ih (h.reach (hns next (by simp)) hnew) hrest hscan

/-! ## The whole search

A search ends in two ways, and the invariant answers for both: `Traced` for a route that was found,
`closed` with an empty front for one that there is not. -/

/-- A route along which no asset is visited twice and which no walk undercuts. -/
structure Shortest (map : TradeMap) (source target : Denom) (r : Route) : Prop where
  walk : map.Walk source target r.hops
  nodup : (source :: r.hops.map Hop.target).Nodup
  length_le : ∀ hops, map.Walk source target hops → r.length ≤ hops.length

/-- Unwinding the links of such an asset gives a shortest route (`Trace.unwind_eq`,
`Trace.nodup`). -/
theorem Traced.shortest {links : Links} (h : Traced map source links target) :
    Shortest map source target ⟨unwind links source links.size target []⟩ := by
  obtain ⟨hops, htrace, hwalk, hdist, hsize⟩ := h
  rw [htrace.unwind_eq hsize, List.append_nil]
  exact ⟨hwalk, htrace.nodup, fun other hother => Nat.le_trans hdist.le hother.dist_le⟩

/-- With nothing left to look at, what was not visited cannot be reached: a walk to it would leave
the visited assets by some hop (`Walk.exists_exit`), and all of these are closed. -/
theorem Invariant.not_walk (h : Invariant map source [] s) (htarget : target ∉ s.visited)
    (hops : List Hop) : ¬ map.Walk source target hops := by
  intro hwalk
  obtain ⟨_, x, y, _, hx, hxy, hy, _⟩ := hwalk.exists_exit (· ∈ s.visited) h.source_visited htarget
  exact hy (h.closed x hx (List.not_mem_nil) y hxy)

/-- A search that keeps the invariant ends with a shortest route, or because there is none. By
induction along `Search.run`: once the neighbours of the asset in front are looked at, it leaves the
front. -/
theorem Invariant.run (h : Invariant map source s.queue s) (htarget : target ∉ s.visited) :
    match run map source target s with
    | some r => Shortest map source target r
    | none => ∀ hops, ¬ map.Walk source target hops := by
  fun_induction Search.run map source target s with
  | case1 s hq =>
    rw [hq] at h
    exact h.not_walk htarget
  | case2 s current rest hq links hscan =>
    rw [hq] at h
    exact (Invariant.scan_arrived (h.requeue rest) (fun _ hn => hn) hscan).shortest
  | case3 s current rest hq t hscan ih =>
    -- all neighbours of the asset in front are visited now, so it leaves the front
    rw [hq] at h
    obtain ⟨hinv, _, hvisit, hout⟩ :=
      Invariant.scan_waiting (s := { s with queue := rest }) (h.requeue rest) (fun _ hn => hn)
        htarget hscan
    exact ih (hinv.pop hvisit) hout

/-! ### One turn of a search

The recursion of `run` is well-founded, so it does not unfold by itself. These two equations are
for whoever runs a search on a given map. -/

/-- A turn that leaves the search waiting goes on with what it has become (`Search.run`). -/
theorem run_of_waiting (front : Denom) {t : Search} {rest : List Denom}
    (hqueue : s.queue = front :: rest)
    (hscan : scan target front (map.neighbours front) { s with queue := rest } = .waiting t) :
    run map source target s = run map source target t := by
  fun_cases run map source target s with
  | case1 hempty =>
    rw [hqueue] at hempty
    cases hempty
  | case2 d ds hfront links hlinks =>
    obtain ⟨rfl, rfl⟩ := List.cons.inj (hqueue.symm.trans hfront)
    cases hscan.symm.trans hlinks
  | case3 d ds hfront u hu =>
    obtain ⟨rfl, rfl⟩ := List.cons.inj (hqueue.symm.trans hfront)
    cases hscan.symm.trans hu
    rfl

/-- A turn that comes to the target ends with the links unwound (`Search.run`). -/
theorem run_of_arrived (front : Denom) {links : Links} {rest : List Denom}
    (hqueue : s.queue = front :: rest)
    (hscan : scan target front (map.neighbours front) { s with queue := rest } = .arrived links) :
    run map source target s = some ⟨unwind links source links.size target []⟩ := by
  fun_cases run map source target s with
  | case1 hempty =>
    rw [hqueue] at hempty
    cases hempty
  | case2 d ds hfront links' hlinks =>
    obtain ⟨rfl, rfl⟩ := List.cons.inj (hqueue.symm.trans hfront)
    cases hscan.symm.trans hlinks
    rfl
  | case3 d ds hfront u hu =>
    obtain ⟨rfl, rfl⟩ := List.cons.inj (hqueue.symm.trans hfront)
    cases hscan.symm.trans hu

end Search

/-! ## Routes of a trade map

`route?` starts the search, except for a route from an asset to itself, which is empty without one.
Each lemma therefore has that case apart. -/

namespace TradeMap

variable {map : TradeMap} {source target : Denom}

theorem route?_self (map : TradeMap) (d : Denom) : map.route? d d = some .empty := by
  rw [route?, if_pos rfl]

/-- What the search of `route?` comes to: `Invariant.run` from the start. -/
theorem run_start (map : TradeMap) (hne : source ≠ target) :
    match map.route? source target with
    | some r => Search.Shortest map source target r
    | none => ∀ hops, ¬ map.Walk source target hops := by
  have hunseen : target ∉ (Search.start source).visited := by
    simpa [Search.start, Std.TreeSet.mem_insert] using hne
  rw [route?, if_neg hne]
  exact Search.Invariant.run (s := .start source) (Search.invariant_start map source) hunseen

/-- Every route that is found is a shortest one, the empty route from an asset to itself included
(`route?_self`). -/
theorem shortest_of_route? {r : Route} (h : map.route? source target = some r) :
    Search.Shortest map source target r := by
  -- no search is made for a route from an asset to itself
  by_cases heq : source = target
  · subst heq
    rw [route?_self, Option.some.injEq] at h
    subst h
    exact ⟨Walk.refl map source, by simp [Route.empty], fun _ _ => Nat.zero_le _⟩
  · have hrun := run_start map heq
    rw [h] at hrun
    exact hrun

/-- There is a route exactly where there is a walk (`shortest_of_route?`). -/
theorem isSome_route?_iff :
    (map.route? source target).isSome = true ↔ ∃ hops, map.Walk source target hops := by
  constructor
  · intro h
    obtain ⟨r, hr⟩ := Option.isSome_iff_exists.1 h
    exact ⟨r.hops, (shortest_of_route? hr).walk⟩
  · rintro ⟨hops, hwalk⟩
    by_cases heq : source = target
    · rw [heq, route?_self]
      rfl
    · have hrun := run_start map heq
      cases hr : map.route? source target with
      | some r => rfl
      | none =>
        rw [hr] at hrun
        exact absurd hwalk (hrun hops)

/-- The search ends for every trade map. It finds a route exactly where the target is the source or
can be reached by following neighbour lists, and every route it finds is a chain of hops to
neighbours that comes to no asset twice and has the fewest hops. Where there is a route is
`isSome_route?_iff`, and that it is a shortest walk is `shortest_of_route?`. -/
theorem route?_fewest_hops (map : TradeMap) (source target : Denom) :
    ((map.route? source target).isSome = true ↔
        source = target ∨ Relation.TransGen map.Trades source target) ∧
      ∀ r, map.route? source target = some r →
        (source = target → r = .empty) ∧ r.connects source target = true ∧
        (source ≠ target → r.hops.head?.map Hop.source = some source ∧
          r.hops.getLast?.map Hop.target = some target) ∧
        r.hops.IsChain (fun g h => g.target = h.source) ∧
        (∀ h ∈ r.hops, h.target ∈ map.neighbours h.source) ∧
        (source :: r.hops.map Hop.target).Nodup ∧
        ∀ hops, map.Walk source target hops → r.length ≤ hops.length := by
  constructor
  · rw [isSome_route?_iff, exists_walk_iff, Relation.reflTransGen_iff_eq_or_transGen, eq_comm]
  · intro r hr
    obtain ⟨hwalk, hnodup, hfewest⟩ := shortest_of_route? hr
    obtain ⟨hchain, hends⟩ := (Route.chains_iff r.hops source target).1 hwalk.chains
    refine ⟨?_, hwalk.chains, fun hne => ?_, hchain, hwalk.trades, hnodup, hfewest⟩
    · rintro rfl
      rw [route?_self] at hr
      exact (Option.some.inj hr).symm
    · rcases hends with ⟨_, heq⟩ | hends
      · exact absurd heq hne
      · exact hends

end TradeMap

end PoolMarket
