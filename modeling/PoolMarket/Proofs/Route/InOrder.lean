import PoolMarket.Proofs.Route.Shortest

/-!
# The first of the shortest routes

Several routes may have the fewest hops. The search returns the one that comes first when routes are
compared hop by hop, by where the next asset stands in the neighbour list of the asset that is left.
The reason is the order of the queue: assets of one distance wait in the order of the routes their
links record, so a new asset is seen first from the asset whose route comes first.

* `TradeMap.Precedes` — the order of routes: at the first hop that differs, the neighbour that is
  listed earlier.
* `TradeMap.First` — a shortest walk that precedes all others of its length; there is at most one.
* `Search.Ordered` — extends the invariant of `Search` by what the links record and by the order in
  which assets wait; preserved by `reach`, `pop` and `scan` as that one is.
* `route?_eq_some_iff` — the route is the first walk, in both directions.
-/

namespace PoolMarket

namespace TradeMap

variable {map : TradeMap} {source target : Denom} {hops other : List Hop}

/-! ## Routes in the order of the neighbour lists

`Precedes` compares two lists of hops from the front, as words in a dictionary. Its lemmas are
those of a strict order, and that it may be decided before the ends of the lists. -/

/-- Two hops leave one asset, and the first goes to the neighbour that is listed earlier. -/
def Sooner (map : TradeMap) (h g : Hop) : Prop :=
  h.source = g.source ∧
    (map.neighbours h.source).idxOf h.target < (map.neighbours h.source).idxOf g.target

theorem Sooner.trans {f g h : Hop} (hfg : map.Sooner f g) (hgh : map.Sooner g h) :
    map.Sooner f h := by
  obtain ⟨hsource, hless⟩ := hfg
  refine ⟨hsource.trans hgh.1, Nat.lt_trans hless ?_⟩
  rw [hsource]
  exact hgh.2

/-- Where two lists of hops first differ, the hop of the one is sooner than that of the other. -/
inductive Precedes (map : TradeMap) : List Hop → List Hop → Prop where
  | here {h g : Hop} (rest rest' : List Hop) (hsooner : map.Sooner h g) :
      Precedes map (h :: rest) (g :: rest')
  | behind (h : Hop) {rest rest' : List Hop} (hrest : Precedes map rest rest') :
      Precedes map (h :: rest) (h :: rest')

namespace Precedes

/-- The first difference with what is in front of it and behind it, spelled out: the form in which
the order is stated to whoever asks for a route (`Precedes`). -/
theorem iff_exists :
    map.Precedes hops other ↔
      ∃ before h g rest rest', hops = before ++ h :: rest ∧ other = before ++ g :: rest' ∧
        map.Sooner h g := by
  constructor
  · intro hprecedes
    induction hprecedes with
    | here rest rest' hsooner => exact ⟨[], _, _, rest, rest', rfl, rfl, hsooner⟩
    | behind f _ ih =>
      obtain ⟨before, h, g, rest, rest', hhops, hother, hsooner⟩ := ih
      exact ⟨f :: before, h, g, rest, rest', by simp [hhops], by simp [hother], hsooner⟩
  · intro ⟨before, h, g, rest, rest', hhops, hother, hsooner⟩
    subst hhops hother
    induction before with
    | nil => exact .here rest rest' hsooner
    | cons f before ih => exact .behind f ih

theorem append (h : map.Precedes hops other) (more more' : List Hop) :
    map.Precedes (hops ++ more) (other ++ more') := by
  induction h with
  | here rest rest' hsooner => exact .here (rest ++ more) (rest' ++ more') hsooner
  | behind f _ ih => exact .behind f ih

theorem concat {h g : Hop} (hsooner : map.Sooner h g) (before : List Hop) :
    map.Precedes (before ++ [h]) (before ++ [g]) :=
  iff_exists.2 ⟨before, h, g, [], [], rfl, rfl, hsooner⟩

/-- The order is transitive. By induction on the first comparison; where both differ at the same
hop, the hops are compared (`Sooner.trans`). -/
theorem trans {third : List Hop} (h : map.Precedes hops other) (h' : map.Precedes other third) :
    map.Precedes hops third := by
  induction h generalizing third with
  | here rest rest' hsooner =>
    cases h' with
    | here _ rest'' hsooner' => exact .here rest rest'' (hsooner.trans hsooner')
    | @behind _ _ rest'' _ => exact .here rest rest'' hsooner
  | @behind f rest rest' _ ih =>
    cases h' with
    | here _ rest'' hsooner' => exact .here rest rest'' hsooner'
    | behind _ hrest => exact .behind f (ih hrest)

theorem of_neighbours {map' : TradeMap} (h : map.Precedes hops other)
    (hsame : ∀ d, map'.neighbours d = map.neighbours d) : map'.Precedes hops other := by
  induction h with
  | here rest rest' hsooner =>
    refine .here rest rest' ⟨hsooner.1, ?_⟩
    rw [hsame]
    exact hsooner.2
  | behind f _ ih => exact .behind f ih

/-- No list of hops precedes itself: a hop is not sooner than itself. It is what makes the first
walk one (`First`). -/
theorem irrefl (hops : List Hop) : ¬ map.Precedes hops hops := by
  induction hops with
  | nil =>
    intro h
    cases h
  | cons f rest ih =>
    intro h
    cases h with
    | here _ _ hsooner => exact Nat.lt_irrefl _ hsooner.2
    | behind _ hrest => exact ih hrest

end Precedes

/-- A shortest walk that precedes every other one. -/
structure First (map : TradeMap) (source target : Denom) (hops : List Hop) : Prop where
  walk : map.Walk source target hops
  length_le : ∀ other, map.Walk source target other → hops.length ≤ other.length
  precedes : ∀ other, map.Walk source target other → other.length = hops.length →
    other ≠ hops → map.Precedes hops other

namespace First

theorem refl (map : TradeMap) (d : Denom) : map.First d d [] where
  walk := Walk.refl map d
  length_le _ _ := Nat.zero_le _
  precedes _ _ hlength hne := absurd (List.eq_nil_of_length_eq_zero hlength) hne

theorem length_eq_dist (h : map.First source target hops) : hops.length = map.dist source target :=
  (dist_eq h.walk h.length_le).symm

/-- There is at most one first walk: of two, each would precede the other (`Precedes.trans`,
`Precedes.irrefl`). -/
theorem unique (h : map.First source target hops) (h' : map.First source target other) :
    hops = other := by
  have hlength : other.length = hops.length :=
    Nat.le_antisymm (h'.length_le hops h.walk) (h.length_le other h'.walk)
  by_contra hne
  have hforth := h.precedes other h'.walk hlength (Ne.symm hne)
  have hback := h'.precedes hops h.walk hlength.symm hne
  exact Precedes.irrefl hops (hforth.trans hback)

/-- Which walk is the first depends on the neighbour lists only (`Precedes.of_neighbours`). -/
theorem of_neighbours {map' : TradeMap} (h : map.First source target hops)
    (hsame : ∀ d, map'.neighbours d = map.neighbours d) : map'.First source target hops := by
  have hback (other : List Hop) (hother : map'.Walk source target other) :
      map.Walk source target other := hother.of_neighbours fun d => (hsame d).symm
  refine ⟨h.walk.of_neighbours hsame, fun other hother => h.length_le other (hback other hother), ?_⟩
  intro other hother hlength hne
  exact (h.precedes other (hback other hother) hlength hne).of_neighbours hsame

end First

end TradeMap

namespace Search

open TradeMap

variable {map : TradeMap} {source target current next : Denom} {s : Search}

/-! ## The hops that links record

A trace is compared with others here, so it is a function of the links, `path`. The two lemmas say
how it changes when an asset is reached: not for the others, and by one hop for the new one. -/

/-- The hops that walking the links back from an asset gives. -/
def path (links : Links) (source d : Denom) : List Hop := unwind links source links.size d []

/-- A trace that is within the number of links is what `path` finds (`Trace.unwind_eq`). -/
theorem Trace.path_eq {links : Links} {d : Denom} {hops : List Hop}
    (h : Trace links source d hops) (hsize : hops.length ≤ links.size) :
    path links source d = hops := by
  rw [path, h.unwind_eq hsize, List.append_nil]

/-- The hops of an asset that was visited stay as they are when another is reached: its trace does
not pass the new one (`Trace.insert`). -/
theorem Invariant.path_reach {front : List Denom} {d : Denom} (h : Invariant map source front s)
    (hnew : next ∉ s.visited) (hd : d ∈ s.visited) :
    path (s.reach current next).links source d = path s.links source d := by
  obtain ⟨hops, htrace, -, -, hsize⟩ := h.traced d hd
  have hunlinked : next ∉ s.links := fun hmem => hnew (h.links_visited next hmem)
  rw [htrace.path_eq hsize]
  exact (htrace.insert hunlinked).path_eq (Nat.le_trans hsize Std.TreeMap.size_le_size_insert)

/-- The hops of a new asset are those of the asset it was seen from, and one more
(`Trace.path_eq`). -/
theorem Invariant.path_reach_self (h : Invariant map source (current :: s.queue) s)
    (htrades : map.Trades current next) (hnew : next ∉ s.visited) :
    path (s.reach current next).links source next =
      path s.links source current ++ [⟨current, next⟩] := by
  have hcurrent := h.front_visited current List.mem_cons_self
  obtain ⟨hops, htrace, -, -, hsize⟩ := h.traced current hcurrent
  obtain ⟨-, hops', htrace', -, -, hsize'⟩ := h.traced_new htrades hnew
  have hunlinked : next ∉ s.links := fun hmem => hnew (h.links_visited next hmem)
  have hlonger : Trace (s.reach current next).links source next (hops ++ [⟨current, next⟩]) := by
    refine .link ?_ Std.TreeMap.getElem?_insert_self (htrace.insert hunlinked)
    intro heq
    exact hnew (heq ▸ h.source_visited)
  rw [htrace.path_eq hsize, htrace'.path_eq hsize']
  exact htrace'.unique hlonger

/-! ## The order of the queue

The invariant adds two facts about the front. Assets of one distance wait in the order of their
first walks; and if some wait that are one hop further already, each of them comes before
whatever the others can still lead to. The second is what keeps the first when a new asset joins
at the end. -/

/-- A search whose links record first walks. The assets of `front` wait in the order of these walks,
and each of them comes before whatever an asset one hop nearer can still lead to. -/
structure Ordered (map : TradeMap) (source : Denom) (front : List Denom) (s : Search) : Prop
    extends Invariant map source front s where
  first : ∀ d ∈ s.visited, map.First source d (path s.links source d)
  in_order : front.Pairwise fun a b => map.dist source a = map.dist source b →
    map.Precedes (path s.links source a) (path s.links source b)
  before_new : ∀ a ∈ front, ∀ b ∈ front, map.dist source a = map.dist source b + 1 →
    ∀ n, map.Trades b n → n ∉ s.visited →
      map.Precedes (path s.links source a) (path s.links source b ++ [⟨b, n⟩])

theorem Ordered.requeue {front : List Denom} (h : Ordered map source front s)
    (queue : List Denom) : Ordered map source front { s with queue } :=
  ⟨h.toInvariant.requeue queue, h.first, h.in_order, h.before_new⟩

/-- The order holds of the search that has visited just the source, which alone is in order
(`invariant_start`). -/
theorem ordered_start (map : TradeMap) (source : Denom) :
    Ordered map source [source] (.start source) where
  toInvariant := invariant_start map source
  first d hd := by
    have heq : source = d := by simpa [start, Std.TreeSet.mem_insert] using hd
    rw [heq]
    exact First.refl map d
  in_order := List.pairwise_singleton _ _
  before_new a ha b hb hdist := by
    rw [List.mem_singleton.1 ha, List.mem_singleton.1 hb] at hdist
    omega

/-- The asset in front is the first of its distance, since it heads a list that is in order
(`First`). -/
theorem Ordered.current_precedes {d : Denom} (h : Ordered map source (current :: s.queue) s)
    (hd : d ∈ current :: s.queue) (hdist : map.dist source current = map.dist source d)
    (hne : d ≠ current) : map.Precedes (path s.links source current) (path s.links source d) := by
  have hqueue : d ∈ s.queue := (List.mem_cons.1 hd).resolve_left hne
  exact (List.pairwise_cons.1 h.in_order).1 d hqueue hdist

/-- The walk to a new asset along the one in front precedes every other that comes to it from an
asset waiting at the same distance: if the walk up to that asset is not its first one, the first
precedes it, and the hop behind does not matter (`Precedes.append`). -/
theorem Ordered.precedes_concat {x : Denom} {before : List Hop}
    (h : Ordered map source (current :: s.queue) s) (hx : x ∈ current :: s.queue)
    (hdist : map.dist source current = map.dist source x) (hbefore : map.Walk source x before)
    (hlength : before.length = map.dist source current)
    (hne : before ++ [⟨x, next⟩] ≠ path s.links source current ++ [⟨current, next⟩]) :
    map.Precedes (path s.links source current ++ [⟨current, next⟩])
      (before ++ [⟨x, next⟩]) := by
  refine Precedes.append ?_ _ _
  have hfirst := h.first x (h.front_visited x hx)
  have hsame : before.length = (path s.links source x).length := by
    rw [hlength, hdist, hfirst.length_eq_dist]
  by_cases hcurrent : x = current
  · subst hcurrent
    refine hfirst.precedes before hbefore hsame fun heq => ?_
    exact hne (by rw [heq])
  · have hqueue := h.current_precedes hx hdist hcurrent
    by_cases heq : before = path s.links source x
    · rw [heq]
      exact hqueue
    · exact hqueue.trans (hfirst.precedes before hbefore hsame heq)

/-- Along the asset in front leads the first walk to an asset that was not seen yet: any other
shortest walk comes to it from an asset that waits at the same distance (`Invariant.mem_front`), and
`precedes_concat` compares the two. -/
theorem Ordered.first_new (h : Ordered map source (current :: s.queue) s)
    (htrades : map.Trades current next) (hnew : next ∉ s.visited) :
    map.First source next (path (s.reach current next).links source next) := by
  obtain ⟨hdist, hops, htrace, hwalk, hlength, hsize⟩ := h.traced_new htrades hnew
  have hpath := h.path_reach_self htrades hnew
  rw [htrace.path_eq hsize] at hpath ⊢
  refine ⟨hwalk, fun other hother => hlength ▸ hother.dist_le, fun other hother hsame hne => ?_⟩
  obtain rfl | ⟨before, ⟨x, y⟩, rfl⟩ := List.eq_nil_or_concat' other
  · rw [List.length_nil] at hsame
    omega
  obtain ⟨hbefore, hxy, htarget⟩ := hother.unconcat
  change y = next at htarget
  subst htarget
  have hshort : before.length = map.dist source current := by
    rw [List.length_append, List.length_singleton] at hsame
    omega
  -- the asset before the last one waits, at the distance of the one in front
  have hx := h.mem_front (h.mem_visited_of_walk hbefore hshort.le) hxy hnew
  have hsame_dist : map.dist source current = map.dist source x :=
    Nat.le_antisymm (h.current_le hx) (hshort ▸ hbefore.dist_le)
  subst hpath
  exact h.precedes_concat hx hsame_dist hbefore hshort hne

/-- Of two neighbours that were not seen, the hop to the one that is met first is the sooner. -/
theorem sooner_of_split {n : Denom} {looked rest : List Denom}
    (hsplit : map.neighbours current = looked ++ next :: rest) (hnext : next ∉ looked)
    (hn : n ∉ looked) (hne : n ≠ next) : map.Sooner ⟨current, next⟩ ⟨current, n⟩ := by
  refine ⟨rfl, ?_⟩
  show (map.neighbours current).idxOf next < (map.neighbours current).idxOf n
  rw [hsplit, List.idxOf_append_of_notMem hnext, List.idxOf_append_of_notMem hn,
    List.idxOf_cons_self, List.idxOf_cons_ne rest (Ne.symm hne)]
  omega

/-- The first neighbour that was not seen comes before all else that waits to be seen from assets as
far as the one in front: from the same asset by `sooner_of_split`, from others by their walks. -/
theorem Ordered.precedes_unseen {b n : Denom} {looked rest : List Denom}
    (h : Ordered map source (current :: s.queue) s)
    (hsplit : map.neighbours current = looked ++ next :: rest)
    (hlooked : ∀ n ∈ looked, n ∈ s.visited) (hnew : next ∉ s.visited)
    (hb : b ∈ current :: s.queue) (hdist : map.dist source current = map.dist source b)
    (hn : n ∉ s.visited) (hne : n ≠ next) :
    map.Precedes (path s.links source current ++ [⟨current, next⟩])
      (path s.links source b ++ [⟨b, n⟩]) := by
  by_cases hcurrent : b = current
  · subst hcurrent
    apply Precedes.concat
    apply sooner_of_split hsplit _ _ hne
    · exact fun hmem => hnew (hlooked next hmem)
    · exact fun hmem => hn (hlooked n hmem)
  · exact (h.current_precedes hb hdist hcurrent).append _ _

/-- Reaching the first neighbour that was not seen keeps the order. Its walk is the first
(`first_new`); it waits behind those of its own distance, which precede it by `before_new`, and it
precedes what is still to be seen by `precedes_unseen`. -/
theorem Ordered.reach {looked rest : List Denom} (h : Ordered map source (current :: s.queue) s)
    (hsplit : map.neighbours current = looked ++ next :: rest)
    (hlooked : ∀ n ∈ looked, n ∈ s.visited) (hnew : next ∉ s.visited) :
    Ordered map source (current :: (s.reach current next).queue) (s.reach current next) := by
  have htrades : map.Trades current next := by simp [Trades, hsplit]
  have hdist := (h.traced_new htrades hnew).1
  have hold {d : Denom} (hd : d ∈ current :: s.queue) :
      path (s.reach current next).links source d = path s.links source d :=
    h.path_reach hnew (h.front_visited d hd)
  have hlast := h.path_reach_self htrades hnew
  have hfront : current :: (s.reach current next).queue = (current :: s.queue) ++ [next] := rfl
  have hinv := h.toInvariant.reach htrades hnew
  rw [hfront] at hinv ⊢
  refine ⟨hinv, ?_, ?_, ?_⟩
  · intro d hd
    rcases mem_visited_reach.1 hd with rfl | hd
    · exact h.first_new htrades hnew
    · rw [h.path_reach hnew hd]
      exact h.first d hd
  · rw [List.pairwise_append]
    refine ⟨?_, List.pairwise_singleton _ _, fun a ha b hb hsame => ?_⟩
    · refine h.in_order.imp_of_mem fun ha hb hprecedes => ?_
      rw [hold ha, hold hb]
      exact hprecedes
    · -- what waits one hop further comes before all that `current` leads to
      rw [List.mem_singleton.1 hb] at hsame ⊢
      rw [hold ha, hlast]
      exact h.before_new a ha current List.mem_cons_self (by omega) next htrades hnew
  · intro a ha b hb hfar n hn hunseen
    rw [mem_visited_reach, not_or] at hunseen
    obtain ⟨hne, hunseen⟩ := hunseen
    rcases List.mem_append.1 hb with hb | hb
    · rw [hold hb]
      rcases List.mem_append.1 ha with ha | ha
      · rw [hold ha]
        exact h.before_new a ha b hb hfar n hn hunseen
      · rw [List.mem_singleton.1 ha] at hfar ⊢
        rw [hlast]
        exact h.precedes_unseen hsplit hlooked hnew hb (by omega) hunseen (Ne.symm hne)
    · -- nothing that waits is further than the new asset
      rw [List.mem_singleton.1 hb] at hfar
      rcases List.mem_append.1 ha with ha | ha
      · have hnear := h.level current List.mem_cons_self a ha
        omega
      · rw [List.mem_singleton.1 ha] at hfar
        omega

/-- An asset all of whose neighbours are visited leaves the front, and has nothing new to be before
(`Ordered.first`). -/
theorem Ordered.pop {front : List Denom} (h : Ordered map source (current :: front) s)
    (hall : ∀ n, map.Trades current n → n ∈ s.visited) : Ordered map source front s where
  toInvariant := h.toInvariant.pop hall
  first := h.first
  in_order := (List.pairwise_cons.1 h.in_order).2
  before_new a ha b hb :=
    h.before_new a (List.mem_cons_of_mem current ha) b (List.mem_cons_of_mem current hb)

/-! ## The whole search

As in the proof of shortness, once over the neighbours of one asset and once along the search
itself. The neighbours that were looked at are kept as a list, because it is their order that
counts. -/

/-- Looking at the neighbours of the asset in front, in their order, keeps the order of the queue,
or comes to the target along the first walk. By induction on the neighbours that are left, those
already looked at being generalized (`Ordered.reach`). -/
theorem Ordered.scan (target : Denom) {looked ns : List Denom}
    (h : Ordered map source (current :: s.queue) s)
    (hsplit : map.neighbours current = looked ++ ns) (hlooked : ∀ n ∈ looked, n ∈ s.visited) :
    match Search.scan target current ns s with
    | .waiting t => Ordered map source (current :: t.queue) t
    | .arrived links => map.First source target (path links source target) := by
  induction ns generalizing s looked with
  | nil => exact h
  | cons next rest ih =>
    have hsplit' : map.neighbours current = (looked ++ [next]) ++ rest := by
      rw [hsplit, List.append_assoc, List.singleton_append]
    -- an asset that was visited before is passed over, the target ends the scan
    by_cases hseen : next ∈ s.visited
    · rw [Search.scan, if_pos hseen]
      refine ih h hsplit' fun n hn => ?_
      rcases List.mem_append.1 hn with hn | hn
      · exact hlooked n hn
      · exact List.mem_singleton.1 hn ▸ hseen
    · rw [Search.scan, if_neg hseen]
      by_cases heq : next = target
      · have htrades : map.Trades current next := by simp [Trades, hsplit]
        rw [if_pos heq]
        exact heq ▸ h.first_new htrades hseen
      · rw [if_neg heq]
        refine ih (h.reach hsplit hlooked hseen) hsplit' fun n hn => mem_visited_reach.2 ?_
        rcases List.mem_append.1 hn with hn | hn
        · exact Or.inr (hlooked n hn)
        · exact Or.inl (List.mem_singleton.1 hn).symm

/-- A search whose queue is in order ends with the first of the shortest walks, if with any. By
induction along `Search.run`, with `Ordered.scan` for one turn. -/
theorem Ordered.run (h : Ordered map source s.queue s) (htarget : target ∉ s.visited) {r : Route}
    (hr : run map source target s = some r) : map.First source target r.hops := by
  fun_induction Search.run map source target s with
  | case1 => cases hr
  | case2 s current rest hq links hscan =>
    rw [hq] at h
    have hfirst := Ordered.scan (s := { s with queue := rest }) target (h.requeue rest)
      (List.nil_append _).symm (List.forall_mem_nil _)
    rw [hscan] at hfirst
    cases hr
    exact hfirst
  | case3 s current rest hq t hscan ih =>
    rw [hq] at h
    have hordered := Ordered.scan (s := { s with queue := rest }) target (h.requeue rest)
      (List.nil_append _).symm (List.forall_mem_nil _)
    rw [hscan] at hordered
    -- all neighbours of the asset that leaves the queue have been visited
    obtain ⟨-, -, hvisit, hout⟩ :=
      Invariant.scan_waiting (s := { s with queue := rest }) (h.toInvariant.requeue rest)
        (fun _ hn => hn) htarget hscan
    exact ih (hordered.pop hvisit) hout hr

end Search

/-! ## Routes of a trade map

There is at most one first walk (`First.unique`), and the search finds one wherever there is a
walk, so being the route and being the first walk are the same. -/

namespace TradeMap

variable {map : TradeMap} {source target : Denom} {hops : List Hop}

/-- Every route that is found is the first walk (`ordered_start`). -/
theorem first_of_route? {r : Route} (h : map.route? source target = some r) :
    map.First source target r.hops := by
  rw [route?] at h
  split at h
  · next heq =>
    cases h
    exact heq ▸ First.refl map source
  · next hne =>
    have hunseen : target ∉ (Search.start source).visited := by
      simpa [Search.start, Std.TreeSet.mem_insert] using hne
    exact Search.Ordered.run (s := .start source) (Search.ordered_start map source) hunseen h

/-- The route of two assets is the first walk, and there is one wherever there is a walk
(`isSome_route?_iff`, `First.unique`). -/
theorem route?_eq_some_iff {r : Route} :
    map.route? source target = some r ↔ map.First source target r.hops := by
  constructor
  · exact first_of_route?
  · intro hfirst
    obtain ⟨r', hr'⟩ := Option.isSome_iff_exists.1 (isSome_route?_iff.2 ⟨r.hops, hfirst.walk⟩)
    have heq := (first_of_route? hr').unique hfirst
    rw [hr']
    exact congrArg some (congrArg Route.mk heq)

/-- The route of two assets is the first of the walks with the fewest hops: at the first hop where
any other walk of that length differs from it, it goes on to a neighbour that stands earlier in the
neighbour list of the asset left there. There is such a route exactly where there is a walk. So the
route is a matter of the neighbour lists alone. Being the first walk determines it, so both
directions are `first_of_route?`; that it depends on the lists alone is `First.of_neighbours`. -/
theorem route?_first_in_order (map : TradeMap) (source target : Denom) :
    ((map.route? source target).isSome = true ↔ ∃ hops, map.Walk source target hops) ∧
      (∀ r, map.route? source target = some r ↔
        map.Walk source target r.hops ∧
          ∀ other, map.Walk source target other → r.length ≤ other.length ∧
            (other.length = r.length → other ≠ r.hops →
              ∃ before h g rest rest', r.hops = before ++ h :: rest ∧
                other = before ++ g :: rest' ∧ h.source = g.source ∧
                (map.neighbours h.source).idxOf h.target <
                  (map.neighbours h.source).idxOf g.target)) ∧
      ∀ map' : TradeMap, (∀ d, map'.neighbours d = map.neighbours d) →
        map'.route? source target = map.route? source target := by
  refine ⟨isSome_route?_iff, fun r => route?_eq_some_iff.trans ⟨?_, ?_⟩, fun map' hsame => ?_⟩
  · intro hfirst
    refine ⟨hfirst.walk, fun other hother => ⟨hfirst.length_le other hother, ?_⟩⟩
    intro hlength hne
    exact Precedes.iff_exists.1 (hfirst.precedes other hother hlength hne)
  · intro ⟨hwalk, hothers⟩
    refine ⟨hwalk, fun other hother => (hothers other hother).1, ?_⟩
    intro other hother hlength hne
    exact Precedes.iff_exists.2 ((hothers other hother).2 hlength hne)
  · refine Option.ext fun r => ?_
    rw [route?_eq_some_iff, route?_eq_some_iff]
    constructor
    · intro hfirst
      exact hfirst.of_neighbours fun d => (hsame d).symm
    · intro hfirst
      exact hfirst.of_neighbours hsame

end TradeMap

end PoolMarket
