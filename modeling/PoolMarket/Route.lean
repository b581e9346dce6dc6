import PoolMarket.Asset.Denom
import Std.Data.TreeMap
import Std.Data.TreeSet

/-!
# Routes

A route is a list of trades through single pairs. It connects two assets when the trades chain
from the one to the other; the empty route connects an asset to itself.

`TradeMap.route?` searches for one, breadth first, and gives one with the fewest hops.
-/

namespace PoolMarket

/-- One trade through a single pair. -/
structure Hop where
  source : Denom
  target : Denom
  deriving DecidableEq, Repr

def Hop.text (h : Hop) : String := h.source.text ++ " -> " ++ h.target.text

structure Route where
  hops : List Hop
  deriving DecidableEq, Repr

namespace Route

def empty : Route := ⟨[]⟩

instance : Inhabited Route := ⟨empty⟩

def length (r : Route) : Nat := r.hops.length

def isEmpty (r : Route) : Bool := r.hops.isEmpty

/-- The route as the assets it passes through. -/
def text (r : Route) : String :=
  match r.hops with
  | [] => "(empty route)"
  | h :: _ => h.source.text ++ String.join (r.hops.map fun h => " -> " ++ h.target.text)

/-- Whether hops lead from one asset to another, each beginning where the last one ended. -/
def chains : List Hop → Denom → Denom → Bool
  | [], a, b => a == b
  | h :: rest, a, b => h.source == a && chains rest h.target b

/-- Whether the route leads from one asset to another. -/
def connects (r : Route) (source target : Denom) : Bool := chains r.hops source target

end Route

/-! ## Search for a route

The search spreads from the offered asset. Assets wait in a queue for their neighbours to be looked
at; a neighbour seen for the first time is linked to the asset that led to it and joins the queue.
Once the wanted asset is seen the links are walked back, which gives the hops. Of the routes with the
fewest hops it is the one whose neighbours come first. -/

/-- For each asset the assets it trades against directly. -/
abbrev TradeMap := Std.TreeMap Denom (List Denom)

/-- The assets an asset trades against; none for one without an entry. -/
def TradeMap.neighbours (map : TradeMap) (d : Denom) : List Denom := map.getD d []

/-- From each asset that was reached to the one that led to it. -/
abbrev Links := Std.TreeMap Denom Denom

/-- A search under way. -/
structure Search where
  links : Links
  visited : Std.TreeSet Denom
  /-- The assets whose neighbours have not been looked at, the first reached in front. -/
  queue : List Denom

/-- Where looking at some neighbours leaves a search. -/
inductive Search.Progress where
  | waiting (search : Search)
  | arrived (links : Links)

namespace Search

def start (source : Denom) : Search :=
  { links := ∅, visited := (∅ : Std.TreeSet Denom).insert source, queue := [source] }

/-- Comes to an asset for the first time. -/
def reach (s : Search) (current next : Denom) : Search :=
  { links := s.links.insert next current
    visited := s.visited.insert next
    queue := s.queue ++ [next] }

/-- Looks at neighbours of an asset in order, up to the first sight of the target. -/
def scan (target current : Denom) : List Denom → Search → Progress
  | [], s => .waiting s
  | next :: rest, s =>
    -- the first to see an asset is nearest to the source, so its link stays
    if next ∈ s.visited then scan target current rest s
    else if next = target then .arrived (s.reach current next).links
    else scan target current rest (s.reach current next)

/-- Follows links back from an asset, at most the given number of them, in front of the hops
behind it. -/
def unwind (links : Links) (source : Denom) : Nat → Denom → List Hop → List Hop
  | 0, _, hops => hops
  | n + 1, current, hops =>
    if current = source then hops
    else
      match links[current]? with
      | none => hops
      | some previous => unwind links source n previous (⟨previous, current⟩ :: hops)

/-! ### The search ends

Every asset is reached at most once, and only neighbours are reached, so with each new one fewer
entries of the neighbour lists are left. -/

/-- How many entries of the neighbour lists have not been reached. -/
def unseen (map : TradeMap) (s : Search) : Nat :=
  (map.toList.flatMap Prod.snd).countP fun d => d ∉ s.visited

@[simp] theorem mem_visited_reach {s : Search} {current next d : Denom} :
    d ∈ (s.reach current next).visited ↔ next = d ∨ d ∈ s.visited := by
  simp [reach, Std.TreeSet.mem_insert]

/-- A neighbour is an entry of some neighbour list, so only entries are ever reached
(`TradeMap.neighbours`). -/
theorem mem_flatMap_of_mem_neighbours {map : TradeMap} {d n : Denom}
    (h : n ∈ map.neighbours d) : n ∈ map.toList.flatMap Prod.snd := by
  rw [TradeMap.neighbours, Std.TreeMap.getD_eq_getD_getElem?] at h
  cases he : map[d]? with
  | none => simp [he] at h
  | some ns =>
    rw [he] at h
    exact List.mem_flatMap.2 ⟨(d, ns), Std.TreeMap.mem_toList_iff_getElem?_eq_some.2 he, h⟩

/-- Reaching an entry that was not visited leaves fewer of them, however often it is listed. It is
the measure by which `Search.run` ends. -/
theorem unseen_reach {map : TradeMap} {s : Search} (current : Denom) {next : Denom}
    (hn : next ∈ map.toList.flatMap Prod.snd) (hv : next ∉ s.visited) :
    unseen map (s.reach current next) < unseen map s := by
  obtain ⟨before, behind, hsplit⟩ := List.append_of_mem hn
  have hle (ds : List Denom) :
      ds.countP (fun d => d ∉ (s.reach current next).visited) ≤
        ds.countP fun d => d ∉ s.visited := by
    refine List.countP_mono_left fun d _ hd => ?_
    simp only [mem_visited_reach, not_or, decide_eq_true_eq] at hd ⊢
    exact hd.2
  have hbefore := hle before
  have hbehind := hle behind
  have hgone : next ∈ (s.reach current next).visited := mem_visited_reach.2 (Or.inl rfl)
  simp only [unseen, hsplit, List.countP_append, List.countP_cons]
  simp only [hgone, hv, not_true_eq_false, not_false_eq_true, decide_true, decide_false,
    Bool.false_eq_true, if_true, if_false]
  omega

/-- Looking at neighbours reaches one of them, or leaves the search as it was: either `unseen` or
the queue has become smaller, which is why the search ends. -/
theorem scan_waiting {map : TradeMap} {target current : Denom} {ns : List Denom} {s t : Search}
    (hns : ∀ n ∈ ns, n ∈ map.toList.flatMap Prod.snd)
    (h : scan target current ns s = .waiting t) : t = s ∨ unseen map t < unseen map s := by
  induction ns generalizing s with
  | nil =>
    simp only [scan, Progress.waiting.injEq] at h
    exact Or.inl h.symm
  | cons next rest ih =>
    have hrest : ∀ n ∈ rest, n ∈ map.toList.flatMap Prod.snd :=
      fun n hn => hns n (List.mem_cons_of_mem next hn)
    rw [scan] at h
    split at h
    · exact ih hrest h
    · next hv =>
      split at h
      · cases h
      · have hless := unseen_reach current (hns next List.mem_cons_self) hv
        rcases ih hrest h with rfl | hmore
        · exact Or.inr hless
        · exact Or.inr (Nat.lt_trans hmore hless)

/-- Looks at the neighbours of one asset of the queue after the other. -/
def run (map : TradeMap) (source target : Denom) (s : Search) : Option Route :=
  match _hq : s.queue with
  | [] => none
  | current :: rest =>
    match _hs : scan target current (map.neighbours current) { s with queue := rest } with
    | .arrived links => some ⟨unwind links source links.size target []⟩
    | .waiting t => run map source target t
termination_by (unseen map s, s.queue.length)
decreasing_by
  have hsame : unseen map { s with queue := rest } = unseen map s := rfl
  rcases scan_waiting (fun _ hn => mem_flatMap_of_mem_neighbours hn) _hs with rfl | hless
  · -- nothing was reached, and one asset less waits
    rw [hsame, _hq]
    exact Prod.Lex.right _ (Nat.lt_succ_self _)
  · -- something was reached, however many wait now
    exact Prod.Lex.left _ _ (hsame ▸ hless)

end Search

namespace TradeMap

/-- A route with the fewest hops from one asset to another, if there is any; the empty one from an
asset to itself. -/
def route? (map : TradeMap) (source target : Denom) : Option Route :=
  if source = target then some .empty
  else Search.run map source target (.start source)

end TradeMap

end PoolMarket
