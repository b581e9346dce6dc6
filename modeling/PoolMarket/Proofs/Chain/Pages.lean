import PoolMarket.Market.Refresh
import PoolMarket.Proofs.Chain.Coherence
import PoolMarket.Proofs.Wire.RoundTrip

/-!
# The listing, page by page

The factory keeps its listings in the order of their keys. A page behind a listing begins with the
next one, so that reading on behind the last of each page comes to every listing once.

* `entries`, `Lists` — the listing as a list and as a relation; on a coherent chain they are one
  (`Coherent.mem_entries`), and the list is in strict order (`Coherent.ordered_entries`).
* `behind` — the entries above a key, of which a page is the beginning.
* `cursor_lastPair`, `behind_lastKey` — where the next page begins, on the chain and in the list.
* `receivePage_sent` — what a page of listings makes of the market that has asked for it.
-/

namespace PoolMarket.Chain.Ledger

variable {l : Ledger}

/-- The listed pairs and their contracts, in key order. -/
def entries (l : Ledger) : List (DenomPair × Addr) := l.listing.toList.map Prod.snd

/-- A pair with its contract is listed. -/
def Lists (l : Ledger) (e : DenomPair × Addr) : Prop := l.listing[e.1.key]? = some e

/-- The denoms of every pool are validated. -/
def Validated (l : Ledger) : Prop :=
  ∀ (contract : Addr) (p : Pool), l.pools[contract]? = some p → p.assets.Validated

/-- A listing as it is sent. -/
def sent (e : DenomPair × Addr) : Listing := ⟨e.1.toStrings, e.2⟩

theorem length_entries (l : Ledger) : l.entries.length = l.listing.size := by
  rw [entries, List.length_map, Std.TreeMap.length_toList]

/-- On a coherent chain an entry of the list is a listing under the key of its own pair
(`Coherent.listed`). -/
theorem Coherent.mem_entries (h : l.Coherent) (e : DenomPair × Addr) :
    e ∈ l.entries ↔ l.Lists e := by
  rw [entries, List.mem_map]
  constructor
  · rintro ⟨⟨key, assets, contract⟩, hmem, rfl⟩
    rw [Std.TreeMap.mem_toList_iff_getElem?_eq_some] at hmem
    obtain ⟨rfl, -⟩ := h.listed key assets contract hmem
    exact hmem
  · intro he
    exact ⟨(e.1.key, e), Std.TreeMap.mem_toList_iff_getElem?_eq_some.2 he, rfl⟩

theorem Lists.unique {e f : DenomPair × Addr} (he : l.Lists e) (hf : l.Lists f)
    (hkey : e.1.key = f.1.key) : e = f := by
  rw [Lists, hkey] at he
  exact Option.some.inj (he.symm.trans hf)

/-- A listed pair is that of a pool (`Coherent.listed`), so it is validated where all pools are. -/
theorem Lists.validated {e : DenomPair × Addr} (he : l.Lists e) (h : l.Coherent)
    (hvalid : l.Validated) : e.1.Validated := by
  obtain ⟨-, p, hp, hassets⟩ := h.listed e.1.key e.1 e.2 he
  rw [← hassets]
  exact hvalid e.2 p hp

theorem Coherent.validated_entries (h : l.Coherent) (hvalid : l.Validated) :
    ∀ e ∈ l.entries, e.1.Validated :=
  fun e he => ((h.mem_entries e).1 he).validated h hvalid

/-! ## What stands behind a listing

Keys are compared, entries are listed. `Before` carries the comparison over to entries, where it is
a strict order; a list that is in that order has at most one place for each key. -/

/-- The key of one listing is below that of another. -/
def Before (e f : DenomPair × Addr) : Prop := compare e.1.key f.1.key = .lt

namespace Before

variable {e f g : DenomPair × Addr}

theorem trans (hef : Before e f) (hfg : Before f g) : Before e g :=
  Std.TransCmp.lt_trans hef hfg

/-- Entries in order have different keys. It is why `Partway.nodup` holds. -/
theorem key_ne (h : Before e f) : e.1.key ≠ f.1.key := by
  intro hkey
  rw [Before, hkey, show compare f.1.key f.1.key = .eq from Std.ReflCmp.compare_self] at h
  cases h

instance : Std.Irrefl Before := ⟨fun _ h => h.key_ne rfl⟩

instance : Std.Antisymm Before := ⟨fun _ _ hef hfe => absurd rfl (hef.trans hfe).key_ne⟩

end Before

/-- The listings whose keys are above the given one; all of them if none is given. -/
def behind (entries : List (DenomPair × Addr)) : Option PairKey → List (DenomPair × Addr)
  | none => entries
  | some key => entries.filter fun e => (compare key e.1.key).isLT

/-- What stands behind a key is above it; without one, everything does (`Ledger.behind`, as a
filter). -/
theorem mem_behind {entries : List (DenomPair × Addr)} {after : Option PairKey}
    {e : DenomPair × Addr} :
    e ∈ behind entries after ↔ e ∈ entries ∧ ∀ key ∈ after, compare key e.1.key = .lt := by
  cases after with
  | none => simp [behind]
  | some key => simp [behind, Ordering.isLT_iff_eq_lt]

/-- What stands behind a key is part of the list, in its order. -/
theorem behind_sublist (entries : List (DenomPair × Addr)) (after : Option PairKey) :
    (behind entries after).Sublist entries := by
  cases after with
  | none => exact List.Sublist.refl _
  | some key => exact List.filter_sublist

/-- In a list with ascending keys, the entries above one are those behind it: those before it are
below, and itself it is not above. All of paging rests on it: what is behind the last key found is
what has not been found (`behind_lastKey`). -/
theorem behind_of_split {before rest : List (DenomPair × Addr)} {e : DenomPair × Addr}
    (h : (before ++ e :: rest).Pairwise Before) :
    behind (before ++ e :: rest) (some e.1.key) = rest := by
  obtain ⟨-, hrest, hbefore⟩ := List.pairwise_append.1 h
  obtain ⟨habove, -⟩ := List.pairwise_cons.1 hrest
  -- what comes before the entry lies below its key, and so does not come again
  have hdropped : (before.filter fun f => (compare e.1.key f.1.key).isLT) = [] := by
    rw [List.filter_eq_nil_iff]
    intro f hf
    have hgt : compare e.1.key f.1.key = .gt :=
      Std.OrientedCmp.gt_of_lt (hbefore f hf e List.mem_cons_self)
    simp [hgt]
  -- the entry itself is not behind its own key
  have hself : (compare e.1.key e.1.key).isLT = false := by
    rw [show compare e.1.key e.1.key = .eq from Std.ReflCmp.compare_self]
    rfl
  have hkept : (rest.filter fun f => (compare e.1.key f.1.key).isLT) = rest := by
    rw [List.filter_eq_self]
    intro f hf
    exact Ordering.isLT_iff_eq_lt.2 (habove f hf)
  rw [behind, List.filter_append, hdropped, List.nil_append, List.filter_cons, hself, hkept]
  rfl

/-- A listing is filed under the key of its pair (`Coherent.listed`). -/
theorem Coherent.key_of_mem (h : l.Coherent) {x : PairKey × DenomPair × Addr}
    (hx : x ∈ l.listing.toList) : x.1 = x.2.1.key := by
  obtain ⟨key, assets, contract⟩ := x
  rw [Std.TreeMap.mem_toList_iff_getElem?_eq_some] at hx
  exact (h.listed key assets contract hx).1

/-- The entries are in strict order, being those of a map that is ordered by their keys. -/
theorem Coherent.ordered_entries (h : l.Coherent) : l.entries.Pairwise Before := by
  rw [entries, List.pairwise_map]
  refine Std.TreeMap.ordered_keys_toList.imp_of_mem fun hx hy hless => ?_
  rw [Before, ← h.key_of_mem hx, ← h.key_of_mem hy]
  exact hless

/-- What the factory filters by the keys of its map are the entries behind that key
(`key_of_mem`). -/
theorem Coherent.listingsAfter_eq (h : l.Coherent) (after : Option PairKey) :
    l.listingsAfter after = (behind l.entries after).map sent := by
  cases after with
  | none =>
    rw [listingsAfter, behind, entries, List.map_map]
    rfl
  | some key =>
    have hkeys : (l.listing.toList.filter fun x => (compare key x.1).isLT) =
        l.listing.toList.filter ((fun e => (compare key e.1.key).isLT) ∘ Prod.snd) := by
      refine List.filter_congr fun x hx => ?_
      rw [Function.comp_apply, h.key_of_mem hx]
    rw [listingsAfter, behind, entries, List.filter_map, List.map_map, ← hkeys]
    rfl

/-! ## Where the next page begins

Whoever reads the listing knows the pairs it has read, and asks for the page behind the last of
them. The chain reads that pair and takes its key. -/

/-- The pair behind which the next page is asked for, when some listings have been read. -/
def lastPair (found : List (DenomPair × Addr)) : Option (Both String) :=
  found.getLast?.map fun e => e.1.toStrings

/-- The key of the listing that was read last, if any was. -/
def lastKey (found : List (DenomPair × Addr)) : Option PairKey :=
  found.getLast?.map fun e => e.1.key

/-- The cursor of the listing that was read last is its key, as a validated pair reads back from its
texts (`DenomPair.Validated.ofStrings_toStrings`). -/
theorem cursor_lastPair {found : List (DenomPair × Addr)}
    (hvalid : ∀ e ∈ found, e.1.Validated) : cursor (lastPair found) = .ok (lastKey found) := by
  cases hlast : found.getLast? with
  | none =>
    rw [lastPair, lastKey, hlast]
    rfl
  | some e =>
    rw [lastPair, lastKey, hlast, Option.map_some, cursor,
      (hvalid e (List.mem_of_getLast? hlast)).ofStrings_toStrings]
    rfl

/-- Behind the listing that was read last stand those that were not read (`behind_of_split`); at the
beginning that is all of them. -/
theorem behind_lastKey {found rest : List (DenomPair × Addr)}
    (h : (found ++ rest).Pairwise Before) : behind (found ++ rest) (lastKey found) = rest := by
  cases hlast : found.getLast? with
  | none =>
    rw [lastKey, hlast, List.getLast?_eq_none_iff.1 hlast]
    rfl
  | some e =>
    obtain ⟨front, hfound⟩ := List.getLast?_eq_some_iff.1 hlast
    have hsplit : found ++ rest = front ++ e :: rest := by
      rw [hfound, List.append_assoc]
      rfl
    rw [hsplit] at h ⊢
    rw [lastKey, hlast]
    exact behind_of_split h

/-! ## Reading a page

-/

/-- A page of validated listings reads as the entries it was made from. By induction on them. Each
pair is read by `Validated.ofStrings_toStrings`. -/
theorem readPage_sent {es : List (DenomPair × Addr)} (h : ∀ e ∈ es, e.1.Validated) :
    Market.readPage (es.map sent) = .ok es := by
  induction es with
  | nil => rfl
  | cons e rest ih =>
    have hfirst : DenomPair.ofStrings (sent e).pair = .ok e.1 :=
      (h e List.mem_cons_self).ofStrings_toStrings
    have hrest := ih fun f hf => h f (List.mem_cons_of_mem _ hf)
    rw [List.map_cons, Market.readPage, hfirst, hrest]
    rfl

/-- A page of listings is found, and the next one asked for behind it; an empty page ends the
listing, and the refresh goes on with what it has found (`readPage_sent`). -/
theorem receivePage_sent {m : Market} {r : Refresh} {after : Option (Both String)}
    {reply : Outcome Json} {es : List (DenomPair × Addr)} (hvalid : ∀ e ∈ es, e.1.Validated)
    (hpage : (Inquiry.page m.factory after m.pageSize).conclude reply = .ok (es.map sent)) :
    m.receivePage r after reply =
      match es.getLast? with
      | some last =>
        (m, { r with found := r.found ++ es, stage := .listing (some last.1.toStrings) })
      | none => m.advance r r.found := by
  unfold Market.receivePage
  rw [hpage]
  simp only [readPage_sent hvalid, List.getLast?_map]
  cases es.getLast? <;> rfl

end PoolMarket.Chain.Ledger
