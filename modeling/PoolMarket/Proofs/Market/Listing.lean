import Mathlib.Data.List.Nodup
import Mathlib.Data.List.Sort
import PoolMarket.Proofs.Chain.PoolHistory
import PoolMarket.Proofs.Market.Watch

/-!
# A listing that grows while it is read

A market reads a factory's listing page by page, each page behind the last pair of the one before.
The factory may cut pages as it likes, and may list more pairs in between. What has been read
ascends in its keys, and whatever was listed from the start has been read or is still to come; so
nothing is read twice, and an empty page ends a list that lacks none of the first pairs.

* `NextPage`, `Answers` — what a factory may reply, without saying how it cuts its pages.
* `Partway` — the invariant of what has been read; `Partway.grow` and `Partway.next` are its steps.
* `Served.paging_listing` — the invariant over all replies, and that each page brings something.
* `Coherent.servesPages` — the factory of a chain is one that replies so.
-/

namespace PoolMarket

open Chain (Ledger Call)
open Chain.Ledger (Before behind mem_behind behind_sublist sent cursor lastPair lastKey
  cursor_lastPair)

/-! ## What a factory answers -/

/-- A listing of validated pairs, in the strict order of their keys. -/
structure Proper (listing : List (DenomPair × Addr)) : Prop where
  validated : ∀ e ∈ listing, e.1.Validated
  ordered : listing.Pairwise Before

/-- What a page may hold of what is ahead: some of the next listings, and none only at the end. -/
structure NextPage (page ahead : List (DenomPair × Addr)) : Prop where
  next : page <+: ahead
  last : page = [] → ahead = []

/-- Whatever pair a page is asked for behind, the reply is a next page of the listing behind it. -/
def Answers (factory : Addr) (limit : UInt32) (listing : List (DenomPair × Addr))
    (reply : Json → Outcome Json) : Prop :=
  ∀ after key, cursor after = .ok key →
    ∃ page, NextPage page (behind listing key) ∧
      (Inquiry.page factory after limit).conclude
        (reply (Inquiry.page factory after limit).msg) = .ok (page.map sent)

/-- A page cut off at any length but zero is a next page. -/
theorem nextPage_take (ahead : List (DenomPair × Addr)) {n : Nat} (hn : 0 < n) :
    NextPage (ahead.take n) ahead where
  next := List.take_prefix n ahead
  last hnone := (List.take_eq_nil_iff.1 hnone).resolve_left (by omega)

/-! ## What has been read

What is ahead is what stands behind the last key that was found. Keys are compared and never
counted, so pairs that are added in between cannot shift anything. -/

/-- What a market has found of a listing that was `first` at the start and is `listing` now. -/
structure Partway (first listing found : List (DenomPair × Addr)) : Prop where
  ordered : found.Pairwise Before
  listed : found ⊆ listing
  /-- What was listed at the start has been found or is ahead. -/
  kept : ∀ e ∈ first, e ∈ found ∨ e ∈ behind listing (lastKey found)

/-- What is ahead stands behind all that has been found: behind the last of it, which stands behind
the rest since keys ascend (`Before.trans`). -/
theorem before_of_behind {listing found : List (DenomPair × Addr)} {e f : DenomPair × Addr}
    (hordered : found.Pairwise Before) (he : e ∈ found)
    (hf : f ∈ behind listing (lastKey found)) : Before e f := by
  cases hlast : found.getLast? with
  | none =>
    rw [List.getLast?_eq_none_iff.1 hlast] at he
    cases he
  | some last =>
    -- the next page starts behind the last entry, and that one lies above all before it
    have hbehind : Before last f := by
      refine (mem_behind.1 hf).2 last.1.key ?_
      rw [lastKey, hlast]
      rfl
    obtain ⟨front, hfound⟩ := List.getLast?_eq_some_iff.1 hlast
    rw [hfound] at hordered he
    rcases List.mem_append.1 he with he | he
    · have hless := (List.pairwise_append.1 hordered).2.2 e he last (List.mem_singleton_self last)
      exact hless.trans hbehind
    · rw [List.mem_singleton.1 he]
      exact hbehind

/-- What stands behind all that has been found is ahead: the last of it is among what was found
(`List.mem_of_getLast?`). -/
theorem mem_behind_lastKey {listing found : List (DenomPair × Addr)} {f : DenomPair × Addr}
    (hf : f ∈ listing) (habove : ∀ e ∈ found, Before e f) : f ∈ behind listing (lastKey found) := by
  refine mem_behind.2 ⟨hf, fun key hkey => ?_⟩
  obtain ⟨last, hlast, rfl⟩ := Option.map_eq_some_iff.1 hkey
  exact habove last (List.mem_of_getLast? hlast)

namespace Partway

variable {first listing later found page : List (DenomPair × Addr)}

theorem start (first : List (DenomPair × Addr)) : Partway first first [] where
  ordered := List.Pairwise.nil
  listed := List.nil_subset _
  kept _ he := Or.inr he

/-- No pair has been found twice, as keys that ascend strictly are all different
(`Before.key_ne`). -/
theorem nodup (h : Partway first listing found) : (found.map Prod.fst).Nodup := by
  rw [List.Nodup, List.pairwise_map]
  exact h.ordered.imp fun hless heq => hless.key_ne (congrArg DenomPair.key heq)

/-- Listings that are added do not matter: what was ahead is ahead still (`mem_behind`). -/
theorem grow (h : Partway first listing found) (hgrows : listing ⊆ later) :
    Partway first later found where
  ordered := h.ordered
  listed := List.Subset.trans h.listed hgrows
  kept e he := by
    refine (h.kept e he).imp_right fun hbehind => ?_
    rw [mem_behind] at hbehind ⊢
    exact ⟨hgrows hbehind.1, hbehind.2⟩

/-- Some of the next listings are found. They stand behind what was found before
(`before_of_behind`), so the keys still ascend, and of what was ahead all but these stands behind
them (`mem_behind_lastKey`). -/
theorem next (h : Partway first listing found) (hordered : listing.Pairwise Before)
    (hpage : page <+: behind listing (lastKey found)) :
    Partway first listing (found ++ page) := by
  have hahead := hordered.sublist (behind_sublist listing (lastKey found))
  refine ⟨?_, ?_, fun e he => ?_⟩
  · rw [List.pairwise_append]
    refine ⟨h.ordered, hahead.sublist hpage.sublist, fun e he f hf => ?_⟩
    exact before_of_behind h.ordered he (hpage.subset hf)
  · refine List.append_subset.2 ⟨h.listed, fun e he => ?_⟩
    exact (mem_behind.1 (hpage.subset he)).1
  · -- an entry of the first listing has been read, or comes on this page, or is still ahead
    rcases h.kept e he with hfound | hbehind
    · exact Or.inl (List.mem_append_left page hfound)
    obtain ⟨rest, hrest⟩ := hpage
    have hsplit := hbehind
    rw [← hrest, List.mem_append] at hsplit
    rcases hsplit with hmem | hmore
    · exact Or.inl (List.mem_append_right found hmem)
    · -- what the page leaves ahead is above the page, as it was above all before it
      refine Or.inr (mem_behind_lastKey (mem_behind.1 hbehind).1 fun f hf => ?_)
      rcases List.mem_append.1 hf with hf | hf
      · exact before_of_behind h.ordered hf hbehind
      · rw [← hrest] at hahead
        exact (List.pairwise_append.1 hahead).2.2 f hf e hmore

/-- With nothing ahead, all that was listed at the start has been found. By `Partway.kept`, each is
found or ahead. -/
theorem complete (h : Partway first listing found) (hnone : behind listing (lastKey found) = []) :
    first ⊆ found := by
  intro e he
  refine (h.kept e he).resolve_right ?_
  rw [hnone]
  exact List.not_mem_nil

end Partway

/-! ## Reading page by page

A refresh is followed through its pages by `Market.paging`, where every reply may be of another
listing. While it asks for pages it is `Market.asking`, with what it has found so far. -/

namespace Market

/-- A refresh that has found some listings and asks for the page behind them. -/
def asking (found : List (DenomPair × Addr)) : Refresh :=
  { Refresh.start with found, stage := .listing (lastPair found) }

/-- A market and a refresh after so many replies about pages. What is replied to a question may
differ from one reply to the next. -/
def paging (m : Market) (reply : Nat → Json → Outcome Json) : Nat → Market × Refresh
  | 0 => (m, .start)
  | n + 1 =>
    let (k, r) := m.paging reply n
    match r.stage with
    | .listing after => k.receivePage r after (reply n (k.message (.page after)))
    | _ => (k, r)

/-- The pages come to an end, and what was found up to there is what the refresh goes into. -/
def Reads (m : Market) (reply : Nat → Json → Outcome Json) (found : List (DenomPair × Addr)) :
    Prop :=
  ∃ n, m.paging reply n = (m, asking found) ∧
    m.paging reply (n + 1) = m.advance (asking found) found

/-- What a factory lists and replies while a market reads it. Pairs may be added before each page,
and each page may be of another size. -/
structure Served (m : Market) (listing : Nat → List (DenomPair × Addr))
    (reply : Nat → Json → Outcome Json) : Prop where
  proper : ∀ n, Proper (listing n)
  grows : ∀ n, listing n ⊆ listing (n + 1)
  answers : ∀ n, Answers m.factory m.pageSize (listing n) (reply n)

/-- A refresh that goes into its listings has stopped asking for pages. By the recursion of
`Market.advance`. -/
theorem advance_stage_ne (m : Market) (r : Refresh) (todo : List (DenomPair × Addr))
    (after : Option (Both String)) : (m.advance r todo).2.stage ≠ .listing after := by
  fun_induction Market.advance m r todo with
  | case1 | case2 | case4 | case5 => simp
  | case3 => assumption

/-- A page of validated listings is read as what it lists (`Ledger.receivePage_sent`): it is put
behind what was found, or it ends the listing if it is empty. -/
theorem receivePage_asking {m : Market} {found page : List (DenomPair × Addr)}
    {reply : Outcome Json} (hvalid : ∀ e ∈ page, e.1.Validated)
    (hpage : (Inquiry.page m.factory (lastPair found) m.pageSize).conclude reply =
      .ok (page.map sent)) :
    m.receivePage (asking found) (lastPair found) reply =
      if page = [] then m.advance (asking found) found else (m, asking (found ++ page)) := by
  rw [Ledger.receivePage_sent hvalid hpage]
  cases hlast : page.getLast? with
  | none =>
    rw [if_pos (List.getLast?_eq_none_iff.1 hlast)]
    rfl
  | some last =>
    have hsome : page ≠ [] := by
      intro hnone
      rw [hnone] at hlast
      cases hlast
    have hbehind : lastPair (found ++ page) = some last.1.toStrings := by
      rw [lastPair, List.getLast?_append, hlast]
      rfl
    rw [if_neg hsome, asking, asking, hbehind]

namespace Served

variable {m : Market} {listing : Nat → List (DenomPair × Addr)}
  {reply : Nat → Json → Outcome Json} {found : List (DenomPair × Addr)}

/-- One more reply brings a market the next listings, or the end of the pages. The last pair that
was found is the cursor (`cursor_lastPair`), so the reply is a page of what is ahead. -/
theorem paging_succ (h : m.Served listing reply) {n : Nat}
    (hpaging : m.paging reply n = (m, asking found))
    (hfound : Partway (listing 0) (listing n) found) :
    ∃ page, NextPage page (behind (listing n) (lastKey found)) ∧
      m.paging reply (n + 1) =
        if page = [] then m.advance (asking found) found else (m, asking (found ++ page)) := by
  have hvalid : ∀ e ∈ found, e.1.Validated := fun e he =>
    (h.proper n).validated e (hfound.listed he)
  obtain ⟨page, hpage, hconclude⟩ := h.answers n _ _ (cursor_lastPair hvalid)
  have hpageValid : ∀ e ∈ page, e.1.Validated := fun e he =>
    (h.proper n).validated e (mem_behind.1 (hpage.next.subset he)).1
  refine ⟨page, hpage, ?_⟩
  rw [paging, hpaging]
  exact receivePage_asking hpageValid hconclude

/-- As long as a refresh asks for pages, it is partway through the listing, and each page has
brought it some of it. By induction on the number of replies, with `Partway.grow` for what was
listed meanwhile and `Partway.next` for the page. -/
theorem paging_listing (h : m.Served listing reply) {n : Nat} {after : Option (Both String)}
    (hstage : (m.paging reply n).2.stage = .listing after) :
    ∃ found, m.paging reply n = (m, asking found) ∧ Partway (listing 0) (listing n) found ∧
      n ≤ found.length := by
  induction n generalizing after with
  | zero => exact ⟨[], rfl, .start (listing 0), Nat.le_refl 0⟩
  | succ n ih =>
    cases hbefore : (m.paging reply n).2.stage with
    | listing after' =>
      obtain ⟨found, hpaging, hfound, hlength⟩ := ih hbefore
      obtain ⟨page, hpage, hnext⟩ := h.paging_succ hpaging hfound
      by_cases hnone : page = []
      · rw [hnext, if_pos hnone] at hstage
        exact absurd hstage (advance_stage_ne m _ found after)
      · rw [if_neg hnone] at hnext
        have hgrown := (hfound.next (h.proper n).ordered hpage.next).grow (h.grows n)
        refine ⟨found ++ page, hnext, hgrown, ?_⟩
        have hpositive := List.length_pos_iff.2 hnone
        rw [List.length_append]
        omega
    | updating | loading | queued | finished =>
      -- nothing happens any more to a refresh that has all pages
      rw [paging] at hstage
      simp only [hbefore] at hstage
      cases hstage

/-- At the end of the pages nothing is ahead of what has been read, so all that was listed at the
start is found (`Partway.complete`). -/
theorem reads_partway (h : m.Served listing reply) (hreads : m.Reads reply found) :
    ∃ n, Partway (listing 0) (listing n) found ∧ listing 0 ⊆ found := by
  obtain ⟨n, hpaging, hend⟩ := hreads
  obtain ⟨found', hpaging', hfound, -⟩ := h.paging_listing (n := n) (by rw [hpaging]; rfl)
  obtain rfl : found' = found := by
    have hsame := hpaging'.symm.trans hpaging
    exact congrArg (fun s => s.2.found) hsame
  obtain ⟨page, hpage, hnext⟩ := h.paging_succ hpaging hfound
  refine ⟨n, hfound, hfound.complete (hpage.last ?_)⟩
  by_contra hsome
  rw [if_neg hsome, hend] at hnext
  have hstage := congrArg (fun s => s.2.stage) hnext
  exact advance_stage_ne m _ _ _ hstage

/-- The pages of a listing that stays finite come to an end: as long as they go on, at least one
more pair has been found with each (`paging_listing`), and no pair is found twice
(`Partway.nodup`). -/
theorem exists_reads (h : m.Served listing reply) {bound : Nat}
    (hbound : ∀ n, (listing n).length ≤ bound) : ∃ found, m.Reads reply found := by
  by_contra hnever
  -- without an end, every reply would leave the refresh asking for one more page
  have hasking (n : Nat) : ∃ after, (m.paging reply n).2.stage = .listing after := by
    induction n with
    | zero => exact ⟨none, rfl⟩
    | succ n ih =>
      obtain ⟨after, hstage⟩ := ih
      obtain ⟨found, hpaging, hfound, -⟩ := h.paging_listing hstage
      obtain ⟨page, -, hnext⟩ := h.paging_succ hpaging hfound
      by_cases hnone : page = []
      · rw [if_pos hnone] at hnext
        exact absurd ⟨found, n, hpaging, hnext⟩ hnever
      · rw [if_neg hnone] at hnext
        exact ⟨lastPair (found ++ page), by rw [hnext]; rfl⟩
  obtain ⟨after, hstage⟩ := hasking (bound + 1)
  obtain ⟨found, -, hfound, hlength⟩ := h.paging_listing hstage
  have hfits := hfound.nodup.of_map.length_le_of_subset hfound.listed
  have hsmall := hbound (bound + 1)
  omega

/-- Of a listing that stays as it is all is read, in its order: two lists that ascend and hold the
same are equal (`reads_partway`). -/
theorem eq_of_reads_still (h : m.Served listing reply) (hstill : ∀ n, listing n = listing 0)
    (hreads : m.Reads reply found) : found = listing 0 := by
  obtain ⟨n, hfound, hall⟩ := h.reads_partway hreads
  have hlisted : found ⊆ listing 0 := hstill n ▸ hfound.listed
  apply hfound.ordered.eq_of_mem_iff (h.proper 0).ordered
  exact fun e => ⟨fun he => hlisted he, fun he => hall he⟩

end Served

end Market

/-! ## The factory of the chain

The chain lists its pools in the order of their keys and cuts a page off what stands behind the
cursor, so it is one of the factories of the sections before. -/

namespace Chain.Ledger

variable {l : Ledger}

/-- A chain lists in the strict order of keys (`Coherent.ordered_entries`). -/
theorem Coherent.proper_entries (h : l.Coherent) (hvalid : l.Validated) : Proper l.entries where
  validated := h.validated_entries hvalid
  ordered := h.ordered_entries

/-- Every pool is listed, so the denoms of the listing are all there are (`mem_entries`). -/
theorem Coherent.validated_of_entries (h : l.Coherent) (hvalid : ∀ e ∈ l.entries, e.1.Validated) :
    l.Validated := by
  intro contract p hp
  exact hvalid (p.assets, contract) ((h.mem_entries _).2 (h.deployed contract p hp))

/-- A limit of zero is the only one that cuts a page to nothing; no limit is the default one. So a
market whose page size is not zero gets on (`Ledger.pageLength`). -/
theorem pageLength_pos {limit : Option UInt32} (h : limit ≠ some 0) : 0 < pageLength limit := by
  cases limit with
  | none => decide
  | some n =>
    have hpositive : n.toNat ≠ 0 := fun hzero => h (congrArg some (UInt32.toNat_inj.1 hzero))
    show 0 < min n.toNat 100
    omega

/-- A query to the factory is replied with a page as the chain has it (`Coherent.conclude_page`),
which is a next page (`nextPage_take`). -/
theorem Coherent.answers (h : l.Coherent) (hanswers : l.factory ∉ l.failing) {limit : UInt32}
    (hlimit : limit ≠ 0) : Answers l.factory limit l.entries (l.answer l.factory) := by
  intro after key hkey
  have hpositive : 0 < pageLength (some limit) :=
    pageLength_pos fun hzero => hlimit (Option.some.inj hzero)
  exact ⟨_, nextPage_take _ hpositive, h.conclude_page hanswers hkey limit⟩

/-- What is listed stays listed over any calls. By induction on the calls, with `Effect.lists`. -/
theorem Lists.run {e : DenomPair × Addr} (h : l.Lists e) (calls : List Call) :
    (l.run calls).Lists e := by
  induction calls generalizing l with
  | nil => exact h
  | cons call rest ih => exact ih ((l.effect_execute call).lists h)

end Chain.Ledger

/-! ## Every listing once -/

namespace Market

/-- The pages of a listing that stays finite end. What was read then ascends in its keys, is all
listed and holds no pair twice; each pair listed at the start was read exactly once, with its
contract; and if nothing was added, what was read is the listing. -/
structure ReadsEachOnce (m : Market) (listing : Nat → List (DenomPair × Addr))
    (reply : Nat → Json → Outcome Json) : Prop where
  ends : ∀ bound, (∀ n, (listing n).length ≤ bound) → ∃ found, m.Reads reply found
  ordered : ∀ found, m.Reads reply found → found.Pairwise Before
  listed : ∀ found, m.Reads reply found → ∃ n, found ⊆ listing n
  nodup : ∀ found, m.Reads reply found → (found.map Prod.fst).Nodup
  once : ∀ found, m.Reads reply found → ∀ e ∈ listing 0,
    e ∈ found ∧ (found.map Prod.fst).count e.1 = 1
  still : (∀ n, listing n = listing 0) → ∀ found, m.Reads reply found ↔ found = listing 0

/-- Whatever serves its pages so has each pair read once. All but the end is read off `Partway`, and
the end is `exists_reads`. -/
theorem Served.readsEachOnce {m : Market} {listing : Nat → List (DenomPair × Addr)}
    {reply : Nat → Json → Outcome Json} (h : m.Served listing reply) :
    m.ReadsEachOnce listing reply where
  ends _ hbound := h.exists_reads hbound
  ordered _ hreads := by
    obtain ⟨_, hfound, -⟩ := h.reads_partway hreads
    exact hfound.ordered
  listed _ hreads := by
    obtain ⟨n, hfound, -⟩ := h.reads_partway hreads
    exact ⟨n, hfound.listed⟩
  nodup _ hreads := by
    obtain ⟨_, hfound, -⟩ := h.reads_partway hreads
    exact hfound.nodup
  once _ hreads e he := by
    obtain ⟨_, hfound, hall⟩ := h.reads_partway hreads
    exact ⟨hall he, List.count_eq_one_of_mem hfound.nodup (List.mem_map_of_mem (hall he))⟩
  still hstill found := by
    constructor
    · exact h.eq_of_reads_still hstill
    · intro heq
      -- a second reading of the same listing ends too, with the same entries
      obtain ⟨other, hreads⟩ := h.exists_reads fun n => (congrArg List.length (hstill n)).le
      rw [heq, ← h.eq_of_reads_still hstill hreads]
      exact hreads

end Market

namespace Chain.Ledger

/-- The factory of a chain serves what is listed there. A page of no limit, or of any but zero, is a
next page, and so is the reply to a query for one as a market reads it. What is listed stays
listed. -/
structure ServesPages (l : Ledger) : Prop where
  proper : Proper l.entries
  pages : ∀ after key limit, cursor after = .ok key → limit ≠ some 0 →
    ∃ page, NextPage page (behind l.entries key) ∧ l.page after limit = .ok (page.map sent)
  answers : l.factory ∉ l.failing → ∀ limit, limit ≠ 0 →
    Answers l.factory limit l.entries (l.answer l.factory)
  grows : ∀ calls, l.entries ⊆ (l.run calls).entries

/-- The factory of a coherent chain serves its pages so: `proper_entries`, `page_eq` and `answers`,
with `Lists.run` for what is called meanwhile. -/
theorem Coherent.servesPages {l : Ledger} (h : l.Coherent) (hvalid : l.Validated) :
    l.ServesPages where
  proper := h.proper_entries hvalid
  pages _ _ limit hkey hlimit :=
    ⟨_, nextPage_take _ (pageLength_pos hlimit), h.page_eq hkey limit⟩
  answers hanswers _ hlimit := h.answers hanswers hlimit
  grows calls e he :=
    ((h.run calls).mem_entries e).2 (((h.mem_entries e).1 he).run calls)

end Chain.Ledger

namespace Market

/-- A market reads each pair of a listing once, whatever the pages that its factory cuts and however
many pairs are added while it reads. The factory of a chain whose denoms are validated is one that
answers so, whatever has been called before. The two parts are `Served.readsEachOnce` and
`Coherent.servesPages`. -/
theorem served_readsEachOnce :
    (∀ (m : Market) (listing : Nat → List (DenomPair × Addr)) (reply : Nat → Json → Outcome Json),
      m.Served listing reply → m.ReadsEachOnce listing reply) ∧
    ∀ (factory router : Addr) (calls : List Call),
      ((Ledger.new factory router).run calls).Validated →
        ((Ledger.new factory router).run calls).ServesPages := by
  constructor
  · intro m listing reply h
    exact h.readsEachOnce
  · intro factory router calls hvalid
    have hcoherent := (Ledger.coherent_new factory router).run calls
    exact hcoherent.servesPages hvalid

end Market

/-! ### A pair that is listed while a market reads -/

namespace Chain.Sample

open Deployment (factory router)

/-- The pool that is listed later. -/
def secondContract : Addr := ⟨"sei1second", by decide, by decide⟩

/-- Its assets, behind those of the first pool in the order of keys. -/
def secondAssets : DenomPair := ⟨.native "usei", .native "uzinc", by decide⟩

/-- What has been called when a page is asked for. Only the first page finds the second pair not
listed yet. -/
def listedBy : Nat → List Call
  | 0 => [.addPair contract assets fees]
  | _ + 1 => [.addPair contract assets fees, .addPair secondContract secondAssets fees]

/-- The chain when a page is asked for. -/
def growing (n : Nat) : Ledger := (Ledger.new factory router).run (listedBy n)

/-- A market that asks for one pair at a time. -/
def market : Market := .ofSettings { Deployment.settings with pageSize := 1 }

theorem entries_first : (growing 0).entries = [(assets, contract)] := by decide +kernel

theorem entries_both (n : Nat) :
    (growing (n + 1)).entries = [(assets, contract), (secondAssets, secondContract)] := by
  show (growing 1).entries = _
  decide +kernel

theorem validated_growing (n : Nat) : (growing n).Validated := by
  have hassets : assets.Validated := ⟨⟨"usei", rfl⟩, ⟨"uusdc", rfl⟩⟩
  have hsecond : secondAssets.Validated := ⟨⟨"usei", rfl⟩, ⟨"uzinc", rfl⟩⟩
  apply ((Ledger.coherent_new factory router).run (listedBy n)).validated_of_entries
  show ∀ e ∈ (growing n).entries, e.1.Validated
  cases n with
  | zero => simp [entries_first, hassets]
  | succ n => simp [entries_both, hassets, hsecond]

theorem answering_growing (n : Nat) : (growing n).factory ∉ (growing n).failing := by
  cases n with
  | zero => decide +kernel
  | succ n =>
    show (growing 1).factory ∉ (growing 1).failing
    decide +kernel

theorem readsEachOnce_growing :
    (growing 0).entries = [(assets, contract)] ∧
      (growing 1).entries = [(assets, contract), (secondAssets, secondContract)] ∧
      ∃ found, market.Reads (fun n => (growing n).answer factory) found ∧
        found.Pairwise Before ∧ (found.map Prod.fst).count assets = 1 := by
  obtain ⟨hreads, hserves⟩ := Market.served_readsEachOnce
  have hpages (n : Nat) : (growing n).ServesPages := hserves factory router _ (validated_growing n)
  have hfactory (n : Nat) : (growing n).factory = factory := (Ledger.factory_router_run _ _).1
  have hserved : market.Served (fun n => (growing n).entries)
      (fun n => (growing n).answer factory) := by
    -- the listing grows by its second pair after the first page
    refine ⟨fun n => (hpages n).proper, fun n => ?_, fun n => ?_⟩
    · cases n with
      | zero => simp [entries_first, entries_both]
      | succ n => simp [entries_both]
    · have hanswers := (hpages n).answers (answering_growing n) 1 (by decide)
      rw [hfactory n] at hanswers
      exact hanswers
  have honce := hreads market _ _ hserved
  obtain ⟨found, hfound⟩ := honce.ends 2 fun n => by
    cases n with
    | zero => simp [entries_first]
    | succ n => simp [entries_both]
  refine ⟨entries_first, entries_both 0, found, hfound, honce.ordered found hfound, ?_⟩
  exact (honce.once found hfound (assets, contract) (by simp [entries_first])).2

end Chain.Sample

end PoolMarket
