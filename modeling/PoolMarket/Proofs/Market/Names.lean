import PoolMarket.Proofs.Market.GivingUp

/-!
# The names of registered pairs

A step of a refresh leaves the registry alone, registers one new pair, or gives a registered one
another snapshot. So a registered pair is the same for good, and a name goes to the first pair that
is registered with it and stays there.

* `Registry.Change` — the three things that a step can do to a registry; `Sound.change_happen`
  proves it of every step.
* `Registry.Indexed` — the invariant between names and pairs, kept by every `Change`.
* `Indexed.sole_of_new` — at the moment a name is given away, its pair is the only one of that name.
* `KeepsRegistry` — what this comes to after a run, with refreshes dropped on the way.
-/

namespace PoolMarket

/-- One pair at two moments, of which only the snapshots may differ. -/
structure Loaded.SamePair (p q : Loaded) : Prop where
  id : q.id = p.id
  contract : q.pair.contract = p.pair.contract
  assets : q.pair.assets = p.pair.assets
  name : q.pair.name = p.pair.name

namespace Loaded.SamePair

theorem refl (p : Loaded) : p.SamePair p := ⟨rfl, rfl, rfl, rfl⟩

theorem trans {p q r : Loaded} (hpq : p.SamePair q) (hqr : q.SamePair r) : p.SamePair r :=
  ⟨hqr.id.trans hpq.id, hqr.contract.trans hpq.contract, hqr.assets.trans hpq.assets,
    hqr.name.trans hpq.name⟩

end Loaded.SamePair

/-! ## What one step does to a registry

A registry grows by one pair at most, and otherwise changes a snapshot. What that does to keys and
to names is said for each direction: what was there before is there still, and what is there now was
there before or is new. -/

namespace Registry

/-- What one step of a refresh can do to a registry. -/
inductive Change (r : Registry) : Registry → Prop where
  | still : Change r r
  | register (p : Loaded) (hnew : r.get? p.pair.assets.key = none) : Change r (r.register p).1
  | update (key : PairKey) (p : Loaded) (snapshot : Snapshot) : Change r (r.update key p snapshot)

/-- Every name is one of a registered pair, and the name of every registered pair leads to one. -/
structure Indexed (r : Registry) : Prop where
  named : ∀ name key, r.byName[name]? = some key →
    ∃ p, r.get? key = some p ∧ p.pair.name = name
  resolves : ∀ key p, r.get? key = some p → ∃ k, r.byName[p.pair.name]? = some k

/-- No pair but the one under the key has the name. -/
def Sole (r : Registry) (name : String) (key : PairKey) : Prop :=
  ∀ k q, r.get? k = some q → q.pair.name = name → k = key

variable {r s : Registry} {name : String} {key : PairKey} {p : Loaded}

theorem indexed_empty : empty.Indexed where
  named name key h := by
    rw [empty, Std.TreeMap.getElem?_emptyc] at h
    cases h
  resolves key p h := by simp at h

/-- Another snapshot leaves the names alone. It changes `Registry.byKey` only. -/
theorem byName_update (r : Registry) (key : PairKey) (p : Loaded) (snapshot : Snapshot) :
    (r.update key p snapshot).byName = r.byName := by
  unfold update record
  split
  · cases r.get? key <;> rfl
  · rfl

/-- A new pair gets its name if that is free, and no other name changes. So a name stays with the
first pair that has it (`Change.byName`). -/
theorem byName_register (hnew : r.get? p.pair.assets.key = none) (name : String) :
    (r.register p).1.byName[name]? =
      if p.pair.name = name ∧ r.byName[name]? = none then some p.pair.assets.key
      else r.byName[name]? := by
  rw [register, hnew]
  simp only [Std.TreeMap.getElem?_insertIfNew, Std.TreeMap.mem_iff_isSome_getElem?,
    Std.compare_eq_iff_eq, Option.not_isSome_iff_eq_none]
  by_cases hname : p.pair.name = name
  · simp [hname]
  · simp [hname]

/-- A registered pair is still the one it was, whatever its snapshot is now (`get?_register`,
`get?_update`). -/
theorem Change.get? (h : r.Change s) (hp : r.get? key = some p) :
    ∃ q, s.get? key = some q ∧ p.SamePair q := by
  cases h with
  | still => exact ⟨p, hp, .refl p⟩
  | register new hnew =>
    refine ⟨p, ?_, .refl p⟩
    rw [get?_register, if_neg, hp]
    rintro ⟨-, hnone⟩
    rw [hp] at hnone
    cases hnone
  | update k known snapshot =>
    refine ⟨_, by rw [get?_update, hp, Option.map_some], ?_⟩
    split
    · exact ⟨rfl, rfl, rfl, rfl⟩
    · exact .refl p

/-- A registered pair was registered before, or it is the new one. By the cases of `Change`, as in
`Change.get?`. -/
theorem Change.of_get? (h : r.Change s) (hp : s.get? key = some p) :
    (∃ q, r.get? key = some q ∧ q.SamePair p) ∨
      (r.get? p.pair.assets.key = none ∧ s = (r.register p).1) := by
  cases h with
  | still => exact Or.inl ⟨p, hp, .refl p⟩
  | register new hnew =>
    rw [get?_register] at hp
    split at hp
    · cases hp
      exact Or.inr ⟨hnew, rfl⟩
    · exact Or.inl ⟨p, hp, .refl p⟩
  | update k known snapshot =>
    rw [get?_update, Option.map_eq_some_iff] at hp
    obtain ⟨q, hq, rfl⟩ := hp
    refine Or.inl ⟨q, hq, ?_⟩
    split
    · exact ⟨rfl, rfl, rfl, rfl⟩
    · exact .refl q

/-- A name stays with the pair that has got it (`byName_register`, `byName_update`). -/
theorem Change.byName (h : r.Change s) (hname : r.byName[name]? = some key) :
    s.byName[name]? = some key := by
  cases h with
  | still => exact hname
  | register new hnew =>
    rw [byName_register hnew, if_neg, hname]
    rintro ⟨-, hnone⟩
    rw [hname] at hnone
    cases hnone
  | update k known snapshot => rwa [byName_update]

/-- A name that is new is that of the new pair, under its key. By the cases of `Change`; only
`register` adds a name. -/
theorem Change.of_byName (h : r.Change s) (hnone : r.byName[name]? = none)
    (hname : s.byName[name]? = some key) :
    ∃ p, r.get? p.pair.assets.key = none ∧ s = (r.register p).1 ∧ p.pair.name = name ∧
      p.pair.assets.key = key := by
  cases h with
  | still =>
    rw [hnone] at hname
    cases hname
  | register new hnew =>
    rw [byName_register hnew] at hname
    split at hname
    · next hnew' => exact ⟨new, hnew, rfl, hnew'.1, Option.some.inj hname⟩
    · rw [hnone] at hname
      cases hname
  | update k known snapshot =>
    rw [byName_update, hnone] at hname
    cases hname

/-- Names and pairs go on to agree: what is said of a name follows it to its pair (`Change.get?`),
and a new pair has got its name or found it taken. -/
theorem Indexed.change (hr : r.Indexed) (h : r.Change s) : s.Indexed where
  named name key hname := by
    -- a name that led somewhere still leads there, a new one leads to the pair just registered
    cases hbefore : r.byName[name]? with
    | some k =>
      rw [h.byName hbefore, Option.some.injEq] at hname
      subst hname
      obtain ⟨p, hp, rfl⟩ := hr.named name k hbefore
      obtain ⟨q, hq, hsame⟩ := h.get? hp
      exact ⟨q, hq, hsame.name⟩
    | none =>
      obtain ⟨p, hnew, rfl, rfl, rfl⟩ := h.of_byName hbefore hname
      exact ⟨p, by rw [get?_register, if_pos ⟨rfl, hnew⟩], rfl⟩
  resolves key p hp := by
    -- a pair that was there keeps its name, and so does the place its name leads to
    rcases h.of_get? hp with ⟨q, hq, hsame⟩ | ⟨hnew, rfl⟩
    · obtain ⟨k, hk⟩ := hr.resolves key q hq
      exact ⟨k, by rw [hsame.name, h.byName hk]⟩
    · rw [byName_register hnew]
      split
      · exact ⟨_, rfl⟩
      · next hold => exact Option.ne_none_iff_exists'.1 fun hnone => hold ⟨rfl, hnone⟩

/-- A pair that a name goes to is the only one of that name at that moment: an earlier one would
have taken it (`Indexed.resolves`). -/
theorem Indexed.sole_of_new (hr : r.Indexed) (h : r.Change s) (hnone : r.byName[name]? = none)
    (hname : s.byName[name]? = some key) : s.Sole name key := by
  obtain ⟨p, hnew, rfl, rfl, rfl⟩ := h.of_byName hnone hname
  intro k q hq hsame
  rw [get?_register] at hq
  split at hq
  · next hkey => exact hkey.1.symm
  · -- an earlier pair of the name would have got it
    obtain ⟨k', hk'⟩ := hr.resolves k q hq
    rw [hsame, hnone] at hk'
    cases hk'

end Registry

/-! ## A step of a refresh

For each function by which a refresh acts, what it does to the registry. Going through listings
registers nothing by itself; the one place where a pair is registered is the end of its load. -/

namespace Market

variable {m : Market} {r : Refresh}

/-- Going through the listings registers nothing: a cell that is joined is empty
(`registry_join`). -/
theorem Consistent.registry_advance (hm : m.Consistent) (r : Refresh)
    (todo : List (DenomPair × Addr)) : (m.advance r todo).1.registry = m.registry := by
  cases todo with
  | nil => rw [Market.advance]
  | cons e rest =>
    rw [Market.advance]
    cases hknown : m.registry.get? e.1.key with
    | some p => rfl
    | none =>
      have hempty := ((hm.join hknown).unfilled _ _ (cellOf_join m e.1.key)).2.2
      simp only [hempty]
      cases ((m.join e.1.key).1.cell (m.join e.1.key).2).busy with
      | true => exact registry_join m e.1.key
      | false => exact registry_join m e.1.key

/-- The pair that fills a cell is new, and is registered (`settle_fill`). -/
theorem Consistent.change_settle (hm : m.Consistent) (r : Refresh) (pair : Pair) {i : Nat}
    (hcell : m.CellOf pair.assets.key i) :
    m.registry.Change
      ((m.fill i pair).1.settle r i pair.assets.key (m.fill i pair).2).1.registry := by
  have hnone := (hm.unfilled _ i hcell).2.1
  rw [settle_fill r hnone, (hm.deliver hcell).registry_advance]
  exact .register ⟨m.loaded.length, pair⟩ hnone

/-- Whatever is replied, the registry changes in one way at most. By the cases of `Received`. -/
theorem Consistent.change_receive (hm : m.Consistent) (hfits : m.Fits r) (tokens : TokenDirectory)
    (question : Question) (reply : Outcome Json) :
    m.registry.Change (m.receive tokens r question reply).1.registry := by
  have hreceived := m.received tokens r question reply
  generalize m.receive tokens r question reply = out at hreceived ⊢
  cases hreceived with
  | ignored | pageFailed | page | updateFailed | updating | loadFailed | loading => exact .still
  | lastPage =>
    rw [hm.registry_advance]
    exact .still
  | @updated key known _ _ snapshot =>
    rw [hm.updated.registry_advance]
    exact .update key known snapshot
  | @loaded i reading _ snapshot stage =>
    have hcell := hfits.stage
    rw [stage] at hcell
    exact hm.change_settle r (loadedPair tokens reading snapshot) hcell.1

/-- Looking again at a cell changes nothing: a pair that is in it was registered
(`Consistent.wake_delivered`). -/
theorem Consistent.registry_wake (hm : m.Consistent) (hfits : m.Fits r) :
    (m.wake r).1.registry = m.registry := by
  cases hstage : r.stage with
  | queued i assets contract =>
    have hwaits := hfits.stage
    rw [hstage] at hwaits
    rcases hwaits with hopen | hdelivered
    · rw [hm.wake_open hstage hopen]
      split <;> rfl
    · obtain ⟨known, -, hwake⟩ := hm.wake_delivered hstage hdelivered
      rw [hwake]
      exact hm.registry_advance _ _
  | listing | updating | loading | finished => rw [Market.wake, hstage]

end Market

/-! ## Every run

The registry is followed from one step to the next, with drops among them, which do nothing to it
(`registry_without`). -/

namespace Interleaving

variable {s : Interleaving}

/-- Where one refresh acts, the registry changes as it does by that refresh. Where there is no such
refresh, it is `Change.still`. -/
theorem Sound.change_act (task : Nat) {f : Market → Refresh → Market × Refresh}
    (hf : ∀ r, s.refreshes[task]? = some r →
      s.market.registry.Change (f s.market r).1.registry) :
    s.market.registry.Change (s.act task f).market.registry := by
  unfold Interleaving.act
  cases hr : s.refreshes[task]? with
  | none => exact .still
  | some r => exact hf r hr

/-- Whatever happens next, the registry changes in one way at most. By what happens:
`Consistent.change_receive` for a reply, and nothing for a start or a drop. -/
theorem Sound.change_happen (h : s.Sound) (happening : Happening) :
    s.market.registry.Change (s.happen happening).market.registry := by
  cases happening with
  | event e =>
    cases e with
    | start => exact .still
    | reply task tokens question reply =>
      refine Sound.change_act task fun r hr => ?_
      unfold Interleaving.hear
      split
      · exact h.consistent.change_receive (h.fits task r hr) tokens question reply
      · exact .still
    | wake task =>
      refine Sound.change_act task fun r hr => ?_
      rw [h.consistent.registry_wake (h.fits task r hr)]
      exact .still
  | drop task =>
    show s.market.registry.Change (s.drop task).market.registry
    unfold Interleaving.drop
    cases hr : s.refreshes[task]? with
    | none => exact .still
    | some r =>
      rw [show (Interleaving.mk (s.market.without r) (s.refreshes.eraseIdx task)).market.registry =
        s.market.registry from Market.registry_without s.market r]
      exact .still

/-- A registered pair stays what it is, whatever happens. By induction with `Change.get?`. -/
theorem Sound.samePair_after (h : s.Sound) {key : PairKey} {p : Loaded}
    (hp : s.market.registry.get? key = some p) (happenings : List Happening) :
    ∃ q, (s.after happenings).market.registry.get? key = some q ∧ p.SamePair q := by
  induction happenings generalizing s p with
  | nil => exact ⟨p, hp, .refl p⟩
  | cons happening rest ih =>
    obtain ⟨q, hq, hpq⟩ := (h.change_happen happening).get? hp
    obtain ⟨t, ht, hqt⟩ := ih (h.happen happening) hq
    exact ⟨t, ht, hpq.trans hqt⟩

/-- Names and pairs agree, whatever happens (`Indexed.change`). -/
theorem Sound.indexed_after (h : s.Sound) (hs : s.market.registry.Indexed)
    (happenings : List Happening) : (s.after happenings).market.registry.Indexed := by
  induction happenings generalizing s with
  | nil => exact hs
  | cons happening rest ih => exact ih (h.happen happening) (hs.change (h.change_happen happening))

/-- A name that leads somewhere did so before, or there was a moment when its pair was the only one
of that name. By induction on what happens, over the moment the name was given away
(`Indexed.sole_of_new`). -/
theorem Sound.sole_after (h : s.Sound) (hs : s.market.registry.Indexed)
    {happenings : List Happening} {name : String} {key : PairKey}
    (hname : (s.after happenings).market.registry.byName[name]? = some key) :
    s.market.registry.byName[name]? = some key ∨
      ∃ before, before <+: happenings ∧
        (s.after before).market.registry.byName[name]? = some key ∧
        (s.after before).market.registry.Sole name key := by
  induction happenings generalizing s with
  | nil => exact Or.inl hname
  | cons happening rest ih =>
    have hchange := h.change_happen happening
    rcases ih (h.happen happening) (hs.change hchange) hname with hthere | ⟨before, hprefix, hmoment⟩
    · cases hbefore : s.market.registry.byName[name]? with
      | some k =>
        rw [hchange.byName hbefore, Option.some.injEq] at hthere
        exact Or.inl (congrArg some hthere)
      | none =>
        refine Or.inr ⟨[happening], ⟨rest, rfl⟩, hthere, ?_⟩
        exact hs.sole_of_new hchange hbefore hthere
    · obtain ⟨more, rfl⟩ := hprefix
      exact Or.inr ⟨happening :: before, ⟨more, rfl⟩, hmoment⟩

/-- What the registry of a new market has come to after a run. -/
structure KeepsRegistry (settings : Settings) (happenings : List Happening) : Prop where
  /-- A pair stands under the key of its assets. -/
  keyed : ∀ key p, ((new settings).after happenings).market.registry.get? key = some p →
    p.pair.assets.key = key
  /-- A name leads to a registered pair of that name, the first that was registered: at some moment
  it was, and no other of that name. -/
  named : ∀ name key, ((new settings).after happenings).market.registry.byName[name]? = some key →
    ∃ p, ((new settings).after happenings).market.registry.named? name = some p ∧
      ((new settings).after happenings).market.registry.get? key = some p ∧ p.pair.name = name ∧
      ∃ before q, before <+: happenings ∧
        ((new settings).after before).market.registry.get? key = some q ∧ q.SamePair p ∧
        ((new settings).after before).market.registry.Sole name key
  resolves : ∀ key p, ((new settings).after happenings).market.registry.get? key = some p →
    ∃ q, ((new settings).after happenings).market.registry.named? p.pair.name = some q
  /-- No key is both registered and being loaded. -/
  apart : ∀ key i, ((new settings).after happenings).market.inFlight[key]? = some i →
    ((new settings).after happenings).market.registry.get? key = none
  /-- A registered pair stays what it is, whatever comes next. -/
  stays : ∀ key p, ((new settings).after happenings).market.registry.get? key = some p →
    ∀ more, ∃ q, ((new settings).after (happenings ++ more)).market.registry.get? key = some q ∧
      p.SamePair q

/-- Whatever the refreshes of a new market are replied, in whatever order they act, and whichever
are dropped. Each field is an induction over what has happened, with `Sound.change_happen` for its
step (`indexed_after`, `sole_after`, `samePair_after`). -/
theorem after_keepsRegistry (settings : Settings) (happenings : List Happening) :
    KeepsRegistry settings happenings := by
  have hsound := (sound_new settings).after happenings
  have hempty : (new settings).market.registry.Indexed := Registry.indexed_empty
  have hindexed := (sound_new settings).indexed_after hempty happenings
  refine ⟨hsound.consistent.keyed, ?_, ?_, ?_, ?_⟩
  · intro name key hname
    obtain ⟨p, hp, hpname⟩ := hindexed.named name key hname
    refine ⟨p, by rw [Registry.named?, hname]; exact hp, hp, hpname, ?_⟩
    -- the name came in with some event, and before it no other pair had that name
    rcases (sound_new settings).sole_after hempty hname with hnew | ⟨before, hprefix, hthere, hsole⟩
    · rw [new, Market.ofSettings, Registry.empty, Std.TreeMap.getElem?_emptyc] at hnew
      cases hnew
    · have hbefore := (sound_new settings).indexed_after hempty before
      obtain ⟨q, hq, -⟩ := hbefore.named name key hthere
      obtain ⟨more, rfl⟩ := hprefix
      obtain ⟨p', hp', hsame⟩ := ((sound_new settings).after before).samePair_after hq more
      rw [← after_append, hp, Option.some.injEq] at hp'
      exact ⟨before, q, ⟨more, rfl⟩, hq, hp' ▸ hsame, hsole⟩
  · intro key p hp
    obtain ⟨k, hk⟩ := hindexed.resolves key p hp
    obtain ⟨q, hq, -⟩ := hindexed.named _ k hk
    exact ⟨q, by rw [Registry.named?, hk]; exact hq⟩
  · exact fun key i hi => (hsound.consistent.unfilled key i hi).2.1
  · intro key p hp more
    rw [after_append]
    exact hsound.samePair_after hp more

end Interleaving

end PoolMarket
