import PoolMarket.Proofs.Market.Interleaving

/-!
# One load for each pair

However refreshes interleave and whatever they are replied, a pair is loaded successfully at most
once, everyone who needs it is handed that one pair, and it stays registered for good. The invariant
`Sound` is kept by every step of every refresh, so it holds of every run.

* `Sound` — a consistent market, refreshes that fit it, and at most one of them at each cell.
* `Sound.act` — one refresh moves and the invariant is kept; the events are instances of it.
* `Sound.has_run` — what is registered stays, whatever comes next.
-/

namespace PoolMarket

namespace Interleaving

/-! ## The invariant of a run

`Market.Moves` says what one refresh does; here the others are brought in. They stand still, so
they fit by `Fits.onward`, provided that the cell which was acted on is not theirs: that is
`Sound.apart`. -/

/-- Every refresh fits the market, no two are at one cell, and a busy cell has a refresh at it. -/
structure Sound (s : Interleaving) : Prop where
  consistent : s.market.Consistent
  fits : ∀ (j : Nat) (r : Refresh), s.refreshes[j]? = some r → s.market.Fits r
  apart : ∀ (j k : Nat) (r t : Refresh) (i : Nat), s.refreshes[j]? = some r →
    s.refreshes[k]? = some t → r.cell? = some i → t.cell? = some i → j = k
  loader : ∀ i, (s.market.cell i).busy = true →
    ∃ (j : Nat) (r : Refresh), s.refreshes[j]? = some r ∧ r.cell? = some i

/-- A market just set up is consistent, having neither pairs nor cells. It is the beginning of every
run (`Interleaving.new`). -/
theorem consistent_ofSettings (s : Settings) : (Market.ofSettings s).Consistent := by
  -- nothing is registered, loaded or in flight, so every part holds of nothing
  have hnone (key : PairKey) (p : Loaded) : (Market.ofSettings s).registry.get? key ≠ some p := by
    rw [Market.ofSettings, Registry.get?_empty]
    exact (Option.some_ne_none p).symm
  have hfree (key : PairKey) (i : Nat) : ¬ (Market.ofSettings s).CellOf key i := by
    rw [Market.CellOf, Market.ofSettings, Std.TreeMap.getElem?_emptyc]
    exact (Option.some_ne_none i).symm
  exact
    { keyed := fun key p hp => absurd hp (hnone key p)
      registered := fun _ hp => absurd hp List.not_mem_nil
      known := fun key _ hknown => hknown.elim fun p hp => absurd hp.1 (hnone key p)
      distinct := List.nodup_nil
      numbered := rfl
      unfilled := fun key i h => absurd h (hfree key i)
      injective := fun key _ i h => absurd h (hfree key i) }

/-- A run begins with no refresh, and all cells free (`consistent_ofSettings`). -/
theorem sound_new (s : Settings) : (new s).Sound where
  consistent := consistent_ofSettings s
  fits j r h := by cases h
  apart j k r t i h := by cases h
  loader i h := by
    rw [new, Market.cell_of_size_le (Nat.zero_le i)] at h
    cases h

/-- The other refreshes have no cell that the one that has acted took. It is `Onward.foreign`, for
the next state. -/
theorem Sound.foreign {s : Interleaving} (h : s.Sound) {task j : Nat} {r t : Refresh}
    (hr : s.refreshes[task]? = some r) (ht : s.refreshes[j]? = some t) (hne : j ≠ task) :
    ∀ i, t.cell? = some i → r.cell? ≠ some i := by
  intro i hcell hown
  exact hne (h.apart j task t r i ht hr hcell hown)

/-- What one refresh does keeps the invariant of all. A cell that it is at now was its own or free,
and so is no other's; the others fit as before (`Fits.onward`). -/
theorem Sound.act {s : Interleaving} (h : s.Sound) {task : Nat}
    {f : Market → Refresh → Market × Refresh}
    (hf : ∀ r, s.refreshes[task]? = some r → Market.Moves r.cell? s.market (f s.market r)) :
    (s.act task f).Sound := by
  unfold Interleaving.act
  cases hr : s.refreshes[task]? with
  | none => exact h
  | some r =>
    have hmoves := hf r hr
    have htask : task < s.refreshes.length := (List.getElem?_eq_some_iff.1 hr).1
    have hset (j : Nat) (t : Refresh) :
        (s.refreshes.set task (f s.market r).2)[j]? = some t ↔
          (j = task ∧ t = (f s.market r).2) ∨ (j ≠ task ∧ s.refreshes[j]? = some t) := by
      rw [List.getElem?_set]
      by_cases hj : task = j
      · subst hj
        simp [htask, eq_comm]
      · simp [hj, Ne.symm hj]
    -- a cell that the refresh is at now was its own or free, and so is no other's
    have htaken (j : Nat) (t : Refresh) (i : Nat) (hj : j ≠ task) (ht : s.refreshes[j]? = some t)
        (hcell : t.cell? = some i) : (f s.market r).2.cell? ≠ some i := by
      intro hnew
      rcases hmoves.taken i hnew with hown | hfree
      · exact h.foreign hr ht hj i hcell hown
      · have hbusy := (h.fits j t ht).stage
        cases hstage : t.stage with
        | loading k reading =>
          rw [Refresh.cell?, hstage, Option.some.injEq] at hcell
          rw [hstage] at hbusy
          subst hcell
          rw [hbusy.2] at hfree
          cases hfree
        | listing | updating | queued | finished =>
          rw [Refresh.cell?, hstage] at hcell
          cases hcell
    refine ⟨hmoves.consistent, ?_, ?_, ?_⟩
    · intro j t ht
      rcases (hset j t).1 ht with ⟨-, rfl⟩ | ⟨hj, ht⟩
      · exact hmoves.fits
      · exact (h.fits j t ht).onward hmoves.onward (h.foreign hr ht hj)
    · intro j k t u i ht hu htcell hucell
      rcases (hset j t).1 ht with ⟨hj, rfl⟩ | ⟨hj, ht⟩ <;>
        rcases (hset k u).1 hu with ⟨hk, rfl⟩ | ⟨hk, hu⟩
      · rw [hj, hk]
      · exact absurd htcell (htaken k u i hk hu hucell)
      · exact absurd hucell (htaken j t i hj ht htcell)
      · exact h.apart j k t u i ht hu htcell hucell
    · intro i hi
      rcases hmoves.busy i hi with hcell | ⟨hown, hbusy⟩
      · exact ⟨task, _, (hset _ _).2 (Or.inl ⟨rfl, rfl⟩), hcell⟩
      · obtain ⟨j, t, ht, hcell⟩ := h.loader i hbusy
        have hj : j ≠ task := by
          rintro rfl
          rw [hr, Option.some.injEq] at ht
          exact hown (ht ▸ hcell)
        exact ⟨j, t, (hset j t).2 (Or.inr ⟨hj, ht⟩), hcell⟩

/-- A refresh that starts relies on nothing and has no cell. The others are where they were in the
list (`List.getElem?_append_left`). -/
theorem Sound.start {s : Interleaving} (h : s.Sound) : (s.step .start).Sound := by
  have hadd (j : Nat) (t : Refresh) (ht : (s.refreshes ++ [Refresh.start])[j]? = some t) :
      s.refreshes[j]? = some t ∨ t = .start := by
    rcases Nat.lt_or_ge j s.refreshes.length with hj | hj
    · rw [List.getElem?_append_left hj] at ht
      exact Or.inl ht
    · rw [List.getElem?_append_right hj] at ht
      exact Or.inr (List.mem_singleton.1 (List.mem_of_getElem? ht))
  refine ⟨h.consistent, ?_, ?_, ?_⟩
  · intro j t ht
    rcases hadd j t ht with ht | rfl
    · exact h.fits j t ht
    · exact ⟨trivial, fun _ _ he => by cases he⟩
  · intro j k t u i ht hu htcell hucell
    -- a refresh that has just started has no cell, and so shares none
    rcases hadd j t ht with ht | rfl
    · rcases hadd k u hu with hu | rfl
      · exact h.apart j k t u i ht hu htcell hucell
      · cases hucell
    · cases htcell
  · intro i hi
    obtain ⟨j, t, ht, hcell⟩ := h.loader i hi
    have hj := (List.getElem?_eq_some_iff.1 ht).1
    exact ⟨j, t, (List.getElem?_append_left hj).trans ht, hcell⟩

/-- A refresh that is replied to moves, or goes on waiting if it did not ask
(`Consistent.receive`). -/
theorem Sound.hear {s : Interleaving} (h : s.Sound) {task : Nat} {r : Refresh}
    (hr : s.refreshes[task]? = some r) (tokens : TokenDirectory) (question : Question)
    (reply : Outcome Json) :
    Market.Moves r.cell? s.market (Interleaving.hear tokens question reply s.market r) := by
  unfold Interleaving.hear
  split
  · exact h.consistent.receive (h.fits task r hr) tokens question reply
  · exact .of_still h.consistent (h.fits task r hr)

/-- Every event keeps the invariant: `Sound.start`, or a move by one refresh. -/
theorem Sound.step {s : Interleaving} (h : s.Sound) (e : Event) : (s.step e).Sound := by
  cases e with
  | start => exact h.start
  | reply task tokens question reply =>
    exact h.act fun r hr => h.hear hr tokens question reply
  | wake task => exact h.act fun r hr => h.consistent.wake (h.fits task r hr)

/-- It holds after any events. By induction on them, with `Sound.step`. -/
theorem Sound.run {s : Interleaving} (h : s.Sound) (events : List Event) :
    (s.run events).Sound := by
  induction events generalizing s with
  | nil => exact h
  | cons e rest ih => exact ih (h.step e)

/-! ## What is registered stays

-/

/-- A pair that is registered is there after any event, as no move takes one away (`Onward.has`). -/
theorem Sound.has_step {s : Interleaving} (h : s.Sound) (e : Event) {key : PairKey} {id : Nat}
    (hhas : s.market.Has key id) : (s.step e).market.Has key id := by
  have hact (task : Nat) (f : Market → Refresh → Market × Refresh)
      (hf : ∀ r, s.refreshes[task]? = some r → Market.Moves r.cell? s.market (f s.market r)) :
      (s.act task f).market.Has key id := by
    unfold Interleaving.act
    cases hr : s.refreshes[task]? with
    | none => exact hhas
    | some r => exact (hf r hr).onward.has key id hhas
  cases e with
  | start => exact hhas
  | reply task tokens question reply =>
    exact hact task _ fun r hr => h.hear hr tokens question reply
  | wake task => exact hact task _ fun r hr => h.consistent.wake (h.fits task r hr)

/-- And after any number of them, by the same induction (`Sound.has_step`). -/
theorem Sound.has_run {s : Interleaving} (h : s.Sound) (events : List Event) {key : PairKey}
    {id : Nat} (hhas : s.market.Has key id) : (s.run events).market.Has key id := by
  induction events generalizing s with
  | nil => exact hhas
  | cons e rest ih => exact ih (h.step e) (h.has_step e hhas)

/-! ## Single flight -/

/-- Each key has had one successful load at most, whose pair everyone is handed and is registered
for good. A pair is told from all others by the number of its load. -/
structure SingleFlight (s : Interleaving) : Prop where
  /-- Of the loads that have succeeded no two are of one key. -/
  once : (s.market.loaded.map fun p => p.pair.assets.key).Nodup
  /-- Every load makes a pair of its own. -/
  own : (s.market.loaded.map Loaded.id).Nodup
  /-- A refresh that is done with a listing was handed the pair that was loaded for its key. -/
  handed : ∀ r ∈ s.refreshes, ∀ key id, (key, id) ∈ r.ensured →
    ∃ p ∈ s.market.loaded, p.pair.assets.key = key ∧ p.id = id
  /-- All that are done with a listing of one key were handed the same pair. -/
  same : ∀ r ∈ s.refreshes, ∀ t ∈ s.refreshes, ∀ key id other,
    (key, id) ∈ r.ensured → (key, other) ∈ t.ensured → id = other
  /-- The pair that is registered under a key stays there, whatever comes next. -/
  stays : ∀ key p, s.market.registry.get? key = some p →
    ∀ more, ∃ q, (s.run more).market.registry.get? key = some q ∧ q.id = p.id

/-- What a refresh was handed is registered, by the invariant (`Fits.ensured`). -/
theorem Sound.has_of_ensured {s : Interleaving} (h : s.Sound) {r : Refresh} (hr : r ∈ s.refreshes)
    {key : PairKey} {id : Nat} (he : (key, id) ∈ r.ensured) : s.market.Has key id := by
  obtain ⟨j, hj⟩ := List.mem_iff_getElem?.1 hr
  exact (h.fits j r hj).ensured key id he

/-- Every run of refreshes on a new market is a single flight, in whatever order they act and
whatever they are replied. The invariant holds after every run (`Sound.run`), and each field is read
off it; what was registered stays so by `Sound.has_run`. -/
theorem run_singleFlight (settings : Settings) (events : List Event) :
    ((new settings).run events).SingleFlight := by
  have hsound := (sound_new settings).run events
  refine ⟨hsound.consistent.distinct, ?_, ?_, ?_, ?_⟩
  · rw [hsound.consistent.numbered]
    exact (List.reverse_perm _).nodup_iff.2 List.nodup_range
  · intro r hr key id he
    exact hsound.consistent.known key id (hsound.has_of_ensured hr he)
  · intro r hr t ht key id other he hother
    exact (hsound.has_of_ensured hr he).unique (hsound.has_of_ensured ht hother)
  · intro key p hp more
    exact hsound.has_run more ⟨p, hp, rfl⟩

end Interleaving

end PoolMarket
