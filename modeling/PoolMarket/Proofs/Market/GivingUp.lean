import PoolMarket.Proofs.Market.SingleFlight

/-!
# Refreshes that are given up

A refresh may be dropped by its caller while it waits. A load that is dropped gives its cell back,
as one that has failed does, and the next refresh may try. What the refreshes that are left rely on
is still there, so the invariant of a run outlives every drop.

`Market.without` is what is left of the market, `Interleaving.happen` an event or a drop, and
`Sound.after` the invariant of runs with both.
-/

namespace PoolMarket

/-! ## What is left of a market

Dropping a refresh is giving back its own cell, so the lemmas about `release` apply. -/

namespace Market

variable {m : Market} {r : Refresh}

/-- The market once a refresh is dropped: the cell that it was loading into is free again. -/
def without (m : Market) (r : Refresh) : Market :=
  match r.cell? with
  | some i => m.release i
  | none => m

theorem registry_without (m : Market) (r : Refresh) : (m.without r).registry = m.registry := by
  unfold without
  cases r.cell? <;> rfl

/-- Giving the cell back keeps the invariant of the market (`Consistent.release`). -/
theorem Consistent.without (hm : m.Consistent) (r : Refresh) : (m.without r).Consistent := by
  unfold Market.without
  cases r.cell? with
  | some i => exact hm.release i
  | none => exact hm

/-- Those who are left lose nothing but a cell that was not theirs (`Onward.release`). -/
theorem Onward.without (m : Market) (r : Refresh) : Onward r.cell? m (m.without r) := by
  unfold Market.without
  cases r.cell? with
  | some i => exact .release m i
  | none => exact .refl none m

/-- A cell that is busy still is not the one that was given back (`cell_setCell`). -/
theorem busy_without (hm : m.Consistent) (hfits : m.Fits r) {i : Nat}
    (hi : ((m.without r).cell i).busy = true) : r.cell? ≠ some i ∧ (m.cell i).busy = true := by
  have hstage := hfits.stage
  unfold Market.without Refresh.cell? at hi
  unfold Refresh.cell?
  cases hr : r.stage with
  | loading k reading =>
    rw [hr] at hi hstage
    have hk := (hm.unfilled _ k hstage.1).1
    simp only [release, cell_setCell _ hk] at hi
    split at hi
    · cases hi
    · next hne => exact ⟨fun heq => hne (Option.some.inj heq), hi⟩
  | listing | updating | queued | finished =>
    rw [hr] at hi
    exact ⟨by simp, hi⟩

end Market

/-! ## Runs in which refreshes are dropped

Dropping removes a refresh from the list, so those behind it move up by one place. The invariant
speaks of places only to tell two refreshes apart, which they still are. -/

namespace Interleaving

/-- What may come next: a refresh acts, or it is dropped. -/
inductive Happening where
  | event (e : Event)
  | drop (task : Nat)

def drop (s : Interleaving) (task : Nat) : Interleaving :=
  match s.refreshes[task]? with
  | some r => ⟨s.market.without r, s.refreshes.eraseIdx task⟩
  | none => s

def happen (s : Interleaving) : Happening → Interleaving
  | .event e => s.step e
  | .drop task => s.drop task

def after (s : Interleaving) (happenings : List Happening) : Interleaving :=
  happenings.foldl happen s

theorem after_append (s : Interleaving) (happenings more : List Happening) :
    s.after (happenings ++ more) = (s.after happenings).after more :=
  List.foldl_append

/-- Dropping a refresh keeps the invariant of those that are left, wherever in the list it stood
(`Onward.without`). -/
theorem Sound.drop {s : Interleaving} (h : s.Sound) (task : Nat) : (s.drop task).Sound := by
  unfold Interleaving.drop
  cases hr : s.refreshes[task]? with
  | none => exact h
  | some r =>
    have hleft (t : Refresh) (ht : t ∈ s.refreshes.eraseIdx task) :
        ∃ j, j ≠ task ∧ s.refreshes[j]? = some t := by
      obtain ⟨j, hj, hjt⟩ := List.mem_eraseIdx_iff_getElem?.1 ht
      exact ⟨j, hj, hjt⟩
    refine ⟨h.consistent.without r, ?_, ?_, ?_⟩
    · intro j t ht
      obtain ⟨k, hk, hkt⟩ := hleft t (List.mem_of_getElem? ht)
      exact (h.fits k t hkt).onward (.without s.market r) (h.foreign hr hkt hk)
    · -- the places behind the one that is gone have moved up
      intro j k t u i ht hu htcell hucell
      have hplaces := h.apart (if j < task then j else j + 1) (if k < task then k else k + 1) t u i
        (by rw [← ht, List.getElem?_eraseIdx]; split <;> rfl)
        (by rw [← hu, List.getElem?_eraseIdx]; split <;> rfl) htcell hucell
      split at hplaces <;> split at hplaces <;> omega
    · -- a busy cell had another loader, which is still there
      intro i hi
      obtain ⟨hown, hbusy⟩ := Market.busy_without h.consistent (h.fits task r hr) hi
      obtain ⟨j, t, hj, hcell⟩ := h.loader i hbusy
      have hne : j ≠ task := by
        rintro rfl
        rw [hr, Option.some.injEq] at hj
        exact hown (hj ▸ hcell)
      have hmem : t ∈ s.refreshes.eraseIdx task :=
        List.mem_eraseIdx_iff_getElem?.2 ⟨j, hne, hj⟩
      obtain ⟨k, hk⟩ := List.mem_iff_getElem?.1 hmem
      exact ⟨k, t, hk, hcell⟩

/-- Whatever happens next keeps it: `Sound.step`, or `Sound.drop`. -/
theorem Sound.happen {s : Interleaving} (h : s.Sound) (happening : Happening) :
    (s.happen happening).Sound := by
  cases happening with
  | event e => exact h.step e
  | drop task => exact h.drop task

/-- It holds whatever has happened. By induction, with `Sound.happen`. -/
theorem Sound.after {s : Interleaving} (h : s.Sound) (happenings : List Happening) :
    (s.after happenings).Sound := by
  induction happenings generalizing s with
  | nil => exact h
  | cons happening rest ih => exact ih (h.happen happening)

end Interleaving

end PoolMarket
