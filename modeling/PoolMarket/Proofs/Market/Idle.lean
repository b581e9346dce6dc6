import PoolMarket.Proofs.Market.SingleFlight

/-!
# Markets with nothing under way

Between refreshes no cell is taken. One refresh alone takes the cell of one key at a time, and gives
it back with the pair, or without it.

`Idle` is the state between refreshes and `Taken` the one while a lone refresh loads a pair; the
lemmas lead from the one to the other and back.
-/

namespace PoolMarket

/-- No refresh is loading a pair. -/
structure Market.Idle (m : Market) : Prop where
  consistent : m.Consistent
  free : ∀ i, (m.cell i).busy = false

namespace Market

variable {m : Market}

/-- Such a market with no refresh is the beginning of a run (`Interleaving.Sound`). -/
theorem Idle.sound (h : m.Idle) : (Interleaving.mk m []).Sound where
  consistent := h.consistent
  fits j r hr := by cases hr
  apart j k r t i hr := by cases hr
  loader i hi := by
    rw [h.free i] at hi
    cases hi

theorem Idle.updated (h : m.Idle) (key : PairKey) (known : Loaded) (snapshot : Snapshot) :
    (m.updated key known snapshot).Idle :=
  ⟨h.consistent.updated, h.free⟩

/-- A market whose free cell of a key a refresh has taken to load the pair. -/
structure Taken (m : Market) (key : PairKey) (i : Nat) : Prop where
  consistent : m.Consistent
  cell : m.CellOf key i
  others : ∀ j, j ≠ i → (m.cell j).busy = false

/-- Joining and taking the cell of an unknown key, in a market where nothing is being loaded. The
cell may be there already, left behind by a load that has failed; it is free and empty either way
(`Consistent.join`, `Consistent.occupy`). -/
theorem Idle.take (h : m.Idle) {key : PairKey} (hnone : m.registry.get? key = none) :
    ((m.join key).1.cell (m.join key).2).result = none ∧
      ((m.join key).1.cell (m.join key).2).busy = false ∧
      ((m.join key).1.occupy (m.join key).2).Taken key (m.join key).2 := by
  have hjoin := h.consistent.join hnone
  have hcell := cellOf_join m key
  refine ⟨(hjoin.unfilled key _ hcell).2.2, ?_, hjoin.occupy _, hcell, fun j hj => ?_⟩
  · rw [cell_join, h.free]
  · rw [Market.occupy, cell_setCell_of_ne _ (Ne.symm hj), cell_join, h.free]

theorem registry_take (m : Market) (key : PairKey) (i : Nat) :
    ((m.join key).1.occupy i).registry = m.registry :=
  registry_join m key

/-- A load that has succeeded leaves no cell taken (`Consistent.deliver`). -/
theorem Taken.deliver {i : Nat} {pair : Pair} (h : m.Taken pair.assets.key i) :
    (m.deliver i pair.assets.key pair).Idle := by
  refine ⟨h.consistent.deliver h.cell, fun j => ?_⟩
  rw [cell_deliver m pair (h.consistent.unfilled _ i h.cell).1]
  by_cases hj : i = j
  · rw [if_pos hj]
  · rw [if_neg hj, h.others j (Ne.symm hj)]

/-- Neither does one that has failed (`Consistent.release`). -/
theorem Taken.release {key : PairKey} {i : Nat} (h : m.Taken key i) : (m.release i).Idle := by
  refine ⟨h.consistent.release i, fun j => ?_⟩
  rw [Market.release, cell_setCell _ (h.consistent.unfilled _ i h.cell).1]
  by_cases hj : i = j
  · rw [if_pos hj]
  · rw [if_neg hj, h.others j (Ne.symm hj)]

end Market

/-- Where no refresh is under way, none is loading a pair: a busy cell would have a refresh at it
(`Sound.loader`), which has not ended. -/
theorem Interleaving.Sound.idle {s : Interleaving} (h : s.Sound)
    (hended : ∀ r ∈ s.refreshes, r.result?.isSome = true) : s.market.Idle := by
  refine ⟨h.consistent, fun i => ?_⟩
  cases hbusy : (s.market.cell i).busy with
  | false => rfl
  | true =>
    -- whoever fills a busy cell is in the middle of loading, and so has not ended
    obtain ⟨j, r, hr, hcell⟩ := h.loader i hbusy
    have hend := hended r (List.mem_of_getElem? hr)
    unfold Refresh.cell? at hcell
    unfold Refresh.result? at hend
    cases hstage : r.stage with
    | loading k reading =>
      rw [hstage] at hend
      cases hend
    | listing | updating | queued | finished =>
      rw [hstage] at hcell
      cases hcell

end PoolMarket
