import PoolMarket.Market.Refresh

/-!
# The pairs and the cells of a market

What has to hold between the registry, the cells that are being loaded and the pairs that were ever
loaded, and what each operation on a market leaves of it. `Onward` says what the refreshes that
stand still may rely on while another one acts.

* `Consistent` — the invariant of a market on its own, with one preservation lemma for each
  operation: `join`, `setBusy` (hence `occupy` and `release`), `deliver`, `updated`.
* `Onward own` — a relation between a market and what it becomes: what is known stays known, a cell
  goes on to stand for its key or has delivered, and only the cell `own` may be given back.
* `deliver` — a load that succeeds, as one operation: the cell is filled, the pair registered, and
  the key's entry removed. Nothing can come between these, so nothing is said of the states between.
* `Received` — what a reply can do, as an inductive predicate. `received` is the only proof that
  follows `Market.receive`, and every invariant of runs is checked against its cases.
-/

namespace PoolMarket

namespace Registry

/-- Nothing is registered at first. Every invariant of a run begins with it. -/
@[simp] theorem get?_empty (key : PairKey) : empty.get? key = none := Std.TreeMap.getElem?_emptyc

/-- Registering shows under the pair's own key, where nothing stood before, and nowhere else. It is
the frame of `Registry.register`. -/
theorem get?_register (r : Registry) (p : Loaded) (key : PairKey) :
    (r.register p).1.get? key =
      if p.pair.assets.key = key ∧ r.get? key = none then some p else r.get? key := by
  unfold register
  cases hknown : r.get? p.pair.assets.key with
  | some known =>
    show r.get? key = _
    rw [if_neg]
    rintro ⟨rfl, hnone⟩
    rw [hknown] at hnone
    cases hnone
  | none =>
    show (r.byKey.insert p.pair.assets.key p)[key]? = _
    simp only [Std.TreeMap.getElem?_insert, Std.compare_eq_iff_eq]
    by_cases hkey : p.pair.assets.key = key
    · subst hkey
      rw [if_pos rfl, if_pos ⟨rfl, hknown⟩]
    · rw [if_neg hkey, if_neg fun h => hkey h.1]
      rfl

theorem register_known {r : Registry} {p known : Loaded}
    (h : r.get? p.pair.assets.key = some known) : r.register p = (r, known) := by
  rw [register, h]

theorem register_new {r : Registry} {p : Loaded} (h : r.get? p.pair.assets.key = none) :
    (r.register p).2 = p := by
  rw [register, h]

/-- Only the snapshot of the pair itself changes: the key has to be the one updated, and the pair
under it the one that was read, told by its number. By the branches of `Registry.update`. -/
theorem get?_update (r : Registry) (key : PairKey) (p : Loaded) (snapshot : Snapshot)
    (k : PairKey) :
    (r.update key p snapshot).get? k = (r.get? k).map fun q =>
      if k = key ∧ q.id = p.id then { q with pair := { q.pair with snapshot } } else q := by
  unfold update
  cases hq : r.get? key with
  | none =>
    rw [if_neg (by simp)]
    cases hk : r.get? k with
    | none => rfl
    | some q =>
      rw [Option.map_some, if_neg]
      rintro ⟨rfl, -⟩
      rw [hq] at hk
      cases hk
  | some q =>
    rw [Option.map_some]
    -- an object that is not the registered one, though of the same name, is not updated
    by_cases hid : q.id = p.id
    · rw [if_pos (congrArg some hid), record, hq]
      show (r.byKey.insert key _)[k]? = _
      simp only [Std.TreeMap.getElem?_insert, Std.compare_eq_iff_eq]
      by_cases hk : key = k
      · subst hk
        rw [if_pos rfl, hq, Option.map_some, if_pos ⟨rfl, hid⟩]
      · rw [if_neg hk]
        show r.get? k = _
        cases r.get? k with
        | none => rfl
        | some q' => rw [Option.map_some, if_neg fun h => hk h.1.symm]
    · rw [if_neg fun h => hid (Option.some.inj h)]
      cases hk : r.get? k with
      | none => rfl
      | some q' =>
        rw [Option.map_some, if_neg]
        rintro ⟨rfl, hid'⟩
        rw [hq, Option.some.injEq] at hk
        exact hid (hk ▸ hid')

end Registry

namespace Market

/-! ## Cells

A market keeps its cells in an array and never removes one, so a place once given stays the same
cell. Reading past the end gives a free and empty cell, which lets the lemmas do without bounds. -/

theorem cell_setCell {m : Market} {i : Nat} (c : LoadCell) (h : i < m.cells.size) (j : Nat) :
    (m.setCell i c).cell j = if i = j then c else m.cell j := by
  simp only [cell, setCell, Array.getD_eq_getD_getElem?, Array.getElem?_setIfInBounds]
  by_cases hij : i = j
  · subst hij
    simp [h]
  · simp [hij]

theorem cell_setCell_of_ne {m : Market} {i j : Nat} (c : LoadCell) (h : i ≠ j) :
    (m.setCell i c).cell j = m.cell j := by
  simp only [cell, setCell, Array.getD_eq_getD_getElem?, Array.getElem?_setIfInBounds_ne h]

theorem cell_of_size_le {m : Market} {i : Nat} (h : m.cells.size ≤ i) :
    m.cell i = ⟨none, false⟩ := by
  simp [cell, Array.getD_eq_getD_getElem?, Array.getElem?_eq_none h]

/-- A new cell is as any place that has none yet, so joining a load changes no cell
(`cell_of_size_le`). -/
theorem cell_join (m : Market) (key : PairKey) (j : Nat) : (m.join key).1.cell j = m.cell j := by
  unfold join
  cases m.inFlight[key]? with
  | some i => rfl
  | none =>
    simp only [cell, Array.getD_eq_getD_getElem?, Array.getElem?_push]
    split
    · next h => simp [h]
    · rfl

theorem registry_join (m : Market) (key : PairKey) : (m.join key).1.registry = m.registry := by
  unfold join
  cases m.inFlight[key]? <;> rfl

/-! ## What holds of a market

The three relations `CellOf`, `Has` and `Delivered` are what refreshes rely on: the cell of a key,
the pair of a number, and that such a pair has come out of a cell. The invariant ties them to the
fields they are about. -/

/-- The cell of a key that is being loaded. -/
def CellOf (m : Market) (key : PairKey) (i : Nat) : Prop := m.inFlight[key]? = some i

/-- The pair of a number stands under a key. -/
def Has (m : Market) (key : PairKey) (id : Nat) : Prop :=
  ∃ p, m.registry.get? key = some p ∧ p.id = id

/-- The pair of a key has come out of a cell and is registered. -/
def Delivered (m : Market) (key : PairKey) (i : Nat) : Prop :=
  ∃ p, (m.cell i).result = some p ∧ p.pair.assets.key = key ∧ m.Has key p.id

theorem Has.unique {m : Market} {key : PairKey} {id other : Nat} (h : m.Has key id)
    (hother : m.Has key other) : id = other := by
  obtain ⟨p, hp, rfl⟩ := h
  obtain ⟨q, hq, rfl⟩ := hother
  rw [hp, Option.some.injEq] at hq
  rw [hq]

/-- A key is registered or it has a cell, never both. The cells of two keys differ, and a cell that
still stands for its key is empty. The pairs that are registered are those that were ever loaded,
one for each key. -/
structure Consistent (m : Market) : Prop where
  keyed : ∀ key p, m.registry.get? key = some p → p.pair.assets.key = key
  registered : ∀ p ∈ m.loaded, m.Has p.pair.assets.key p.id
  known : ∀ key id, m.Has key id → ∃ p ∈ m.loaded, p.pair.assets.key = key ∧ p.id = id
  distinct : (m.loaded.map fun p => p.pair.assets.key).Nodup
  numbered : m.loaded.map Loaded.id = (List.range m.loaded.length).reverse
  unfilled : ∀ key i, m.CellOf key i →
    i < m.cells.size ∧ m.registry.get? key = none ∧ (m.cell i).result = none
  injective : ∀ key other i, m.CellOf key i → m.CellOf other i → key = other

/-- What stays of a market while one refresh acts, whose own cell, if it has one, is `own`. -/
structure Onward (own : Option Nat) (m n : Market) : Prop where
  has : ∀ key id, m.Has key id → n.Has key id
  cellOf : ∀ key i, m.CellOf key i → n.CellOf key i ∨ n.Delivered key i
  delivered : ∀ key i, m.Delivered key i → n.Delivered key i
  foreign : ∀ key i, own ≠ some i → m.CellOf key i → n.CellOf key i
  busy : ∀ i, own ≠ some i → (m.cell i).busy = true → (n.cell i).busy = true

namespace Onward

theorem refl (own : Option Nat) (m : Market) : Onward own m m :=
  ⟨fun _ _ h => h, fun _ _ h => Or.inl h, fun _ _ h => h, fun _ _ _ h => h, fun _ _ h => h⟩

/-- What a refresh does to its own cell may be followed by what it does without one (`own` is `none`
then): a cell that has delivered goes on to have delivered. -/
theorem trans {own : Option Nat} {a b c : Market} (hab : Onward own a b) (hbc : Onward none b c) :
    Onward own a c where
  has key id h := hbc.has key id (hab.has key id h)
  cellOf key i h := by
    rcases hab.cellOf key i h with h | h
    · exact hbc.cellOf key i h
    · exact Or.inr (hbc.delivered key i h)
  delivered key i h := hbc.delivered key i (hab.delivered key i h)
  foreign key i hown h := hbc.foreign key i (by simp) (hab.foreign key i hown h)
  busy i hown h := hbc.busy i (by simp) (hab.busy i hown h)

end Onward

/-! ## Joining a load

There is a cell for the key already, or a new one is made at the end. Each lemma is by this one
case distinction, and the second case is where the invariant has something to show. -/

theorem join_of_cellOf {m : Market} {key : PairKey} {i : Nat} (h : m.CellOf key i) :
    m.join key = (m, i) := by
  unfold join
  rw [h]

/-- Where no load of the key is under way, a new cell is put at the end and stands for the key. With
`join_of_cellOf` these are the two cases of `Market.join`. -/
theorem join_of_none {m : Market} {key : PairKey} (h : m.inFlight[key]? = none) :
    m.join key = ({ m with inFlight := m.inFlight.insert key m.cells.size
                           cells := m.cells.push ⟨none, false⟩ }, m.cells.size) := by
  unfold join
  rw [h]

/-- Either way the key has the cell that was given (`join_of_cellOf`, `join_of_none`). -/
theorem cellOf_join (m : Market) (key : PairKey) : (m.join key).1.CellOf key (m.join key).2 := by
  cases h : m.inFlight[key]? with
  | some i => rw [join_of_cellOf h]; exact h
  | none => rw [join_of_none h]; exact Std.TreeMap.getElem?_insert_self

/-- The cells of other keys stay; the key itself may have got a new one. This is the frame of
`Market.join`, for the keys of all refreshes. -/
theorem cellOf_join_iff {m : Market} {key : PairKey} (h : m.inFlight[key]? = none)
    (other : PairKey) (i : Nat) :
    (m.join key).1.CellOf other i ↔ (key = other ∧ m.cells.size = i) ∨ m.CellOf other i := by
  rw [join_of_none h]
  show (m.inFlight.insert key m.cells.size)[other]? = some i ↔ _
  simp only [Std.TreeMap.getElem?_insert, Std.compare_eq_iff_eq]
  by_cases hkey : key = other
  · subst hkey
    rw [if_pos rfl, Option.some.injEq, CellOf, h]
    simp
  · rw [if_neg hkey]
    simp [hkey, CellOf]

/-- Nobody loses anything by it: no cell changes (`cell_join`) and none is given to another key
(`cellOf_join_iff`). -/
theorem Onward.join (m : Market) (key : PairKey) : Onward none m (m.join key).1 := by
  cases h : m.inFlight[key]? with
  | some i =>
    rw [join_of_cellOf h]
    exact .refl none m
  | none =>
    have hregistry := registry_join m key
    have hhas (k : PairKey) (id : Nat) (hk : m.Has k id) : (m.join key).1.Has k id := by
      rwa [Has, hregistry]
    have hcell (k : PairKey) (i : Nat) (hk : m.CellOf k i) : (m.join key).1.CellOf k i :=
      (cellOf_join_iff h k i).2 (Or.inr hk)
    refine ⟨hhas, fun k i hk => Or.inl (hcell k i hk), ?_, fun k i _ => hcell k i, ?_⟩
    · rintro k i ⟨p, hp, hkey, hid⟩
      exact ⟨p, by rw [cell_join, hp], hkey, hhas k p.id hid⟩
    · intro i _ hbusy
      rwa [cell_join]

/-- Joining keeps the invariant, for a key that is not registered: the new cell is empty, and its
place is that of no other key, being past the end until now (`join_of_none`). -/
theorem Consistent.join {m : Market} (h : m.Consistent) {key : PairKey}
    (hunknown : m.registry.get? key = none) : (m.join key).1.Consistent := by
  cases hflight : m.inFlight[key]? with
  | some i =>
    rw [join_of_cellOf hflight]
    exact h
  | none =>
    have hjoin := join_of_none hflight
    have hregistry := registry_join m key
    have hloaded : (m.join key).1.loaded = m.loaded := by rw [hjoin]
    have hsize : (m.join key).1.cells.size = m.cells.size + 1 := by rw [hjoin]; simp
    -- the registry and the loaded pairs stay, so only the last two parts say something new
    refine ⟨?_, ?_, ?_, ?_, ?_, ?_, ?_⟩
    · rw [hregistry]
      exact h.keyed
    · intro p hp
      rw [hloaded] at hp
      rw [Has, hregistry]
      exact h.registered p hp
    · intro k id hk
      rw [Has, hregistry] at hk
      rw [hloaded]
      exact h.known k id hk
    · rw [hloaded]
      exact h.distinct
    · rw [hloaded]
      exact h.numbered
    · intro k i hk
      rw [hsize, hregistry, cell_join]
      rcases (cellOf_join_iff hflight k i).1 hk with ⟨rfl, rfl⟩ | hk
      · exact ⟨Nat.lt_succ_self _, hunknown, by rw [cell_of_size_le (Nat.le_refl _)]⟩
      · obtain ⟨hlt, hrest⟩ := h.unfilled k i hk
        exact ⟨Nat.lt_succ_of_lt hlt, hrest⟩
    · intro k l i hk hl
      -- the cell that is new lies past every cell there was, so no other name has it
      rcases (cellOf_join_iff hflight k i).1 hk with ⟨rfl, rfl⟩ | hk <;>
        rcases (cellOf_join_iff hflight l _).1 hl with ⟨rfl, hi⟩ | hl
      · rfl
      · exact absurd (h.unfilled l _ hl).1 (Nat.lt_irrefl _)
      · exact absurd (hi ▸ (h.unfilled k i hk).1) (Nat.lt_irrefl _)
      · exact h.injective k l i hk hl

/-! ## Taking a cell and giving it back

Both set one flag and leave the content of the cell as it is. Taking a free cell harms no one;
giving one back would, if another refresh relied on its being busy, which is why it is the own
cell. -/

/-- The flag does not enter into what a cell holds (`cell_setCell`). -/
theorem cell_setBusy (m : Market) (i : Nat) (busy : Bool) (j : Nat) :
    ((m.setCell i { m.cell i with busy }).cell j).result = (m.cell j).result := by
  by_cases hi : i < m.cells.size
  · rw [cell_setCell _ hi]
    split
    · next hij => rw [← hij]
    · rfl
  · rw [setCell, Array.setIfInBounds, dif_neg hi]

/-- No field of the invariant is about the flag, so it is kept whatever the flag becomes
(`cell_setBusy`). -/
theorem Consistent.setBusy {m : Market} (h : m.Consistent) (i : Nat) (busy : Bool) :
    (m.setCell i { m.cell i with busy }).Consistent where
  keyed := h.keyed
  registered := h.registered
  known := h.known
  distinct := h.distinct
  numbered := h.numbered
  unfilled key j hj := by
    obtain ⟨hlt, hnone, hresult⟩ := h.unfilled key j hj
    refine ⟨?_, hnone, (cell_setBusy m i busy j).trans hresult⟩
    simpa [setCell] using hlt
  injective := h.injective

/-- A refresh that takes a cell or gives it back leaves all other cells alone
(`cell_setCell_of_ne`). -/
theorem Onward.setBusy (m : Market) (i : Nat) (busy : Bool) :
    Onward (some i) m (m.setCell i { m.cell i with busy }) where
  has _ _ h := h
  cellOf _ _ h := Or.inl h
  delivered key j h := by
    obtain ⟨p, hp, hrest⟩ := h
    exact ⟨p, (cell_setBusy m i busy j).trans hp, hrest⟩
  foreign _ _ _ h := h
  busy j hown h := by
    rwa [cell_setCell_of_ne _ fun hij => hown (congrArg some hij)]

/-- Taking a cell keeps the invariant (`Consistent.setBusy`). -/
theorem Consistent.occupy {m : Market} (h : m.Consistent) (i : Nat) : (m.occupy i).Consistent :=
  h.setBusy i true

/-- So does giving it back (`Consistent.setBusy`). -/
theorem Consistent.release {m : Market} (h : m.Consistent) (i : Nat) : (m.release i).Consistent :=
  h.setBusy i false

/-- Giving the own cell back leaves the others alone (`Onward.setBusy`). -/
theorem Onward.release (m : Market) (i : Nat) : Onward (some i) m (m.release i) :=
  .setBusy m i false

theorem busy_occupy {m : Market} {i : Nat} (h : i < m.cells.size) :
    ((m.occupy i).cell i).busy = true := by
  rw [occupy, cell_setCell _ h, if_pos rfl]

/-- Taking a cell does nothing to those who rely on it, for it is busy afterwards. So, unlike
`Onward.release`, this may be done by a refresh to which the cell does not belong yet. -/
theorem Onward.occupy {m : Market} {i : Nat} (h : i < m.cells.size) :
    Onward none m (m.occupy i) := by
  have hset := Onward.setBusy m i true
  refine ⟨hset.has, hset.cellOf, hset.delivered, fun _ _ _ h => h, fun j _ hbusy => ?_⟩
  by_cases hij : i = j
  · rw [← hij]
    exact busy_occupy h
  · exact hset.busy j (fun heq => hij (Option.some.inj heq)) hbusy

/-! ## A load that succeeds

The pair fills the cell of its key, is registered, and the cell is given up, all in one step.
The key was not registered before, by the invariant, so the pair that is registered is the one
loaded. -/

/-- The market once the load of a pair has filled a cell and the pair is registered. -/
def deliver (m : Market) (i : Nat) (key : PairKey) (pair : Pair) : Market :=
  ((m.fill i pair).1.arrive i key (m.fill i pair).2).1

section Deliver

variable {m : Market} {i : Nat} {pair : Pair}

/-- The pair stands under its key, with the next number, and all else is as it was
(`Registry.get?_register`). -/
theorem registry_deliver (m : Market) (i : Nat) (pair : Pair) (key : PairKey)
    (h : m.registry.get? pair.assets.key = none) :
    (m.deliver i pair.assets.key pair).registry.get? key =
      if pair.assets.key = key then some ⟨m.loaded.length, pair⟩ else m.registry.get? key := by
  show (m.registry.register ⟨m.loaded.length, pair⟩).1.get? key = _
  rw [Registry.get?_register]
  by_cases hkey : pair.assets.key = key
  · rw [if_pos ⟨hkey, hkey ▸ h⟩, if_pos hkey]
  · rw [if_neg fun hc => hkey hc.1, if_neg hkey]

/-- The key has no cell any more, and the other keys have theirs. It is the frame of
`Market.deliver`, for the keys. -/
theorem cellOf_deliver_iff (h : m.CellOf pair.assets.key i) (key : PairKey) (j : Nat) :
    (m.deliver i pair.assets.key pair).CellOf key j ↔
      pair.assets.key ≠ key ∧ m.CellOf key j := by
  have hinFlight : (m.deliver i pair.assets.key pair).inFlight =
      m.inFlight.erase pair.assets.key := if_pos h
  rw [CellOf, hinFlight]
  simp only [Std.TreeMap.getElem?_erase, Std.compare_eq_iff_eq]
  by_cases hkey : pair.assets.key = key
  · simp [hkey]
  · rw [if_neg hkey]
    simp [hkey, CellOf]

theorem cell_deliver (m : Market) (pair : Pair) (hi : i < m.cells.size) (key : PairKey) (j : Nat) :
    (m.deliver i key pair).cell j =
      if i = j then ⟨some ⟨m.loaded.length, pair⟩, false⟩ else m.cell j :=
  cell_setCell _ hi j

theorem has_deliver (h : m.registry.get? pair.assets.key = none) :
    (m.deliver i pair.assets.key pair).Has pair.assets.key m.loaded.length :=
  ⟨⟨m.loaded.length, pair⟩, by rw [registry_deliver m i pair _ h, if_pos rfl], rfl⟩

/-- Other pairs are still there: their keys are not the one delivered, which had none
(`registry_deliver`). -/
theorem has_deliver_of_has (h : m.registry.get? pair.assets.key = none) {key : PairKey} {id : Nat}
    (hk : m.Has key id) : (m.deliver i pair.assets.key pair).Has key id := by
  obtain ⟨p, hp, hid⟩ := hk
  refine ⟨p, ?_, hid⟩
  rw [registry_deliver m i pair key h, if_neg, hp]
  rintro rfl
  rw [h] at hp
  cases hp

/-- Those who wait for the cell find the pair in it, and in the registry; no other cell is touched
(`cell_deliver`, `has_deliver_of_has`). -/
theorem Consistent.onward_deliver (hm : m.Consistent) (h : m.CellOf pair.assets.key i) :
    Onward (some i) m (m.deliver i pair.assets.key pair) := by
  obtain ⟨hi, hnone, hempty⟩ := hm.unfilled _ i h
  have hcell := cell_deliver m pair hi pair.assets.key
  refine ⟨fun k id => has_deliver_of_has hnone, ?_, ?_, ?_, ?_⟩
  · intro k j hk
    -- the name that is delivered leaves the flight with its cell filled, the others stay in it
    by_cases hkey : pair.assets.key = k
    · subst hkey
      have hij : i = j := Option.some.inj (h.symm.trans hk)
      refine Or.inr ⟨⟨m.loaded.length, pair⟩, ?_, rfl, has_deliver hnone⟩
      rw [hcell, if_pos hij]
    · exact Or.inl ((cellOf_deliver_iff h k j).2 ⟨hkey, hk⟩)
  · rintro k j ⟨p, hp, hkey, hid⟩
    refine ⟨p, ?_, hkey, has_deliver_of_has hnone hid⟩
    -- a cell that was delivered before is full, the one delivered now was empty
    rw [hcell, if_neg, hp]
    rintro rfl
    rw [hempty] at hp
    cases hp
  · intro k j hown hk
    refine (cellOf_deliver_iff h k j).2 ⟨?_, hk⟩
    rintro rfl
    exact hown (h.symm.trans hk)
  · intro j hown hbusy
    rwa [hcell, if_neg fun hij => hown (congrArg some hij)]

/-- Delivering keeps the invariant. The new pair has the next number and a key of its own: an
earlier load of that key would have registered it, and then it would have had no cell
(`Consistent.unfilled`). -/
theorem Consistent.deliver (hm : m.Consistent) (h : m.CellOf pair.assets.key i) :
    (m.deliver i pair.assets.key pair).Consistent := by
  obtain ⟨hi, hnone, hempty⟩ := hm.unfilled _ i h
  have hcell := cell_deliver m pair hi pair.assets.key
  have hregistry := registry_deliver m i pair (h := hnone)
  have hloaded : (m.deliver i pair.assets.key pair).loaded =
      ⟨m.loaded.length, pair⟩ :: m.loaded := rfl
  refine ⟨?_, ?_, ?_, ?_, ?_, ?_, ?_⟩
  · intro k p hp
    rw [hregistry] at hp
    split at hp
    · next hkey =>
      cases hp
      exact hkey
    · exact hm.keyed k p hp
  · intro p hp
    rw [hloaded] at hp
    rcases List.mem_cons.1 hp with rfl | hp
    · exact has_deliver hnone
    · exact has_deliver_of_has hnone (hm.registered p hp)
  · rintro k id ⟨p, hp, hid⟩
    rw [hregistry] at hp
    rw [hloaded]
    split at hp
    · next hkey =>
      cases hp
      exact ⟨_, List.mem_cons_self, hkey, hid⟩
    · obtain ⟨q, hq, hrest⟩ := hm.known k id ⟨p, hp, hid⟩
      exact ⟨q, List.mem_cons_of_mem _ hq, hrest⟩
  · rw [hloaded, List.map_cons, List.nodup_cons]
    refine ⟨fun hmem => ?_, hm.distinct⟩
    -- an earlier load of the key would have registered it
    obtain ⟨q, hq, hkey⟩ := List.mem_map.1 hmem
    obtain ⟨p, hp, -⟩ := hm.registered q hq
    rw [hkey, hnone] at hp
    cases hp
  · rw [hloaded, List.map_cons, hm.numbered, List.length_cons, List.range_succ,
      List.reverse_append]
    rfl
  · intro k j hk
    obtain ⟨hkey, hk⟩ := (cellOf_deliver_iff h k j).1 hk
    obtain ⟨hj, hknone, hkempty⟩ := hm.unfilled k j hk
    refine ⟨?_, ?_, ?_⟩
    · simpa [Market.deliver, arrive, fill, setCell] using hj
    · rw [hregistry, if_neg hkey]
      exact hknone
    · rw [hcell, if_neg, hkempty]
      rintro rfl
      exact hkey (hm.injective _ _ _ h hk)
  · intro k l j hk hl
    exact hm.injective k l j ((cellOf_deliver_iff h k j).1 hk).2 ((cellOf_deliver_iff h l j).1 hl).2

end Deliver

/-- A pair that has been delivered is registered already, and its cell is given up, so a refresh
that takes it out of the cell later changes nothing (`Registry.register_known`). -/
theorem Consistent.arrive_of_delivered {m : Market} (h : m.Consistent) {key : PairKey} {i : Nat}
    {p : Loaded} (hp : (m.cell i).result = some p) (hkey : p.pair.assets.key = key)
    (hhas : m.Has key p.id) :
    ∃ known, m.registry.get? key = some known ∧ m.arrive i key p = (m, known) := by
  obtain ⟨known, hknown, hid⟩ := hhas
  have hgone : m.inFlight[key]? ≠ some i := by
    intro hcell
    rw [(h.unfilled key i hcell).2.2] at hp
    cases hp
  refine ⟨known, hknown, ?_⟩
  simp only [arrive, Registry.register_known (hkey.symm ▸ hknown), if_neg hgone]

/-! ## A pair that is read again

Only a snapshot changes, and neither keys nor numbers are in it, so everything is preserved. The
lemmas say so for each of the relations. -/

/-- The market with another snapshot of a pair. -/
def updated (m : Market) (key : PairKey) (p : Loaded) (snapshot : Snapshot) : Market :=
  { m with registry := m.registry.update key p snapshot }

section Updated

variable {m : Market} {key : PairKey} {p : Loaded} {snapshot : Snapshot}

theorem get?_updated_eq_none_iff (k : PairKey) :
    (m.updated key p snapshot).registry.get? k = none ↔ m.registry.get? k = none := by
  rw [updated, Registry.get?_update, Option.map_eq_none_iff]

/-- Under each key stands the pair of the same number (`Registry.get?_update`). -/
theorem has_updated_iff (k : PairKey) (id : Nat) :
    (m.updated key p snapshot).Has k id ↔ m.Has k id := by
  simp only [Has, updated, Registry.get?_update, Option.map_eq_some_iff]
  constructor
  · rintro ⟨_, ⟨q, hq, rfl⟩, hid⟩
    refine ⟨q, hq, ?_⟩
    split at hid <;> exact hid
  · rintro ⟨q, hq, hid⟩
    refine ⟨_, ⟨q, hq, rfl⟩, ?_⟩
    split <;> exact hid

/-- The invariant speaks of keys and numbers only, so it is kept (`has_updated_iff`). -/
theorem Consistent.updated (h : m.Consistent) : (m.updated key p snapshot).Consistent where
  keyed k q hq := by
    rw [Market.updated, Registry.get?_update, Option.map_eq_some_iff] at hq
    obtain ⟨q, hq, rfl⟩ := hq
    split <;> exact h.keyed k q hq
  registered q hq := (has_updated_iff _ _).2 (h.registered q hq)
  known k id hk := h.known k id ((has_updated_iff k id).1 hk)
  distinct := h.distinct
  numbered := h.numbered
  unfilled k i hk := by
    obtain ⟨hi, hnone, hempty⟩ := h.unfilled k i hk
    exact ⟨hi, (get?_updated_eq_none_iff k).2 hnone, hempty⟩
  injective := h.injective

/-- Nobody loses anything by it (`has_updated_iff`). -/
theorem Onward.updated : Onward none m (m.updated key p snapshot) where
  has k id h := (has_updated_iff k id).2 h
  cellOf _ _ h := Or.inl h
  delivered k i h := by
    obtain ⟨q, hq, hkey, hid⟩ := h
    exact ⟨q, hq, hkey, (has_updated_iff k q.id).2 hid⟩
  foreign _ _ _ h := h
  busy _ _ h := h

end Updated

/-! ## What a reply does

`Market.receive` matches on the stage, the kind of question and the outcome of a reading. Its cases
are named here, each with the equations that lead to it, so that proofs about replies are by `cases`
on `Received` and have these at hand. -/

/-- What a market and a refresh may be after a reply: the refresh did not wait for one; it got a page
or the end of the pages; a known pair was read on or to its end; or so was the pair of a load. In each
of the three the reply may be the refresh's failure instead. -/
inductive Received (m : Market) (tokens : TokenDirectory) (r : Refresh) (reply : Outcome Json) :
    Market × Refresh → Prop where
  | ignored : Received m tokens r reply (m, r)
  | pageFailed {after : Option (Both String)} {fault : Fault} (stage : r.stage = .listing after) :
      Received m tokens r reply (m, r.fail fault)
  | page {after : Option (Both String)} {page : List Listing} {listings : List (DenomPair × Addr)}
      {last : Listing} (stage : r.stage = .listing after)
      (concluded : (Inquiry.page m.factory after m.pageSize).conclude reply = .ok page)
      (read : readPage page = .ok listings) (ends : page.getLast? = some last) :
      Received m tokens r reply
        (m, { r with found := r.found ++ listings, stage := .listing (some last.pair) })
  | lastPage {after : Option (Both String)} (stage : r.stage = .listing after)
      (concluded : (Inquiry.page m.factory after m.pageSize).conclude reply = .ok []) :
      Received m tokens r reply (m.advance r r.found)
  | updateFailed {key : PairKey} {known : Loaded} {reading : Reading} {fault : Fault}
      (stage : r.stage = .updating key known reading) : Received m tokens r reply (m, r.fail fault)
  | updating {key : PairKey} {known : Loaded} {reading reading' : Reading} {query : PairQuery}
      (stage : r.stage = .updating key known reading)
      (waits : reading.receive query reply = .ok (.waiting reading')) :
      Received m tokens r reply (m, { r with stage := .updating key known reading' })
  | updated {key : PairKey} {known : Loaded} {reading : Reading} {query : PairQuery}
      {snapshot : Snapshot} (stage : r.stage = .updating key known reading)
      (complete : reading.receive query reply = .ok (.complete snapshot)) :
      Received m tokens r reply
        ((m.updated key known snapshot).advance (r.ensure key known) r.todo)
  | loadFailed {i : Nat} {reading : Reading} {fault : Fault} (stage : r.stage = .loading i reading) :
      Received m tokens r reply (m.release i, r.fail fault)
  | loading {i : Nat} {reading reading' : Reading} {query : PairQuery}
      (stage : r.stage = .loading i reading)
      (waits : reading.receive query reply = .ok (.waiting reading')) :
      Received m tokens r reply (m, { r with stage := .loading i reading' })
  | loaded {i : Nat} {reading : Reading} {query : PairQuery} {snapshot : Snapshot}
      (stage : r.stage = .loading i reading)
      (complete : reading.receive query reply = .ok (.complete snapshot)) :
      Received m tokens r reply
        ((m.fill i (loadedPair tokens reading snapshot)).1.settle r i reading.assets.key
          (m.fill i (loadedPair tokens reading snapshot)).2)

/-- Whatever is replied, the outcome is one of the cases. By following `Market.receive`, once. -/
theorem received (m : Market) (tokens : TokenDirectory) (r : Refresh) (question : Question)
    (reply : Outcome Json) : Received m tokens r reply (m.receive tokens r question reply) := by
  -- one case for each branch of the definition, in its order
  unfold receive
  split
  · next after _ hstage =>
    unfold receivePage
    split
    · exact .pageFailed hstage
    · next page hpage =>
      split
      · exact .pageFailed hstage
      · next listings hlistings =>
        split
        · next last hlast => exact .page hstage hpage hlistings hlast
        · next hlast =>
          rw [List.getLast?_eq_none_iff.1 hlast] at hpage
          exact .lastPage hstage hpage
  · next key known reading _ query hstage =>
    split
    · exact .updateFailed hstage
    · next hreading => exact .updating hstage hreading
    · next hreading => exact .updated hstage hreading
  · next i reading _ query hstage =>
    split
    · exact .loadFailed hstage
    · next hreading => exact .loading hstage hreading
    · next hreading => exact .loaded hstage hreading
  · exact .ignored

end Market

end PoolMarket
