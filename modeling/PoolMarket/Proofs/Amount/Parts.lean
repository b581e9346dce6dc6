import Mathlib.Tactic.Ring

/-!
# Parts of a reserve

Some shares out of a supply have a part in a reserve, `reserve * shares / supply`. It is rounded
down, so parts taken one by one never come to more than the part of all their shares at once, and to
less than it by under one unit each.

* `add_le` — two parts, of which the second is taken from what the first left.
* `sum_mul_le`, `add_length_le_sum_mul` — a list of parts, bounded from above and from below.
-/

namespace PoolMarket.Parts

variable {reserve shares supply : Nat}

/-- No shares have more than the reserve, as long as there are no more of them than the supply. -/
theorem le_reserve (h : shares ≤ supply) : reserve * shares / supply ≤ reserve :=
  calc reserve * shares / supply ≤ reserve * supply / supply :=
        Nat.div_le_div_right (Nat.mul_le_mul_left reserve h)
    _ ≤ reserve := Nat.div_le_of_le_mul (Nat.le_of_eq (Nat.mul_comm ..))

/-- The part of some shares leaves something of a reserve, so a pool that is not emptied of its
shares keeps both its reserves. -/
theorem lt_reserve (hreserve : 0 < reserve) (hshares : shares < supply) :
    reserve * shares / supply < reserve := by
  rw [Nat.div_lt_iff_lt_mul (by omega)]
  exact Nat.mul_lt_mul_of_pos_left hshares hreserve

/-! ## One after the other

A withdrawal changes both numbers that the next part is computed from: the reserve by the part that
was paid, the supply by the shares that are gone. The second part is therefore not the one it would
have been at first, and that it is not larger takes the rounding of the first into account. -/

/-- Shares that leave take their part, and other shares then have a part in what remains. Both come
to no more than the part of all of them: rounding the first part down leaves at most one unit more
in the reserve, and less than its share of that falls to the others. The case without a remainder is
`le_reserve`. -/
theorem add_le {others : Nat} (h : shares + others ≤ supply) :
    reserve * shares / supply + (reserve - reserve * shares / supply) * others / (supply - shares) ≤
      reserve * (shares + others) / supply := by
  obtain ⟨kept, rfl⟩ := Nat.exists_eq_add_of_le h
  have hleft : shares + others + kept - shares = others + kept := by omega
  rw [hleft]
  rcases Nat.eq_zero_or_pos (others + kept) with hnone | hsome
  · -- nothing is left when the others come
    obtain ⟨rfl, rfl⟩ : others = 0 ∧ kept = 0 := by omega
    simp
  -- of the two quotients only that they round down is kept, so that what is left is a product of
  -- sums
  have hpart : reserve * shares / (shares + others + kept) * (shares + others + kept) ≤
      reserve * shares := Nat.div_mul_le_self ..
  have hle : reserve * shares / (shares + others + kept) ≤ reserve := le_reserve (by omega)
  generalize reserve * shares / (shares + others + kept) = taken at hpart hle ⊢
  obtain ⟨rest, rfl⟩ := Nat.exists_eq_add_of_le hle
  rw [Nat.add_sub_cancel_left]
  have hother : rest * others / (others + kept) * (others + kept) ≤ rest * others :=
    Nat.div_mul_le_self ..
  generalize rest * others / (others + kept) = other at hother ⊢
  rw [Nat.le_div_iff_mul_le (by omega)]
  apply Nat.le_of_mul_le_mul_right _ hsome
  calc (taken + other) * (shares + others + kept) * (others + kept)
      = taken * (shares + others + kept) * kept + taken * (shares + others + kept) * others +
          other * (others + kept) * (shares + others + kept) := by ring
    _ ≤ (taken + rest) * shares * kept + taken * (shares + others + kept) * others +
          rest * others * (shares + others + kept) :=
        Nat.add_le_add (Nat.add_le_add_right (Nat.mul_le_mul_right kept hpart) _)
          (Nat.mul_le_mul_right _ hother)
    _ = (taken + rest) * (shares + others) * (others + kept) := by ring

/-! ## Any number of them

All parts are of one and the same reserve here, as when many holders ask what they own. The bounds
are stated without a division, which is where `omega` and a comparison of sums can use them; both
are by induction on the list of holdings. -/

/-- Parts together are worth no more than the part of all their shares: each is at most what it
would be without rounding, and the sum of those is exact. By induction on the parts, with
`Nat.div_mul_le_self` for each. -/
theorem sum_mul_le (parts : List Nat) :
    (parts.map fun shares => reserve * shares / supply).sum * supply ≤ reserve * parts.sum := by
  induction parts with
  | nil => simp
  | cons shares rest ih =>
    rw [List.map_cons, List.sum_cons, List.sum_cons, Nat.add_mul, Nat.mul_add]
    exact Nat.add_le_add (Nat.div_mul_le_self ..) ih

/-- Each part is rounded down by less than one unit, so all of them fall short of the exact sum by
less than there are parts. By induction on the parts, with `Nat.lt_mul_div_succ` for each. -/
theorem add_length_le_sum_mul (hsupply : 0 < supply) (parts : List Nat) :
    reserve * parts.sum + parts.length ≤
      ((parts.map fun shares => reserve * shares / supply).sum + parts.length) * supply := by
  induction parts with
  | nil => simp
  | cons shares rest ih =>
    have hpart : reserve * shares < supply * (reserve * shares / supply + 1) :=
      Nat.lt_mul_div_succ _ hsupply
    rw [List.map_cons, List.sum_cons, List.sum_cons, List.length_cons]
    calc reserve * (shares + rest.sum) + (rest.length + 1)
        = (reserve * shares + 1) + (reserve * rest.sum + rest.length) := by ring
      _ ≤ supply * (reserve * shares / supply + 1) +
            ((rest.map fun shares => reserve * shares / supply).sum + rest.length) * supply :=
          Nat.add_le_add hpart ih
      _ = _ := by ring

end PoolMarket.Parts
