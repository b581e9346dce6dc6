import PoolMarket.Proofs.Quote.Turns

/-!
# Where the calls of a quoter stand

What a step does to one call leaves the others where they stand. So the invariant of a run is kept by
what becomes of the driver in its turn (`Quoter.Sound.turn`), and by a call that comes
(`Quoter.Sound.comes`); nothing else happens to calls (`Quoter.Sound.move`).
-/

namespace PoolMarket

open Debounce (Caller Flags)

namespace Quoter

variable {s t : Quoter} {i : Nat} {c : Call} {event : Event}

/-! ## A step keeps the invariant

One call goes on, so the others have to be looked up behind what was written for it (`calls_put`,
`calls_comes`). What they were asked for is still asked (`Onward`), which is all that the standing
of a call depends on as long as it does not drive (`Stands.onward`). -/

/-- The calls behind what was written for one: that one has changed, and no other. It is the frame
of `Quoter.put`. -/
theorem calls_put (hc : s.calls[i]? = some c) (out : Flags × Caller Answer)
    (errand : Option Errand) (j : Nat) :
    (s.put i c out errand).calls[j]? =
      if j = i then some { c with caller := out.2, errand } else s.calls[j]? := by
  have hlt := (List.getElem?_eq_some_iff.1 hc).1
  show (s.calls.set i _)[j]? = _
  by_cases hj : j = i
  · rw [if_pos hj, hj, List.getElem?_set_self hlt]
  · rw [if_neg hj, List.getElem?_set_ne (Ne.symm hj)]

theorem calls_put_self (hc : s.calls[i]? = some c) (out : Flags × Caller Answer)
    (errand : Option Errand) :
    (s.put i c out errand).calls[i]? = some { c with caller := out.2, errand } := by
  rw [calls_put hc, if_pos rfl]

/-- The calls once another has come, behind all others. It is the frame of `Quoter.comes`. -/
theorem calls_comes (s : Quoter) (input : Coin × Denom) (flags : Flags) (caller : Caller Answer)
    (j : Nat) :
    (s.comes input flags caller).calls[j]? =
      if j = s.calls.length then some ⟨input, caller, none⟩ else s.calls[j]? := by
  show (s.calls ++ [_])[j]? = _
  by_cases hj : j = s.calls.length
  · rw [if_pos hj, hj, List.getElem?_concat_length]
  · rw [if_neg hj]
    rcases Nat.lt_or_gt_of_ne hj with hlt | hgt
    · exact List.getElem?_append_left hlt
    · rw [List.getElem?_eq_none (Nat.le_of_lt hgt), List.getElem?_eq_none]
      rw [List.length_append]
      exact hgt

theorem calls_comes_old (hc : s.calls[i]? = some c) (input : Coin × Denom) (flags : Flags)
    (caller : Caller Answer) : (s.comes input flags caller).calls[i]? = some c := by
  rw [calls_comes, if_neg (Nat.ne_of_lt (List.getElem?_eq_some_iff.1 hc).1), hc]

/-- The only call that is new is the one that comes (`calls_comes`). -/
theorem eq_of_calls_comes {input : Coin × Denom} {flags : Flags} {caller : Caller Answer}
    {d : Call} (hnew : s.calls[i]? ≠ some d)
    (hd : (s.comes input flags caller).calls[i]? = some d) :
    i = s.calls.length ∧ d = ⟨input, caller, none⟩ := by
  rw [calls_comes] at hd
  split at hd
  · next hi => exact ⟨hi, (Option.some.inj hd).symm⟩
  · exact absurd hd hnew

theorem length_put (s : Quoter) (i : Nat) (c : Call) (out : Flags × Caller Answer)
    (errand : Option Errand) : (s.put i c out errand).calls.length = s.calls.length :=
  List.length_set

theorem inputs_put (hc : s.calls[i]? = some c) (out : Flags × Caller Answer)
    (errand : Option Errand) : (s.put i c out errand).inputs = s.inputs := by
  refine List.ext_getElem? fun j => ?_
  rw [inputs, List.getElem?_map, calls_put hc, inputs, List.getElem?_map]
  by_cases hj : j = i
  · rw [if_pos hj, hj, hc]
    rfl
  · rw [if_neg hj]

theorem inputs_comes (s : Quoter) (input : Coin × Denom) (flags : Flags)
    (caller : Caller Answer) : (s.comes input flags caller).inputs = s.inputs ++ [input] :=
  List.map_append

/-- What was asked stays asked, and the threshold of the warning stays what it is. -/
structure Onward (s t : Quoter) : Prop where
  inputs : ∃ more, t.inputs = s.inputs ++ more
  warning : t.warning = s.warning

theorem Onward.refl (s : Quoter) : Onward s s := ⟨⟨[], (List.append_nil _).symm⟩, rfl⟩

theorem Onward.trans {u : Quoter} (hst : Onward s t) (htu : Onward t u) : Onward s u := by
  obtain ⟨⟨first, hfirst⟩, hwarning⟩ := hst
  obtain ⟨⟨more, hmore⟩, hwarning'⟩ := htu
  exact ⟨⟨first ++ more, by rw [hmore, hfirst, List.append_assoc]⟩, hwarning'.trans hwarning⟩

theorem Onward.of_inputs (hinputs : t.inputs = s.inputs) (hwarning : t.warning = s.warning) :
    Onward s t := ⟨⟨[], hinputs.trans (List.append_nil _).symm⟩, hwarning⟩

theorem Onward.asked (h : Onward s t) {n : Nat} {input : Coin × Denom}
    (hasked : s.inputs[n]? = some input) : t.inputs[n]? = some input := by
  obtain ⟨more, hmore⟩ := h.inputs
  rw [hmore, List.getElem?_append_left (List.getElem?_eq_some_iff.1 hasked).1, hasked]

/-- What was an outcome of a quote is still one, as `Fair` depends on the input of the request
only. -/
theorem Onward.fair (h : Onward s t) {a : Answer} (ha : s.Fair a) : t.Fair a := by
  obtain ⟨offer, ask, hasked, hyields⟩ := ha
  exact ⟨offer, ask, h.asked hasked, h.warning ▸ hyields⟩

/-- A quote under way is still one on the input of its request (`Onward.asked`). -/
theorem Onward.apt (h : Onward s t) {e : Errand} (he : s.Apt e) : t.Apt e := by
  obtain ⟨offer, ask, hasked, hbegin⟩ := he
  exact ⟨offer, ask, h.asked hasked, hbegin⟩

/-- A call that does not drive stands where it is, whatever others do (`Onward.fair`). -/
theorem Stands.onward (h : s.Stands c) (hdrives : c.drives = false) (ht : Onward s t) :
    t.Stands c := by
  cases h with
  | asleep hcaller | busy _ hcaller =>
    rw [Call.drives, hcaller] at hdrives
    cases hdrives
  | returned a hcaller herrand hfair => exact .returned a hcaller herrand (ht.fair hfair)
  | declined hcaller herrand => exact .declined hcaller herrand

/-- While one call drives no other does, as the count is one (`eq_of_countP_le_one`). -/
theorem Sound.not_drives (h : s.Sound) (hc : s.calls[i]? = some c) (hdrives : c.drives = true)
    {j : Nat} {d : Call} (hj : j ≠ i) (hd : s.calls[j]? = some d) : d.drives = false := by
  rw [← Bool.not_eq_true]
  intro hdriver
  refine hj (eq_of_countP_le_one Call.drives ?_ hd hc hdriver hdrives)
  rw [h.role]
  exact Bool.toNat_le _

/-- The driver comes to where it waits or to its end, and holds the role just as the flag says. The
others do not drive, so they stand where they did (`Stands.onward`). -/
theorem Sound.put (h : s.Sound) (hc : s.calls[i]? = some c) (hdrives : c.drives = true)
    {out : Flags × Caller Answer} {errand : Option Errand}
    (hrole : out.2.phase.drives = out.1.running)
    (hheeded : out.1.requested = true → out.1.running = true)
    (hstands : (s.put i c out errand).Stands { c with caller := out.2, errand }) :
    (s.put i c out errand).Sound where
  input := (inputs_put hc out errand).symm ▸ h.input
  stands d hd := by
    obtain ⟨j, hj⟩ := List.mem_iff_getElem?.1 hd
    rw [calls_put hc] at hj
    split at hj
    · cases hj
      exact hstands
    · next hne =>
      exact (h.stands d (List.mem_of_getElem? hj)).onward (h.not_drives hc hdrives hne hj)
        (.of_inputs (inputs_put hc out errand) rfl)
  role := by
    obtain ⟨hlt, rfl⟩ := List.getElem?_eq_some_iff.1 hc
    have hcount := countP_set_add Call.drives hlt { s.calls[i] with caller := out.2, errand }
    have hnew : Call.drives { s.calls[i] with caller := out.2, errand } = out.1.running := hrole
    -- the call was the only one counted
    have hbefore : s.calls.countP Call.drives = 1 := by
      rw [h.role, h.flags_of_drives hc hdrives, Bool.toNat_true]
    rw [hdrives, hnew, hbefore, Bool.toNat_true, Nat.add_comm 1] at hcount
    exact Nat.add_right_cancel hcount
  heeded := hheeded

/-- A turn of the driver keeps the invariant: `Sound.put`, in each of the three ways of `Turn`. -/
theorem Sound.turn (h : s.Sound) (hc : s.calls[i]? = some c) (hdrives : c.drives = true)
    (hturn : Turn s i c event t) : t.Sound ∧ Onward s t := by
  have honward (out : Flags × Caller Answer) (errand : Option Errand) :
      Onward s (s.put i c out errand) := .of_inputs (inputs_put hc out errand) rfl
  cases hturn with
  | sleeps => exact ⟨h.put hc hdrives rfl (fun _ => rfl) (.asleep rfl rfl), honward _ _⟩
  | works p _ hrequested hnewest hapt =>
    refine ⟨h.put hc hdrives rfl (fun _ => rfl) (.busy _ rfl rfl ((honward _ _).apt hapt) ?_ ?_),
      honward _ _⟩
    · rw [length_put]
      exact Nat.le_of_eq hnewest
    · rw [length_put]
      exact iff_of_true rfl hnewest
  | returns a _ _ hnewest hfair =>
    exact ⟨h.put hc hdrives rfl nofun (.returned a rfl rfl ((honward _ _).fair hfair)),
      honward _ _⟩

/-- A call that comes takes the role if it is free, and the count goes up by as much as the flag
does. Whether it drives is what `Debounce.settle_requesting` has decided. -/
theorem Sound.comes (h : s.Sound) (input : Coin × Denom) {flags : Flags} {caller : Caller Answer}
    (hrole : s.flags.running.toNat + caller.phase.drives.toNat = flags.running.toNat)
    (hheeded : flags.requested = true → flags.running = true)
    (hnew : (s.comes input flags caller).Stands ⟨input, caller, none⟩)
    (hold : ∀ c ∈ s.calls, c.drives = true → (s.comes input flags caller).Stands c) :
    (s.comes input flags caller).Sound where
  input := by
    rw [inputs_comes, List.getLast?_concat]
    rfl
  stands c hc := by
    -- the calls that were there and the one that comes
    rcases List.mem_append.1 hc with hc | hc
    · cases hdrives : c.drives with
      | true => exact hold c hc hdrives
      | false =>
        exact (h.stands c hc).onward hdrives ⟨⟨[input], inputs_comes s input flags caller⟩, rfl⟩
    · rw [List.mem_singleton.1 hc]
      exact hnew
  role := by
    have hlast : [(⟨input, caller, none⟩ : Call)].countP Call.drives =
        caller.phase.drives.toNat := by
      rw [List.countP_singleton]
      show (if caller.phase.drives then 1 else 0) = _
      cases caller.phase.drives <;> rfl
    show List.countP Call.drives (s.calls ++ [⟨input, caller, none⟩]) = flags.running.toNat
    rw [List.countP_append, h.role, hlast, hrole]
  heeded := hheeded

/-- Whatever a step does keeps the invariant. By the cases of `Move`; a request that is declined
leaves the driver where it is, but overtakes what it is at. -/
theorem Sound.move (h : s.Sound) (hmove : Move s event t) : t.Sound ∧ Onward s t := by
  cases hmove with
  | idle => exact ⟨h, .refl s⟩
  | refresh market =>
    refine ⟨⟨h.input, fun c hc => ?_, h.role, h.heeded⟩, .of_inputs rfl rfl⟩
    -- what was begun was begun on the market as it was then
    cases h.stands c hc with
    | asleep hcaller herrand => exact .asleep hcaller herrand
    | busy e hcaller herrand hapt hle hnewest => exact .busy e hcaller herrand hapt hle hnewest
    | returned a hcaller herrand hfair => exact .returned a hcaller herrand hfair
    | declined hcaller herrand => exact .declined hcaller herrand
  | drives i c _ hc hdrives hturn => exact h.turn hc hdrives hturn
  | declines input hrunning =>
    refine ⟨h.comes input ?_ (fun _ => rfl) (.declined rfl rfl) fun c hc hdrives => ?_,
      ⟨[input], inputs_comes s input _ _⟩, rfl⟩
    · rw [hrunning]
      rfl
    · cases h.stands c hc with
      | asleep hcaller herrand => exact .asleep hcaller herrand
      | busy e hcaller herrand hapt hle =>
        have hmore : (s.comes input ⟨true, true⟩ ⟨.declined, none, none⟩).calls.length =
            s.calls.length + 1 := List.length_append
        refine .busy e hcaller herrand
          (Onward.apt ⟨⟨[input], inputs_comes s input _ _⟩, rfl⟩ hapt) (by omega) ?_
        -- what the driver is at has been overtaken
        exact iff_of_false nofun (by omega)
      | returned _ hcaller | declined hcaller =>
        rw [Call.drives, hcaller] at hdrives
        cases hdrives
  | claims input hfree =>
    refine ⟨h.comes input ?_ (absurd · Bool.false_ne_true) (.asleep rfl rfl) fun c hc hdrives => ?_,
      ⟨[input], inputs_comes s input _ _⟩, rfl⟩
    · rw [hfree]
      rfl
    · obtain ⟨i, hi⟩ := List.mem_iff_getElem?.1 hc
      rw [h.flags_of_drives hi hdrives] at hfree
      cases hfree

/-! ## Runs -/

/-- Each step keeps it, as it is a move (`Sound.move_step`). -/
theorem Sound.step (h : s.Sound) (e : Event) : (s.step e).Sound := (h.move (h.move_step e)).1

/-- So does a run. By induction on the events, with `Sound.step`. -/
theorem Sound.run (h : s.Sound) (events : List Event) : (s.run events).Sound := by
  induction events generalizing s with
  | nil => exact h
  | cons e rest ih => exact ih (h.step e)

end Quoter

end PoolMarket
