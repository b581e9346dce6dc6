import PoolMarket.Proofs.Quote.Standing

/-!
# Quotes for the newest input

A driver drives on until it returns, and what it returns is a quote on the input that was the newest
when it began; had a request come since, it would have slept again. So what a driver returns is
never out of date, and whoever was declined is owed a result by the driver that declined it.

* `Served`, `Sound.drives_or_served` — a driver drives on or has served all requests made by then.
* `turnsLeft`, `Turn.nearer` — how far it is from its return once requests stop.
* `Owes` — both together, of the driver at the moment a request is declined.
* `ServesNewest` — what callers get when an event comes next, after any run.
-/

namespace PoolMarket

namespace Quoter

variable {s t : Quoter} {i : Nat} {c : Call} {event : Event}

/-! ## A call is served

A step is a `Move`, and a move changes the call that it is a turn of and no other. So a call that
has returned stays so (`Sound.served_step`), and a driver is looked at in its own turns only. -/

/-- A turn of one call leaves the others as they are (`calls_put`). -/
theorem Turn.calls_ne (hturn : Turn s i c event t) (hc : s.calls[i]? = some c) {j : Nat}
    (hj : j ≠ i) : t.calls[j]? = s.calls[j]? := by
  cases hturn <;> rw [calls_put hc, if_neg hj]

/-- The only call that is another after a turn is the one that took it (`Turn.calls_ne`). -/
theorem Turn.eq_of_calls {j : Nat} (hturn : Turn s j c event t) (hc : s.calls[j]? = some c)
    {d : Call} (hnew : s.calls[i]? ≠ some d) (hd : t.calls[i]? = some d) : i = j := by
  refine Decidable.byContradiction fun hne => hnew ?_
  rw [← hturn.calls_ne hc hne, hd]

/-- A call that does not drive stays as it is: no turn is its own (`Turn.calls_ne`,
`calls_comes_old`). -/
theorem Move.keeps (hmove : Move s event t) (hc : s.calls[i]? = some c) (hover : c.drives = false) :
    t.calls[i]? = some c := by
  cases hmove with
  | idle | refresh => exact hc
  | declines | claims => exact calls_comes_old hc _ _ _
  | drives j d _ hd hdrives hturn =>
    have hne : i ≠ j := by
      rintro rfl
      rw [hd, Option.some.injEq] at hc
      rw [hc, hover] at hdrives
      cases hdrives
    rw [hturn.calls_ne hd hne, hc]

/-- A turn of the driver leaves it the driver, or it returns a result for the newest request, which
is no older than any that was made. By the cases of `Turn`. -/
theorem Turn.drives_or_served (hc : s.calls[i]? = some c) (hturn : Turn s i c event t)
    {request : Nat} (hmade : request < s.calls.length) : t.Drives i ∨ t.Served i request := by
  cases hturn with
  | sleeps | works => exact Or.inl ⟨_, calls_put_self hc _ _, rfl⟩
  | returns a _ _ hnewest hfair =>
    exact Or.inr ⟨_, a, calls_put_self hc _ _, rfl, by omega,
      Onward.fair (.of_inputs (inputs_put hc _ _) rfl) hfair⟩

/-- A driver drives on until it returns a result for whatever has been requested by then. A move is
a turn of its own (`Turn.drives_or_served`), or it brings a call, or another market. -/
theorem Sound.drives_or_served (h : s.Sound) (hmove : Move s event t) (hdriver : s.Drives i)
    {request : Nat} (hmade : request < s.calls.length) : t.Drives i ∨ t.Served i request := by
  obtain ⟨c, hc, hdrives⟩ := hdriver
  cases hmove with
  | idle | refresh => exact Or.inl ⟨c, hc, hdrives⟩
  | declines | claims => exact Or.inl ⟨c, calls_comes_old hc _ _ _, hdrives⟩
  | drives j d _ hd hddrives hturn =>
    obtain rfl : i = j := by
      refine Decidable.byContradiction fun hne => ?_
      rw [h.not_drives hd hddrives hne hc] at hdrives
      cases hdrives
    exact hturn.drives_or_served hd hmade

/-- A call that has been served stays so (`Move.keeps`). -/
theorem Sound.served_step (h : s.Sound) {request : Nat} (hserved : s.Served i request) (e : Event) :
    (s.step e).Served i request := by
  obtain ⟨c, a, hc, hcaller, hle, hfair⟩ := hserved
  have hover : c.drives = false := by rw [Call.drives, hcaller]; rfl
  exact ⟨c, a, (h.move_step e).keeps hc hover, hcaller, hle, (h.move (h.move_step e)).2.fair hfair⟩

/-- It does over a run. By induction on the events, with `served_step`. -/
theorem Sound.served_run (h : s.Sound) {request : Nat} (hserved : s.Served i request)
    (events : List Event) : (s.run events).Served i request := by
  induction events generalizing s with
  | nil => exact hserved
  | cons e rest ih => exact ih (h.step e) (h.served_step hserved e)

theorem Onward.length_le (h : Onward s t) : s.calls.length ≤ t.calls.length := by
  obtain ⟨more, hmore⟩ := h.inputs
  have hlength := congrArg List.length hmore
  rw [List.length_append, Quoter.inputs, Quoter.inputs, List.length_map, List.length_map] at hlength
  omega

/-- What was asked stays asked over a run. By induction on the events (`Onward.trans`). -/
theorem Sound.onward_run (h : s.Sound) (events : List Event) : Onward s (s.run events) := by
  induction events generalizing s with
  | nil => exact .refl s
  | cons e rest ih => exact (h.move (h.move_step e)).2.trans (ih (h.step e))

/-- Over a run, a driver drives on or has returned a result. By induction on the events, with
`drives_or_served`; what has been served stays so (`served_run`). -/
theorem Sound.run_drives_or_served (h : s.Sound) (hdriver : s.Drives i) {request : Nat}
    (hmade : request < s.calls.length) (events : List Event) :
    (s.run events).Drives i ∨ (s.run events).Served i request := by
  induction events generalizing s with
  | nil => exact Or.inl hdriver
  | cons e rest ih =>
    have hmove := h.move_step e
    rcases h.drives_or_served hmove hdriver hmade with hon | hserved
    · exact ih (h.step e) hon (Nat.lt_of_lt_of_le hmade (h.move hmove).2.length_le)
    · exact Or.inr ((h.step e).served_run hserved rest)

/-! ## A driver returns once requests stop

The measure is `turnsLeft`: a request that is raised costs another sleep and another run, and a
sleep is followed by a run. Without requests every turn of the driver lowers it (`Turn.nearer`). -/

/-- Whatever a driver waits for may happen next, and no request has to come for it: the end of its
sleep, or a reply (`turn_wake`, `turn_reply`). -/
theorem Sound.turn_driver (h : s.Sound) (hc : s.calls[i]? = some c) (hdrives : c.drives = true) :
    ∃ e : Event, e.isRequest = false ∧ Turn s i c e (s.step e) := by
  cases h.stands c (List.mem_of_getElem? hc) with
  | asleep hcaller => exact ⟨.wake i, rfl, h.turn_wake hc hcaller⟩
  | busy e hcaller herrand hapt _ hnewest =>
    exact ⟨.reply i (.ok .null), rfl, h.turn_reply hc hcaller herrand hapt hnewest _⟩
  | returned _ hcaller | declined hcaller =>
    rw [Call.drives, hcaller] at hdrives
    cases hdrives

/-- How many turns a driver is from its last one, if no request comes. -/
def turnsLeft (s : Quoter) (c : Call) : Nat :=
  2 * s.flags.requested.toNat + if c.caller.phase = .sleep then 1 else 0

/-- A turn brings the driver nearer to its return, or it returns. By the cases of `Turn`. -/
theorem Turn.nearer (hc : s.calls[i]? = some c) (hturn : Turn s i c event t) {request : Nat}
    (hmade : request < s.calls.length) :
    t.Served i request ∨
      ∃ d, t.calls[i]? = some d ∧ d.drives = true ∧ t.turnsLeft d < s.turnsLeft c := by
  have hserved := hturn.drives_or_served hc hmade
  -- asleep, then at work, then done: each turn has fewer ahead of it than the one before
  cases hturn with
  | sleeps hrequested =>
    refine Or.inr ⟨_, calls_put_self hc _ _, rfl, ?_⟩
    rw [turnsLeft, turnsLeft, hrequested]
    show 1 < 2 + _
    omega
  | works p hasleep =>
    refine Or.inr ⟨_, calls_put_self hc _ _, rfl, ?_⟩
    rw [turnsLeft, turnsLeft, if_pos hasleep]
    show 0 < _ + 1
    omega
  | returns a =>
    refine Or.inl (hserved.resolve_left ?_)
    rintro ⟨d, hd, hdrives⟩
    rw [calls_put_self hc, Option.some.injEq] at hd
    rw [← hd] at hdrives
    cases hdrives

/-- A driver can come to its return without another request. By induction on the turns that are
left: what the driver waits for happens next, each time (`turn_driver`). -/
theorem Sound.run_served (h : s.Sound) (hdriver : s.Drives i) {request : Nat}
    (hmade : request < s.calls.length) :
    ∃ events : List Event, (∀ e ∈ events, e.isRequest = false) ∧
      (s.run events).Served i request := by
  obtain ⟨c, hc, hdrives⟩ := hdriver
  -- the induction is on the turns that are left: what the driver waits for happens next, each time
  induction hturns : s.turnsLeft c using Nat.strongRecOn generalizing s c with
  | _ n ih =>
    obtain ⟨e, hquiet, hturn⟩ := h.turn_driver hc hdrives
    rcases hturn.nearer hc hmade with hserved | ⟨d, hd, hdrives', hless⟩
    · exact ⟨[e], by simpa using hquiet, hserved⟩
    · have hmade' := Nat.lt_of_lt_of_le hmade (h.turn hc hdrives hturn).2.length_le
      obtain ⟨rest, hrest, hserved⟩ := ih _ (hturns ▸ hless) (h.step e) hmade' d hd hdrives' rfl
      exact ⟨e :: rest, List.forall_mem_cons.2 ⟨hquiet, hrest⟩, hserved⟩

/-! ## What callers get

Each field of `ServesNewest` is one lemma about a sound state and the move that comes next. -/

/-- The call will return a result for the request, or for a newer one: it drives until it has, and
has once requests stop for long enough. -/
structure Owes (s : Quoter) (i request : Nat) : Prop where
  drives : s.Drives i
  keeps : ∀ events, (s.run events).Drives i ∨ (s.run events).Served i request
  ends : ∀ events, (s.run events).Drives i → ∃ rest : List Event,
    (∀ e ∈ rest, e.isRequest = false) ∧ ((s.run events).run rest).Served i request

/-- What callers get when an event comes next. -/
structure ServesNewest (s : Quoter) (e : Event) : Prop where
  /-- A driver that returns does so with what a quote on the newest input came to, in a run that the
  event ends and that began after the last request. -/
  newest : ∀ (i : Nat) (d : Call), s.calls[i]? ≠ some d → (s.step e).calls[i]? = some d →
    d.caller.phase = .returned → ∃ c a offer ask,
      s.calls[i]? = some c ∧ Ends s i c e a ∧ d.caller.latest = some a ∧
      a.request + 1 = (s.step e).calls.length ∧
      (s.step e).inputs.getLast? = some (offer, ask) ∧
      Quote.Yields a.market s.warning offer ask a.reply a.outcome
  /-- What a newer request has overtaken is dropped: the driver sleeps again. -/
  overtaken : ∀ (i : Nat) (c : Call) (errand : Errand) (reply : Outcome Json),
    s.calls[i]? = some c → c.errand = some errand → errand.request + 1 < s.calls.length →
    e = .reply i reply → (s.step e).calls[i]? = some ⟨c.input, ⟨.sleep, none, none⟩, none⟩
  /-- A caller that does not drive gets nothing, when another owes it a result. -/
  declined : ∀ (i : Nat) (d : Call), s.calls[i]? ≠ some d → (s.step e).calls[i]? = some d →
    d.caller.phase = .declined → d.caller.latest = none ∧ ∃ j ≠ i, (s.step e).Owes j i
  /-- A call drives, or has returned as a driver, or was declined. -/
  all : ∀ c ∈ (s.step e).calls,
    c.drives = true ∨ c.caller.phase = .returned ∨ c.caller.phase = .declined

/-- A driver owes a result for every request made by then: `run_drives_or_served` says that it keeps
to it, and `run_served` that it gets there. -/
theorem Sound.owes (h : s.Sound) (hdriver : s.Drives i) {request : Nat}
    (hmade : request < s.calls.length) : s.Owes i request where
  drives := hdriver
  keeps := h.run_drives_or_served hdriver hmade
  ends events hon :=
    (h.run events).run_served hon (Nat.lt_of_lt_of_le hmade (h.onward_run events).length_le)

/-- A call that has just returned was the driver, at a run on the newest input. By the cases of
`Move`; only a turn of its own can have changed it (`Turn.eq_of_calls`). -/
theorem Move.returned (hmove : Move s event t) {d : Call} (hnew : s.calls[i]? ≠ some d)
    (hd : t.calls[i]? = some d) (hreturned : d.caller.phase = .returned) :
    ∃ c a, s.calls[i]? = some c ∧ Ends s i c event a ∧ d.caller.latest = some a ∧
      a.request + 1 = s.calls.length ∧ s.Fair a ∧ t.calls.length = s.calls.length ∧
      t.inputs = s.inputs := by
  -- only a driver that ends can have returned something new
  cases hmove with
  | idle | refresh => exact absurd hd hnew
  | declines | claims =>
    obtain ⟨-, rfl⟩ := eq_of_calls_comes hnew hd
    cases hreturned
  | drives j c _ hc _ hturn =>
    obtain rfl := hturn.eq_of_calls hc hnew hd
    cases hturn with
    | sleeps | works =>
      rw [calls_put_self hc] at hd
      cases hd
      cases hreturned
    | returns a _ hends hnewest hfair =>
      rw [calls_put_self hc] at hd
      cases hd
      exact ⟨c, a, hc, hends, rfl, hnewest, hfair, length_put .., inputs_put hc _ _⟩

/-- What a call has just returned is a quote on the newest input, as `Move.returned` says of the run
and `Fair` of its outcome. -/
theorem Sound.newest (h : s.Sound) (e : Event) {d : Call} (hnew : s.calls[i]? ≠ some d)
    (hd : (s.step e).calls[i]? = some d) (hreturned : d.caller.phase = .returned) :
    ∃ c a offer ask, s.calls[i]? = some c ∧ Ends s i c e a ∧ d.caller.latest = some a ∧
      a.request + 1 = (s.step e).calls.length ∧
      (s.step e).inputs.getLast? = some (offer, ask) ∧
      Quote.Yields a.market s.warning offer ask a.reply a.outcome := by
  obtain ⟨c, a, hc, hends, hlatest, hnewest, ⟨offer, ask, hasked, hyields⟩, hlength, hinputs⟩ :=
    (h.move_step e).returned hnew hd hreturned
  refine ⟨c, a, offer, ask, hc, hends, hlatest, hnewest.trans hlength.symm, ?_, hyields⟩
  have hlast : s.inputs.length - 1 = a.request := by
    rw [inputs, List.length_map]
    omega
  rw [hinputs, List.getLast?_eq_getElem?, hlast, hasked]

/-- The reply to a run that has been overtaken puts its call to sleep. It has been overtaken just if
a request is raised (`Stands.busy`), and then the turn is `Turn.sleeps`. -/
theorem Sound.overtaken (h : s.Sound) {errand : Errand} (hc : s.calls[i]? = some c)
    (herrand : c.errand = some errand) (hlt : errand.request + 1 < s.calls.length)
    (reply : Outcome Json) :
    (s.step (.reply i reply)).calls[i]? = some ⟨c.input, ⟨.sleep, none, none⟩, none⟩ := by
  cases h.stands c (List.mem_of_getElem? hc) with
  | busy e hcaller he hapt _ hnewest =>
    obtain rfl : errand = e := Option.some.inj (herrand.symm.trans he)
    have hturn := h.turn_reply hc hcaller he hapt hnewest reply
    generalize s.step (.reply i reply) = t at hturn ⊢
    cases hturn with
    | sleeps => rw [calls_put_self hc]
    | works _ hasleep =>
      rw [hcaller] at hasleep
      cases hasleep
    | returns _ hrequested =>
      -- it would be the newest, as no request is raised
      exact absurd (hnewest.1 hrequested) (Nat.ne_of_lt hlt)
  | asleep _ hnone | returned _ _ hnone | declined _ hnone =>
    rw [herrand] at hnone
    cases hnone

/-- A call that has just been declined is owed a result by another: the role was taken, so there is
a driver (`exists_driver`), and it owes one (`Sound.owes`). -/
theorem Sound.declined (h : s.Sound) (e : Event) {d : Call} (hnew : s.calls[i]? ≠ some d)
    (hd : (s.step e).calls[i]? = some d) (hdeclined : d.caller.phase = .declined) :
    d.caller.latest = none ∧ ∃ j ≠ i, (s.step e).Owes j i := by
  have hsound := h.step e
  have hmove := h.move_step e
  generalize s.step e = t at hsound hmove hd ⊢
  -- only a call that comes while another drives declines
  cases hmove with
  | idle | refresh => exact absurd hd hnew
  | claims =>
    obtain ⟨-, rfl⟩ := eq_of_calls_comes hnew hd
    cases hdeclined
  | declines input hrunning =>
    have hlength := (List.getElem?_eq_some_iff.1 hd).1
    obtain ⟨rfl, rfl⟩ := eq_of_calls_comes hnew hd
    obtain ⟨j, c, hc, hdrives⟩ := h.exists_driver hrunning
    have hne : j ≠ s.calls.length := Nat.ne_of_lt (List.getElem?_eq_some_iff.1 hc).1
    exact ⟨rfl, j, hne, hsound.owes ⟨c, calls_comes_old hc _ _ _, hdrives⟩ hlength⟩
  | drives j c _ hc _ hturn =>
    obtain rfl := hturn.eq_of_calls hc hnew hd
    cases hturn <;>
    · rw [calls_put_self hc] at hd
      cases hd
      cases hdeclined

/-- Each call drives, has returned or was declined, wherever it stands. By the cases of `Stands`. -/
theorem Sound.all (h : s.Sound) (hc : c ∈ s.calls) :
    c.drives = true ∨ c.caller.phase = .returned ∨ c.caller.phase = .declined := by
  cases h.stands c hc with
  | asleep hcaller | busy _ hcaller => exact Or.inl (by rw [Call.drives, hcaller]; rfl)
  | returned _ hcaller => exact Or.inr (Or.inl (by rw [hcaller]))
  | declined hcaller => exact Or.inr (Or.inr (by rw [hcaller]))

/-- However requests, sleeps and replies interleave, callers get quotes for the newest input. The
state is sound after every run (`Sound.run`), and each field is the lemma of its name about a sound
state. -/
theorem run_servesNewest (market : Market) (warning : BasisPoints) (events : List Event)
    (e : Event) : ((new market warning).run events).ServesNewest e := by
  have hsound := (sound_new market warning).run events
  exact {
    newest := fun _ _ => hsound.newest e
    overtaken := fun _ _ _ reply hc herrand hlt he => he ▸ hsound.overtaken hc herrand hlt reply
    declined := fun _ _ => hsound.declined e
    all := fun _ => (hsound.step e).all }

end Quoter

end PoolMarket
