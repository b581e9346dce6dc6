import PoolMarket.Proofs.Quote.Callers
import PoolMarket.Quote.Basic

/-!
# Requests for quotes, turn by turn

Requests for quotes share one debounced job, which quotes the newest input. Callers act one at a
time, each going on to where it waits next: for its sleep to end, or for the router to reply to its
quote. Between two such steps anything may happen: more requests, refreshes of the market, replies.

* `Quoter.run` is what becomes of the calls when such events happen one after the other.
* `Quoter.Sound` is the invariant of a run. It says of each call where it stands: asleep, at a run of
  the job, or done. A run of the job that no request has overtaken is one on the newest input.
* `Quoter.Move` is everything that a step can do to the calls, and `Quoter.Sound.move_step` says that
  no step does anything else. What follows about steps is by cases on the move, so `Debounce.settle`
  is opened here and nowhere behind.
-/

namespace PoolMarket

open Debounce (Caller Flags settle)

/-- What a quote comes to: something at once, where it fails or there is no route before the router
is asked, else something by the reply of the router. -/
inductive Quote.Yields (m : Market) (warning : BasisPoints) (offer : Coin) (ask : Denom) :
    Option (Outcome Json) → Outcome (Option Quote) → Prop where
  | failed {fault : Fault} (h : begin m offer ask = .error fault) :
      Yields m warning offer ask none (.error fault)
  | unreachable (h : begin m offer ask = .ok none) : Yields m warning offer ask none (.ok none)
  | replied {p : Pending} (reply : Outcome Json) (h : begin m offer ask = .ok (some p)) :
      Yields m warning offer ask (some reply) ((p.finish warning reply).map some)

namespace Quoter

/-- A run of the job that waits for the router, with the request that was the last when it began,
and the market as it was then. Both are remembered for the statement and not used by any step. -/
structure Errand where
  request : Nat
  market : Market
  pending : Quote.Pending

/-- What a run of the job brought. -/
structure Answer where
  request : Nat
  market : Market
  /-- The reply of the router, if it was asked. -/
  reply : Option (Outcome Json)
  outcome : Outcome (Option Quote)

/-- A request: its input, where its caller is, and the run that its caller waits for. -/
structure Call where
  input : Coin × Denom
  caller : Caller Answer
  errand : Option Errand

/-- Whether a call is the driver. -/
def Call.drives (c : Call) : Bool := c.caller.phase.drives

end Quoter

open Quoter (Answer Call Errand)

/-- Requests for quotes on a market, in the order in which they were made. -/
structure Quoter where
  market : Market
  warning : BasisPoints
  flags : Flags
  /-- The newest input. -/
  input : Option (Coin × Denom)
  calls : List Call

namespace Quoter

/-- No request has been made. -/
def new (market : Market) (warning : BasisPoints) : Quoter :=
  { market, warning, flags := .idle, input := none, calls := [] }

/-- The inputs of all requests that were made. -/
def inputs (s : Quoter) : List (Coin × Denom) := s.calls.map Call.input

/-- The request that was made last. -/
def newest (s : Quoter) : Nat := s.calls.length - 1

/-- The job begins, on the newest input. -/
def beginNewest (s : Quoter) : Outcome (Option Quote.Pending) :=
  match s.input with
  | none => .ok none
  | some (offer, ask) => Quote.begin s.market offer ask

/-- A call comes to where it waits, or to its end. -/
def put (s : Quoter) (i : Nat) (c : Call) (out : Flags × Caller Answer) (errand : Option Errand) :
    Quoter :=
  { s with flags := out.1, calls := s.calls.set i { c with caller := out.2, errand } }

/-- The job of a call ends. -/
def finish (s : Quoter) (i : Nat) (c : Call) (answer : Answer) : Quoter :=
  s.put i c (settle s.flags (c.caller.complete answer)) none

/-- Lets a call go on. A run of the job that does not ask the router is over in the same step. -/
def resume (s : Quoter) (i : Nat) (c : Call) : Quoter :=
  let (flags, caller) := settle s.flags c.caller
  if caller.phase = .job then
    match s.beginNewest with
    | .ok (some pending) => s.put i c (flags, caller) (some ⟨s.newest, s.market, pending⟩)
    | .ok none =>
      { s with flags }.finish i { c with caller } ⟨s.newest, s.market, none, .ok none⟩
    | .error fault =>
      { s with flags }.finish i { c with caller } ⟨s.newest, s.market, none, .error fault⟩
  else s.put i c (flags, caller) none

/-- A request records its input before it raises the flag. -/
def request (s : Quoter) (input : Coin × Denom) : Quoter :=
  let c : Call := ⟨input, .requesting, none⟩
  { s with input := some input, calls := s.calls ++ [c] }.resume s.calls.length c

/-- The sleep of a call ends. -/
def wake (s : Quoter) (i : Nat) : Quoter :=
  match s.calls[i]? with
  | some c => if c.caller.phase = .sleep then s.resume i { c with caller := c.caller.wake } else s
  | none => s

/-- The router replies to a call. -/
def reply (s : Quoter) (i : Nat) (reply : Outcome Json) : Quoter :=
  match s.calls[i]? with
  | some c =>
    match c.errand with
    | some e =>
      s.finish i c ⟨e.request, e.market, some reply, (e.pending.finish s.warning reply).map some⟩
    | none => s
  | none => s

/-- What happens to the requests from outside: one is made, a sleep ends, the router replies to one,
or a refresh leaves another market. -/
inductive Event where
  | request (offer : Coin) (ask : Denom)
  | wake (call : Nat)
  | reply (call : Nat) (reply : Outcome Json)
  /-- The market becomes another one. -/
  | refresh (market : Market)

/-- Whether another request is made. -/
def Event.isRequest : Event → Bool
  | .request .. => true
  | _ => false

/-- Lets happen what an event says. A call that does not wait for it is left where it is. -/
def step (s : Quoter) : Event → Quoter
  | .request offer ask => s.request (offer, ask)
  | .wake i => s.wake i
  | .reply i r => s.reply i r
  | .refresh market => { s with market }

def run (s : Quoter) (events : List Event) : Quoter := events.foldl step s

/-! ## Where the calls stand

Between two steps a call stands in one of four ways (`Stands`). An outcome is `Fair` for the
request that it is of, and a run under way is `Apt`, so that its outcome will be. -/

/-- The outcome is that of a quote on the input of the request. -/
def Fair (s : Quoter) (a : Answer) : Prop :=
  ∃ offer ask, s.inputs[a.request]? = some (offer, ask) ∧
    Quote.Yields a.market s.warning offer ask a.reply a.outcome

/-- The quote under way is one on the input of the request. -/
def Apt (s : Quoter) (e : Errand) : Prop :=
  ∃ offer ask, s.inputs[e.request]? = some (offer, ask) ∧
    Quote.begin e.market offer ask = .ok (some e.pending)

/-- The call is the driver. -/
def Drives (s : Quoter) (i : Nat) : Prop := ∃ c, s.calls[i]? = some c ∧ c.drives = true

/-- The call has returned what a run on the input of the request, or of a newer one, came to. -/
def Served (s : Quoter) (i request : Nat) : Prop :=
  ∃ c a, s.calls[i]? = some c ∧ c.caller = ⟨.returned, none, some a⟩ ∧ request ≤ a.request ∧
    s.Fair a

/-- Where a call stands between two steps. -/
inductive Stands (s : Quoter) (c : Call) : Prop where
  | asleep (hcaller : c.caller = ⟨.sleep, none, none⟩) (herrand : c.errand = none)
  /-- A run of the job has been overtaken just if a request was made since it began. -/
  | busy (e : Errand) (hcaller : c.caller = ⟨.job, none, none⟩) (herrand : c.errand = some e)
      (hapt : s.Apt e) (hle : e.request + 1 ≤ s.calls.length)
      (hnewest : s.flags.requested = false ↔ e.request + 1 = s.calls.length)
  | returned (a : Answer) (hcaller : c.caller = ⟨.returned, none, some a⟩)
      (herrand : c.errand = none) (hfair : s.Fair a)
  | declined (hcaller : c.caller = ⟨.declined, none, none⟩) (herrand : c.errand = none)

/-- The invariant of a run. The last two fields are the invariant of the shared flags; here no step
ends between a request and the claim of the role, so whoever raises one finds a driver or is it. -/
structure Sound (s : Quoter) : Prop where
  input : s.input = s.inputs.getLast?
  stands : ∀ c ∈ s.calls, s.Stands c
  role : s.calls.countP Call.drives = s.flags.running.toNat
  heeded : s.flags.requested = true → s.flags.running = true

theorem sound_new (market : Market) (warning : BasisPoints) : (new market warning).Sound where
  input := rfl
  stands _ hc := by cases hc
  role := rfl
  heeded h := by cases h

/-! ## What a step does

A step lets one call go on until it waits again. The three ways of a driver are `Turn`, those of a
request are `Move.declines` and `Move.claims`, and `Sound.move_step` puts all events together. -/

/-- The run of the job that an answer comes of, by the event that ends it: the run is over in the
step that begins it, or it is the one that the call has waited for. -/
inductive Ends (s : Quoter) (i : Nat) (c : Call) : Event → Answer → Prop where
  | atOnce (outcome : Outcome (Option Quote)) :
      Ends s i c (.wake i) ⟨s.newest, s.market, none, outcome⟩
  | replied (e : Errand) (reply : Outcome Json) (outcome : Outcome (Option Quote))
      (herrand : c.errand = some e) :
      Ends s i c (.reply i reply) ⟨e.request, e.market, some reply, outcome⟩

/-- What becomes of a driver when it goes on. -/
inductive Turn (s : Quoter) (i : Nat) (c : Call) (event : Event) : Quoter → Prop where
  /-- It finds a request and sleeps again; what it has been at is dropped. -/
  | sleeps (hrequested : s.flags.requested = true) :
      Turn s i c event (s.put i c (⟨false, true⟩, ⟨.sleep, none, none⟩) none)
  /-- After its sleep it begins a run of the job and asks the router. -/
  | works (p : Quote.Pending) (hasleep : c.caller.phase = .sleep)
      (hrequested : s.flags.requested = false) (hnewest : s.newest + 1 = s.calls.length)
      (hapt : s.Apt ⟨s.newest, s.market, p⟩) :
      Turn s i c event
        (s.put i c (⟨false, true⟩, ⟨.job, none, none⟩) (some ⟨s.newest, s.market, p⟩))
  /-- It returns what a run on the newest input brought. -/
  | returns (a : Answer) (hrequested : s.flags.requested = false) (hends : Ends s i c event a)
      (hnewest : a.request + 1 = s.calls.length) (hfair : s.Fair a) :
      Turn s i c event (s.put i c (⟨false, false⟩, ⟨.returned, none, some a⟩) none)

/-- What a request does: a call comes that is declined or drives. -/
def comes (s : Quoter) (input : Coin × Denom) (flags : Flags) (caller : Caller Answer) : Quoter :=
  { s with flags, input := some input, calls := s.calls ++ [⟨input, caller, none⟩] }

/-- What a step does to the calls. -/
inductive Move (s : Quoter) (event : Event) : Quoter → Prop where
  /-- No call waits for the event. -/
  | idle : Move s event s
  | refresh (market : Market) : Move s event { s with market }
  | declines (input : Coin × Denom) (hrunning : s.flags.running = true) :
      Move s event (s.comes input ⟨true, true⟩ ⟨.declined, none, none⟩)
  | claims (input : Coin × Denom) (hfree : s.flags.running = false) :
      Move s event (s.comes input ⟨false, true⟩ ⟨.sleep, none, none⟩)
  | drives (i : Nat) (c : Call) (t : Quoter) (hc : s.calls[i]? = some c) (hdrives : c.drives = true)
      (hturn : Turn s i c event t) : Move s event t

variable {s t : Quoter} {i : Nat} {c : Call} {event : Event}

/-- While a call drives, the flag says so, as the driver is counted (`Sound.role`). -/
theorem Sound.flags_of_drives (h : s.Sound) (hc : s.calls[i]? = some c)
    (hdrives : c.drives = true) : s.flags = ⟨s.flags.requested, true⟩ := by
  have hsome : 0 < s.calls.countP Call.drives :=
    List.countP_pos_iff.2 ⟨c, List.mem_of_getElem? hc, hdrives⟩
  rw [h.role] at hsome
  have hrunning : s.flags.running = true := by
    cases hflag : s.flags.running with
    | true => rfl
    | false =>
      rw [hflag] at hsome
      cases hsome
  calc s.flags = ⟨s.flags.requested, s.flags.running⟩ := rfl
    _ = ⟨s.flags.requested, true⟩ := by rw [hrunning]

/-- While the flag says so, a call drives, by the same count (`Sound.role`). -/
theorem Sound.exists_driver (h : s.Sound) (hrunning : s.flags.running = true) :
    ∃ i, s.Drives i := by
  have hcount := h.role
  rw [hrunning, Bool.toNat_true] at hcount
  have hsome : 0 < s.calls.countP Call.drives := by omega
  obtain ⟨c, hc, hdrives⟩ := List.countP_pos_iff.1 hsome
  obtain ⟨i, hi⟩ := List.mem_iff_getElem?.1 hc
  exact ⟨i, c, hi, hdrives⟩

/-- As long as there are calls, the job begins on the input of the last, since that is the one on
record (`Sound.input`). -/
theorem Sound.begin_newest (h : s.Sound) (hc : s.calls[i]? = some c) :
    s.newest + 1 = s.calls.length ∧ ∃ offer ask, s.inputs[s.newest]? = some (offer, ask) ∧
      s.beginNewest = Quote.begin s.market offer ask := by
  have hlt := (List.getElem?_eq_some_iff.1 hc).1
  -- what is recorded as newest is the input of the last call
  have hlast : s.inputs.getLast? = s.inputs[s.newest]? := by
    rw [List.getLast?_eq_getElem?, inputs, List.length_map]
    rfl
  have hnewest : s.newest < s.inputs.length := by
    rw [inputs, List.length_map, newest]
    omega
  rw [List.getElem?_eq_getElem hnewest] at hlast ⊢
  refine ⟨by rw [newest]; omega, s.inputs[s.newest].1, s.inputs[s.newest].2, rfl, ?_⟩
  rw [beginNewest, h.input, hlast]

/-- A call that sleeps goes on when its sleep ends (`Debounce.settle_slept`): it sleeps again,
works, or returns what a run came to that had nothing to ask. -/
theorem Sound.turn_wake (h : s.Sound) (hc : s.calls[i]? = some c)
    (hcaller : c.caller = ⟨.sleep, none, none⟩) :
    Turn s i c (.wake i) (s.step (.wake i)) := by
  have hflags := h.flags_of_drives hc (by rw [Call.drives, hcaller]; rfl)
  obtain ⟨hlast, offer, ask, hasked, hbegin⟩ := h.begin_newest hc
  have hstep : s.step (.wake i) = s.resume i { c with caller := ⟨.slept, none, none⟩ } := by
    simp only [step, wake, hc, hcaller, if_pos]
    rfl
  rw [hstep, resume]
  simp only
  rw [hflags, Debounce.settle_slept]
  -- a request made during the sleep comes before the job
  cases hrequested : s.flags.requested with
  | true => exact .sleeps hrequested
  | false =>
    cases hnewest : s.beginNewest with
    | ok begun =>
      cases begun with
      | some p =>
        exact .works p (by rw [hcaller]) hrequested hlast
          ⟨offer, ask, hasked, hbegin.symm.trans hnewest⟩
      | none =>
        exact .returns ⟨s.newest, s.market, none, .ok none⟩ hrequested (.atOnce _) hlast
          ⟨offer, ask, hasked, .unreachable (hbegin.symm.trans hnewest)⟩
    | error fault =>
      exact .returns ⟨s.newest, s.market, none, .error fault⟩ hrequested (.atOnce _) hlast
        ⟨offer, ask, hasked, .failed (hbegin.symm.trans hnewest)⟩

/-- A call at a run of the job goes on when the router replies (`Debounce.settle_worked`): it
returns, or sleeps again if a request has overtaken the run. -/
theorem Sound.turn_reply (h : s.Sound) (hc : s.calls[i]? = some c) {e : Errand}
    (hcaller : c.caller = ⟨.job, none, none⟩) (herrand : c.errand = some e) (hapt : s.Apt e)
    (hnewest : s.flags.requested = false ↔ e.request + 1 = s.calls.length)
    (reply : Outcome Json) : Turn s i c (.reply i reply) (s.step (.reply i reply)) := by
  have hflags := h.flags_of_drives hc (by rw [Call.drives, hcaller]; rfl)
  have hstep : s.step (.reply i reply) =
      s.put i c (settle s.flags ⟨.worked, some ⟨e.request, e.market, some reply,
        (e.pending.finish s.warning reply).map some⟩, none⟩) none := by
    simp only [step, Quoter.reply, hc, herrand, finish, hcaller]
    rfl
  rw [hstep, hflags, Debounce.settle_worked]
  -- a request made during the run overtakes it
  cases hrequested : s.flags.requested with
  | true => exact .sleeps hrequested
  | false =>
    obtain ⟨offer, ask, hasked, hbegin⟩ := hapt
    exact .returns _ hrequested (.replied e reply _ herrand) (hnewest.1 hrequested)
      ⟨offer, ask, hasked, .replied reply hbegin⟩

/-- A request is declined, or its caller becomes the driver (`Debounce.settle_requesting`). -/
theorem move_request (s : Quoter) (offer : Coin) (ask : Denom) :
    Move s (.request offer ask) (s.step (.request offer ask)) := by
  have hset (c d : Call) : (s.calls ++ [c]).set s.calls.length d = s.calls ++ [d] := by
    rw [List.set_append_right _ _ (Nat.le_refl _), Nat.sub_self]
    rfl
  rw [step, request, resume]
  simp only
  rw [Debounce.settle_requesting]
  cases hrunning : s.flags.running with
  | true =>
    rw [if_pos rfl, if_neg (by decide), put, hset]
    exact .declines (offer, ask) hrunning
  | false =>
    rw [if_neg (by decide), if_neg (by decide), put, hset]
    exact .claims (offer, ask) hrunning

/-- The end of a sleep moves the call that sleeps (`turn_wake`), and no other. -/
theorem Sound.move_wake (h : s.Sound) (i : Nat) : Move s (.wake i) (s.step (.wake i)) := by
  cases hc : s.calls[i]? with
  | none =>
    rw [step, wake, hc]
    exact .idle
  | some c =>
    cases h.stands c (List.mem_of_getElem? hc) with
    | asleep hcaller herrand =>
      exact .drives i c _ hc (by rw [Call.drives, hcaller]; rfl) (h.turn_wake hc hcaller)
    | busy _ hcaller | returned _ hcaller | declined hcaller =>
      -- only a sleep can end
      simp only [step, wake, hc, hcaller]
      exact .idle

/-- A reply moves the call that waits for it (`turn_reply`), and no other. -/
theorem Sound.move_reply (h : s.Sound) (i : Nat) (reply : Outcome Json) :
    Move s (.reply i reply) (s.step (.reply i reply)) := by
  cases hc : s.calls[i]? with
  | none =>
    rw [step, Quoter.reply, hc]
    exact .idle
  | some c =>
    cases h.stands c (List.mem_of_getElem? hc) with
    | busy e hcaller herrand hapt hle hnewest =>
      exact .drives i c _ hc (by rw [Call.drives, hcaller]; rfl)
        (h.turn_reply hc hcaller herrand hapt hnewest reply)
    | asleep _ herrand | returned _ _ herrand | declined _ herrand =>
      -- no reply is waited for
      simp only [step, Quoter.reply, hc, herrand]
      exact .idle

/-- Whatever happens next is a move: a request, the end of a sleep, a reply, or another market. Each
is one lemma: `move_request`, `move_wake`, `move_reply`. -/
theorem Sound.move_step (h : s.Sound) (e : Event) : Move s e (s.step e) := by
  cases e with
  | request offer ask => exact move_request s offer ask
  | wake i => exact h.move_wake i
  | reply i reply => exact h.move_reply i reply
  | refresh market => exact .refresh market

end Quoter

end PoolMarket
