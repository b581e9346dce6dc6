import PoolMarket.Quote.Debounce

/-!
# Callers that share a debounced job

Any number of callers make requests, in any order and at any time, and each step of one of them
touches the flags that they share once. A sleep or a job ends whenever it does. A run is a list of
such events.

The invariant of a run ties the flags to the callers by counting. As many callers drive as the flag
`running` says, which is one or none. While a request is raised there is a caller that has still to
look for it: one that turns away from it does so only because another drives.

* `Phase.drives`, `Phase.heeds` — what a phase commits a caller to.
* `Turn` — what one turn does to the role and to a request. `turn_step` looks at every phase;
  nothing behind it does.
* `Crowd.Sound` — the invariant; `Sound.act` keeps it for any turn of any caller, by the count of
  `countP_set_add`.
-/

namespace PoolMarket

/-! ## Counting in a list -/

section Count

variable {α : Type} (p : α → Bool) {l : List α}

/-- An entry is counted as what it has become, in place of what it was. Said as a sum, so that
nothing is subtracted. -/
theorem countP_set_add {i : Nat} (hi : i < l.length) (a : α) :
    (l.set i a).countP p + (p l[i]).toNat = l.countP p + (p a).toNat := by
  rw [List.countP_set hi]
  -- the old entry is taken off the count, which it was part of if it is marked
  cases hold : p l[i] with
  | false => cases p a <;> simp
  | true =>
    have hin : 0 < l.countP p := List.countP_pos_iff.2 ⟨_, List.getElem_mem hi, hold⟩
    cases p a <;> simp <;> omega

/-- Where one entry at most is counted, there is one place for it. The list is cut between two
places, so each of the two would be counted (`List.countP_append`). -/
theorem eq_of_countP_le_one (hone : l.countP p ≤ 1) {i j : Nat} {a b : α} (ha : l[i]? = some a)
    (hb : l[j]? = some b) (hpa : p a = true) (hpb : p b = true) : i = j := by
  -- two entries, one in front of the other, would be counted twice
  have hfront {i j : Nat} {a b : α} (ha : l[i]? = some a) (hb : l[j]? = some b)
      (hpa : p a = true) (hpb : p b = true) : ¬ i < j := by
    intro hlt
    have hbefore : a ∈ l.take j :=
      List.mem_of_getElem? ((List.getElem?_take_of_lt hlt).trans ha)
    have hbehind : b ∈ l.drop j :=
      List.mem_of_getElem? (i := 0) (by rw [List.getElem?_drop, Nat.add_zero, hb])
    have hcount : l.countP p = (l.take j).countP p + (l.drop j).countP p := by
      rw [← List.countP_append, List.take_append_drop]
    have htake : 0 < (l.take j).countP p := List.countP_pos_iff.2 ⟨a, hbefore, hpa⟩
    have hdrop : 0 < (l.drop j).countP p := List.countP_pos_iff.2 ⟨b, hbehind, hpb⟩
    omega
  have hij := hfront ha hb hpa hpb
  have hji := hfront hb ha hpb hpa
  omega

end Count

namespace Debounce

variable {ρ : Type}

/-! ## What a phase commits a caller to -/

/-- The caller holds the role of the driver: from its claim up to its release. -/
def Phase.drives : Phase → Bool
  | .take | .sleep | .slept | .job | .worked | .release => true
  | _ => false

/-- The caller has still to look whether there is a request: it drives, or it has raised one and is
about to claim the role, or it has given the role up and is not done with checking again. -/
def Phase.heeds : Phase → Bool
  | .claim | .inspect | .reclaim => true
  | p => p.drives

/-- The call is no longer in progress. -/
def Phase.ended : Phase → Bool
  | .returned | .declined => true
  | _ => false

theorem Phase.heeds_of_drives {p : Phase} (h : p.drives = true) : p.heeds = true := by
  cases p <;> simp_all [drives, heeds]

theorem Phase.not_drives_of_ended {p : Phase} (h : p.ended = true) : p.drives = false := by
  cases p <;> simp_all [ended, drives]

theorem Phase.not_heeds_of_ended {p : Phase} (h : p.ended = true) : p.heeds = false := by
  cases p <;> simp_all [ended, drives, heeds]

/-! ## One turn of a caller

A turn is said in terms of what a phase commits to, and by sums, so that counting over all callers
goes on from it. That a sleep or a job ends commits to nothing else (`Turn.of_same`). -/

/-- What becomes of the role of the driver and of a request in one turn of a caller. -/
structure Turn (f : Flags) (c : Caller ρ) (out : Flags × Caller ρ) : Prop where
  /-- What the caller takes of the role or gives up is what the flag gains or loses, if the flag was
  set for a caller that drove. -/
  role : (c.phase.drives = true → f.running = true) →
    out.2.phase.drives.toNat + f.running.toNat = c.phase.drives.toNat + out.1.running.toNat
  /-- The caller looks for the request, or one drives, or the request was there before and the
  caller had not to look for it. -/
  request : out.1.requested = true →
    out.2.phase.heeds = true ∨ out.1.running = true ∨
      (f.requested = true ∧ c.phase.heeds = false)

/-- A step is a turn: every phase, against every state of the flags. By the cases of `Phase`, so
`Debounce.step` is opened here and nowhere behind. -/
theorem turn_step (f : Flags) (c : Caller ρ) : Turn f c (step f c) := by
  obtain ⟨requested, running⟩ := f
  obtain ⟨phase, outcome, latest⟩ := c
  constructor
  -- every phase, against every state of the flags
  case role => cases requested <;> cases running <;> cases phase <;> simp [step, Phase.drives]
  case request =>
    cases requested <;> cases running <;> cases phase <;>
      simp [step, Phase.drives, Phase.heeds]

/-- A turn that leaves the flags alone, and the caller to what it was committed to (`Turn.role` and
`Turn.request` at once). -/
theorem Turn.of_same {f : Flags} {c d : Caller ρ} (hdrives : d.phase.drives = c.phase.drives)
    (hheeds : d.phase.heeds = c.phase.heeds) : Turn f c (f, d) where
  role _ := by rw [hdrives]
  request hrequested := by
    cases hc : c.phase.heeds with
    | true => exact Or.inl (hheeds.trans hc)
    | false => exact Or.inr (Or.inr ⟨hrequested, rfl⟩)

/-- The end of a sleep is one: the driver goes on to drive (`Turn.of_same`). -/
theorem turn_wake (f : Flags) (c : Caller ρ) : Turn f c (f, c.wake) := by
  unfold Caller.wake
  split
  · next hsleep => exact .of_same (by rw [hsleep]; rfl) (by rw [hsleep]; rfl)
  · exact .of_same rfl rfl

/-- So is the end of a job (`Turn.of_same`). -/
theorem turn_complete (f : Flags) (c : Caller ρ) (r : ρ) : Turn f c (f, c.complete r) := by
  unfold Caller.complete
  split
  · next hjob => exact .of_same (by rw [hjob]; rfl) (by rw [hjob]; rfl)
  · exact .of_same rfl rfl

/-! ## Runs -/

/-- The flags and the callers that share them, in the order in which they came. -/
structure Crowd (ρ : Type) where
  flags : Flags
  callers : List (Caller ρ)

namespace Crowd

inductive Event (ρ : Type) where
  /-- A caller comes that makes a request. -/
  | call
  /-- A caller takes its next step. -/
  | step (caller : Nat)
  /-- The sleep of a caller ends. -/
  | wake (caller : Nat)
  /-- The job of a caller ends. -/
  | complete (caller : Nat) (result : ρ)

def new : Crowd ρ := ⟨.idle, []⟩

/-- Lets one of the callers take a turn. -/
def act (s : Crowd ρ) (i : Nat) (turn : Flags → Caller ρ → Flags × Caller ρ) : Crowd ρ :=
  match s.callers[i]? with
  | some c => ⟨(turn s.flags c).1, s.callers.set i (turn s.flags c).2⟩
  | none => s

/-- Lets happen what an event says. An event about a caller that does not exist does nothing. -/
def step (s : Crowd ρ) : Event ρ → Crowd ρ
  | .call => { s with callers := s.callers ++ [.requesting] }
  | .step i => s.act i Debounce.step
  | .wake i => s.act i fun f c => (f, c.wake)
  | .complete i r => s.act i fun f c => (f, c.complete r)

def run (s : Crowd ρ) (events : List (Event ρ)) : Crowd ρ := events.foldl step s

/-- How many callers drive. -/
def drivers (s : Crowd ρ) : Nat := s.callers.countP fun c => c.phase.drives

/-- How many callers have still to look for a request. -/
def heeders (s : Crowd ρ) : Nat := s.callers.countP fun c => c.phase.heeds

/-- The invariant of a run. That `role` is about a number makes two drivers impossible. -/
structure Sound (s : Crowd ρ) : Prop where
  role : s.drivers = s.flags.running.toNat
  heeded : s.flags.requested = true → 0 < s.heeders

/-- Drivers are among those that look for requests (`Phase.heeds_of_drives`). -/
theorem drivers_le_heeders (s : Crowd ρ) : s.drivers ≤ s.heeders :=
  List.countP_mono_left fun _ _ h => Phase.heeds_of_drives h

theorem sound_new : (new : Crowd ρ).Sound := ⟨rfl, nofun⟩

/-- A caller that comes has taken no part yet, so neither count changes. -/
theorem Sound.call {s : Crowd ρ} (h : s.Sound) : (s.step .call).Sound := by
  have hdrivers : (s.step .call).drivers = s.drivers := List.countP_append
  have hheeders : (s.step .call).heeders = s.heeders := List.countP_append
  constructor
  · rw [hdrivers]
    exact h.role
  · rw [hheeders]
    exact h.heeded

/-- A turn of one caller keeps the invariant. The counts change as the caller does
(`countP_set_add`), and the flags as `Turn` says. If nobody were left to look for the request, the
one that turned away did so as another drives, and drivers look for requests. -/
theorem Sound.act {s : Crowd ρ} (h : s.Sound) (i : Nat)
    {turn : Flags → Caller ρ → Flags × Caller ρ}
    (hturn : ∀ f c, Turn f c (turn f c)) : (s.act i turn).Sound := by
  unfold Crowd.act
  cases hi : s.callers[i]? with
  | none => exact h
  | some c =>
    obtain ⟨hlt, rfl⟩ := List.getElem?_eq_some_iff.1 hi
    obtain ⟨hrole, hrequest⟩ := hturn s.flags s.callers[i]
    show Sound ⟨(turn s.flags s.callers[i]).1, s.callers.set i (turn s.flags s.callers[i]).2⟩
    generalize turn s.flags s.callers[i] = out at hrole hrequest
    have hdrivers := countP_set_add (fun c : Caller ρ => c.phase.drives) hlt out.2
    have hheeders := countP_set_add (fun c : Caller ρ => c.phase.heeds) hlt out.2
    -- one that drives is among those that the flag stands for
    have hset : s.callers[i].phase.drives = true → s.flags.running = true := by
      intro hdrives
      have hsome : 0 < s.drivers := List.countP_pos_iff.2 ⟨_, List.getElem_mem hlt, hdrives⟩
      rw [h.role] at hsome
      cases hrunning : s.flags.running with
      | true => rfl
      | false =>
        rw [hrunning] at hsome
        cases hsome
    have hmoved := hrole hset
    have hbefore : s.callers.countP (fun c => c.phase.drives) = s.flags.running.toNat := h.role
    have hafter : drivers ⟨out.1, s.callers.set i out.2⟩ = out.1.running.toNat := by
      show (s.callers.set i out.2).countP (fun c => c.phase.drives) = _
      omega
    refine ⟨hafter, fun hrequested => ?_⟩
    rcases hrequest hrequested with hheeds | hrunning | ⟨hthere, hnot⟩
    · exact List.countP_pos_iff.2 ⟨out.2, List.mem_set hlt _, hheeds⟩
    · -- the one that drives has still to look
      have hle := drivers_le_heeders ⟨out.1, s.callers.set i out.2⟩
      rw [hafter, show out.1.running = true from hrunning] at hle
      exact hle
    · -- it was another that had to look before, and it still has
      have hsome : 0 < s.callers.countP (fun c => c.phase.heeds) := h.heeded hthere
      rw [hnot, Bool.toNat_false] at hheeders
      show 0 < (s.callers.set i out.2).countP (fun c => c.phase.heeds)
      omega

/-- Each event keeps the invariant: `Sound.call`, or `Sound.act` with the turn of the event. -/
theorem Sound.step {s : Crowd ρ} (h : s.Sound) (e : Event ρ) : (s.step e).Sound := by
  cases e with
  | call => exact h.call
  | step i => exact h.act i turn_step
  | wake i => exact h.act i turn_wake
  | complete i r => exact h.act i fun f c => turn_complete f c r

/-- So does a run. By induction on the events, with `Sound.step`. -/
theorem Sound.run {s : Crowd ρ} (h : s.Sound) (events : List (Event ρ)) :
    (s.run events).Sound := by
  induction events generalizing s with
  | nil => exact h
  | cons e rest ih => exact ih (h.step e)

/-! ## Requests are heeded, by one driver at a time -/

/-- What holds between the flags and the callers whenever one looks. -/
structure Orderly (s : Crowd ρ) : Prop where
  /-- No two callers drive, so no two jobs overlap. -/
  single : ∀ (i j : Nat) (c d : Caller ρ), s.callers[i]? = some c → s.callers[j]? = some d →
    c.phase.drives = true → d.phase.drives = true → i = j
  /-- The role is taken just while a caller drives. -/
  running : s.flags.running = true ↔ ∃ c ∈ s.callers, c.phase.drives = true
  /-- While a request is raised some caller has still to look for it. -/
  heeded : s.flags.requested = true → ∃ c ∈ s.callers, c.phase.heeds = true
  /-- When no call is in progress no request is left, and no role is taken. -/
  idle : (∀ c ∈ s.callers, c.phase.ended = true) → s.flags = .idle

/-- The role is taken just while a caller drives, as the count says. -/
theorem Sound.running_iff {s : Crowd ρ} (h : s.Sound) :
    s.flags.running = true ↔ ∃ c ∈ s.callers, c.phase.drives = true := by
  have hcount := h.role
  unfold drivers at hcount
  rw [← List.countP_pos_iff (p := fun c : Caller ρ => c.phase.drives), hcount]
  cases s.flags.running <;> decide

/-- No two callers drive: the count is one at most (`eq_of_countP_le_one`). -/
theorem Sound.single {s : Crowd ρ} (h : s.Sound) {i j : Nat} {c d : Caller ρ}
    (hc : s.callers[i]? = some c) (hd : s.callers[j]? = some d) (hcdrives : c.phase.drives = true)
    (hddrives : d.phase.drives = true) : i = j := by
  refine eq_of_countP_le_one (fun c : Caller ρ => c.phase.drives) ?_ hc hd hcdrives hddrives
  calc s.drivers = s.flags.running.toNat := h.role
    _ ≤ 1 := Bool.toNat_le _

/-- When no call is in progress no request is left, and no role is taken: neither count has anything
to count (`Phase.not_drives_of_ended`, `Phase.not_heeds_of_ended`). -/
theorem Sound.idle {s : Crowd ρ} (h : s.Sound) (hended : ∀ c ∈ s.callers, c.phase.ended = true) :
    s.flags = .idle := by
  have hrunning : s.flags.running = false := by
    rw [← Bool.not_eq_true, h.running_iff]
    rintro ⟨c, hc, hdrives⟩
    rw [Phase.not_drives_of_ended (hended c hc)] at hdrives
    cases hdrives
  have hrequested : s.flags.requested = false := by
    rw [← Bool.not_eq_true]
    intro hrequested
    obtain ⟨c, hc, hheeds⟩ := List.countP_pos_iff.1 (h.heeded hrequested)
    rw [Phase.not_heeds_of_ended (hended c hc)] at hheeds
    cases hheeds
  calc s.flags = ⟨s.flags.requested, s.flags.running⟩ := rfl
    _ = .idle := by rw [hrequested, hrunning]; rfl

/-- However the steps of the callers interleave, and whenever sleeps and jobs end: one caller drives
at most, and no request is lost. Each field is read off the invariant of the run (`Sound.run`). -/
theorem run_orderly (events : List (Event ρ)) : ((new : Crowd ρ).run events).Orderly := by
  have hsound := (sound_new (ρ := ρ)).run events
  exact {
    single := fun _ _ _ _ => hsound.single
    running := hsound.running_iff
    heeded := fun hrequested => List.countP_pos_iff.1 (hsound.heeded hrequested)
    idle := hsound.idle }

/-- The second caller raises its request while the first gives the role up, and claims it before the
first is done with checking again. -/
example : ((new : Crowd Nat).run [.call, .step 0, .step 0, .step 0, .wake 0, .step 0, .complete 0 7,
    .step 0, .step 0, .call, .step 1, .step 0, .step 1, .step 0, .step 0]).callers.map
      (fun c => (c.phase, c.latest)) = [(.returned, some 7), (.take, none)] := rfl

end Crowd

end Debounce

end PoolMarket
