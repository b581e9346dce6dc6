/-!
# Debouncing

Many callers ask for a job to be run on the newest input. The first of them drives: it waits a
while, runs the job, and starts over whenever another request came in between. The others leave at
once. Two flags are all that the callers share, and each step here touches them once.
-/

namespace PoolMarket.Debounce

structure Flags where
  /-- A request has been made that no one has looked at. -/
  requested : Bool
  /-- Some caller drives. -/
  running : Bool
  deriving DecidableEq, Repr

def Flags.idle : Flags := ⟨false, false⟩

/-- Where a caller is. -/
inductive Phase where
  /-- About to raise the request. -/
  | raise
  /-- About to claim the role of the driver. -/
  | claim
  /-- The driver is about to take the request. -/
  | take
  /-- The driver waits for requests to stop. -/
  | sleep
  /-- The wait is over. -/
  | slept
  /-- The job is running. -/
  | job
  /-- The job is over. -/
  | worked
  /-- About to give the role up. -/
  | release
  /-- The role is given up; about to look for a request made just before. -/
  | inspect
  /-- About to claim the role again. -/
  | reclaim
  /-- The driver has returned. -/
  | returned
  /-- Another caller drives. -/
  | declined
  deriving DecidableEq, Repr

/-- A caller: where it is, what its last run of the job brought, and what it will return. -/
structure Caller (ρ : Type) where
  phase : Phase
  outcome : Option ρ
  latest : Option ρ
  deriving Repr

variable {ρ : Type}

/-- A caller that makes a request. -/
def Caller.requesting : Caller ρ := ⟨.raise, none, none⟩

/-- A caller that drives without a request of its own. -/
def Caller.driving : Caller ρ := ⟨.take, none, none⟩

/-- The next step of a caller. -/
def step (f : Flags) (c : Caller ρ) : Flags × Caller ρ :=
  match c.phase with
  | .raise => ({ f with requested := true }, { c with phase := .claim })
  | .claim =>
    -- whoever drives finds the request
    if f.running then (f, { c with phase := .declined })
    else ({ f with running := true }, { c with phase := .take })
  | .take =>
    ({ f with requested := false }, { c with phase := if f.requested then .sleep else .release })
  -- a request that came during the wait starts it again
  | .slept => (f, { c with phase := if f.requested then .take else .job })
  | .worked =>
    -- what a newer request has overtaken is not returned
    (f, { phase := .take, outcome := none, latest := if f.requested then c.latest else c.outcome })
  | .release => ({ f with running := false }, { c with phase := .inspect })
  -- a request raised before the role was free has been declined, so it is picked up here
  | .inspect => (f, { c with phase := if f.requested then .reclaim else .returned })
  | .reclaim =>
    if f.running then (f, { c with phase := .returned })
    else ({ f with running := true }, { c with phase := .take })
  | .sleep | .job | .returned | .declined => (f, c)

/-- The sleep of a driver ends. -/
def Caller.wake (c : Caller ρ) : Caller ρ :=
  if c.phase = .sleep then { c with phase := .slept } else c

/-- The job of a driver ends. -/
def Caller.complete (c : Caller ρ) (r : ρ) : Caller ρ :=
  if c.phase = .job then { c with phase := .worked, outcome := some r } else c

/-- Steps of one caller with no other in between. -/
def steps : Nat → Flags → Caller ρ → Flags × Caller ρ
  | 0, f, c => (f, c)
  | n + 1, f, c =>
    let (f, c) := step f c
    steps n f c

/-- Lets a caller go on until it has nothing to do by itself: it waits for a sleep or a job to
end, or is gone. Left to itself it comes that far within five steps, wherever it goes on from: a
request (`settle_requesting`), the end of a sleep (`settle_slept`) or of a run of the job
(`settle_worked`). -/
def settle (f : Flags) (c : Caller ρ) : Flags × Caller ρ := steps 5 f c

/-- A request is declined while another caller drives, else its caller drives and waits. By the
states of `Flags`. -/
theorem settle_requesting (f : Flags) :
    settle f (.requesting : Caller ρ) =
      if f.running then (⟨true, true⟩, ⟨.declined, none, none⟩)
      else (⟨false, true⟩, ⟨.sleep, none, none⟩) := by
  obtain ⟨requested, running⟩ := f
  cases requested <;> cases running <;> rfl

/-- After its wait a driver waits again if a request came in, else the job begins. In two steps, or
in one. -/
theorem settle_slept (requested : Bool) (outcome latest : Option ρ) :
    settle ⟨requested, true⟩ ⟨.slept, outcome, latest⟩ =
      (⟨false, true⟩, ⟨if requested then .sleep else .job, outcome, latest⟩) := by
  cases requested <;> rfl

/-- After its job a driver waits again if a request came in, else it returns what the job brought.
In two steps, or in the four by which it gives the role up and looks once more. -/
theorem settle_worked (requested : Bool) (outcome latest : Option ρ) :
    settle ⟨requested, true⟩ ⟨.worked, outcome, latest⟩ =
      if requested then (⟨false, true⟩, ⟨.sleep, none, latest⟩)
      else (⟨false, false⟩, ⟨.returned, none, outcome⟩) := by
  cases requested <;> rfl

end PoolMarket.Debounce
