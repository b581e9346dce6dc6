import PoolMarket.Quote.Debounce

/-!
# Debouncing in time

Requests that arrive at known times, with one clock for the sleeps of the driver and the runs of its
job. As long as a caller drives no other does, so there is at most one sleep or run to wait for.
-/

namespace PoolMarket.Debounce

/-- A job on the newest input. It begins, takes some time, and ends; the state `σ` is what it works
on, and `β` is what it holds in between. -/
structure Job (σ ι β ρ : Type) where
  begin : σ → Option ι → σ × β × Nat
  /-- Ends the job; the flag says whether the job makes a request itself at its end. -/
  finish : σ → β → σ × ρ × Bool

/-- The driver, with the end of its sleep or run. -/
structure Driver (β ρ : Type) where
  /-- Which of the requests made it the driver. -/
  request : Nat
  caller : Caller ρ
  held : Option β
  wakes : Nat

/-- What became of a request. -/
inductive Report (σ ρ : Type) where
  | declined (time : Nat)
  /-- The request drove, until the given time; the state and the flags are those at its return. -/
  | returned (time : Nat) (result : Option ρ) (state : σ) (flags : Flags)

structure Timeline (σ ι β ρ : Type) where
  now : Nat
  flags : Flags
  state : σ
  input : Option ι
  driver : Option (Driver β ρ)
  /-- Reports by request, the newest in front. -/
  reports : List (Nat × Report σ ρ)

namespace Timeline

variable {σ ι β ρ : Type}

def start (state : σ) : Timeline σ ι β ρ :=
  { now := 0, flags := .idle, state, input := none, driver := none, reports := [] }

/-- Lets a caller go on until it pauses, and notes for how long. -/
def resume (debounce : Nat) (job : Job σ ι β ρ) (t : Timeline σ ι β ρ) (request : Nat)
    (c : Caller ρ) : Timeline σ ι β ρ :=
  let (flags, c) := settle t.flags c
  match c.phase with
  | .sleep =>
    { t with
      flags
      driver := some { request, caller := c, held := none, wakes := t.now + debounce } }
  | .job =>
    let (state, held, time) := job.begin t.state t.input
    { t with
      flags, state
      driver := some { request, caller := c, held := some held, wakes := t.now + time } }
  | .declined => { t with flags, reports := (request, .declined t.now) :: t.reports }
  | _ =>
    { t with
      flags
      driver := none
      reports := (request, .returned t.now c.latest t.state flags) :: t.reports }

/-- The sleep or the run of the driver ends. -/
def wake (debounce : Nat) (job : Job σ ι β ρ) (t : Timeline σ ι β ρ) (d : Driver β ρ) :
    Timeline σ ι β ρ :=
  let t := { t with now := d.wakes }
  match d.held with
  | none => t.resume debounce job d.request d.caller.wake
  | some held =>
    let (state, result, requests) := job.finish t.state held
    let flags := if requests then ⟨true, true⟩ else t.flags
    { t with state, flags }.resume debounce job d.request (d.caller.complete result)

/-- Lets the driver go on up to a time, or to its end, with at most so many sleeps and runs. -/
def run (debounce : Nat) (job : Job σ ι β ρ) (limit : Option Nat) :
    Nat → Timeline σ ι β ρ → Timeline σ ι β ρ
  | 0, t => t
  | n + 1, t =>
    match t.driver with
    | none => t
    | some d =>
      if limit.all fun l => decide (d.wakes ≤ l) then
        run debounce job limit n (t.wake debounce job d)
      else t

/-- How many sleeps and runs there can be after so many requests: each request is taken once, and
then slept on and run for at most once. -/
def bound (requests : Nat) : Nat := 2 * requests + 2

/-- A request with a new input arrives. -/
def arrive (debounce : Nat) (job : Job σ ι β ρ) (requests : Nat) (t : Timeline σ ι β ρ)
    (request time : Nat) (input : ι) : Timeline σ ι β ρ :=
  -- what ends at this very time ends first
  let t := t.run debounce job (some time) (bound requests)
  { t with now := time, input := some input }.resume debounce job request .requesting

/-- The requests of a list with their numbers in it, in the order in which they arrive: by time,
and those of one time as they stand in the list. -/
def arrivals (requests : List (Nat × ι)) : List ((Nat × ι) × Nat) :=
  requests.zipIdx.mergeSort fun a b => decide (a.1.1 ≤ b.1.1)

/-- All requests of a list, each at its time, and then the driver to its end. A request is reported
on under its number in the list. -/
def play (debounce : Nat) (job : Job σ ι β ρ) (state : σ) (requests : List (Nat × ι)) :
    Timeline σ ι β ρ :=
  let arrived := (arrivals requests).foldl
    (fun t r => t.arrive debounce job requests.length r.2 r.1.1 r.1.2) (start state)
  arrived.run debounce job none (bound requests.length)

/-- What is reported of a request, if it is over. -/
def report? (t : Timeline σ ι β ρ) (request : Nat) : Option (Report σ ρ) := t.reports.lookup request

/-- Drives without a request arriving, the job making at most so many itself. -/
def driveAlone (debounce : Nat) (job : Job σ ι β ρ) (requests : Nat) (t : Timeline σ ι β ρ) :
    Timeline σ ι β ρ :=
  (t.resume debounce job 0 .driving).run debounce job none (bound (requests + 1))

end Timeline

end PoolMarket.Debounce
