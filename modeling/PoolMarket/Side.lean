/-!
# The two sides of a pair

A pair has a first and a second asset, in the order in which it is listed. What a pool keeps for
each of them is kept side by side.
-/

namespace PoolMarket

/-- One of the two assets of a pair. -/
inductive Side where
  | first
  | second
  deriving DecidableEq, Repr

def Side.opposite : Side → Side
  | .first => .second
  | .second => .first

@[simp] theorem Side.opposite_opposite (s : Side) : s.opposite.opposite = s := by
  cases s <;> rfl

/-- What holds of both sides holds of each of the two, which is how a statement over `Side` is
checked field by field. -/
theorem Side.forall_iff {P : Side → Prop} : (∀ s, P s) ↔ P .first ∧ P .second := by
  refine ⟨fun h => ⟨h .first, h .second⟩, fun h s => ?_⟩
  cases s with
  | first => exact h.1
  | second => exact h.2

structure Both (α : Type) where
  first : α
  second : α
  deriving DecidableEq, Repr, Inhabited

namespace Both

variable {α β : Type}

def get (b : Both α) : Side → α
  | .first => b.first
  | .second => b.second

def set (b : Both α) (s : Side) (x : α) : Both α :=
  match s with
  | .first => { b with first := x }
  | .second => { b with second := x }

/-- Setting a side is seen there; `get_set_opposite` is the other half of the frame. -/
@[simp] theorem get_set_self (b : Both α) (s : Side) (x : α) : (b.set s x).get s = x := by
  cases s <;> rfl

@[simp] theorem get_set_opposite (b : Both α) (s : Side) (x : α) :
    (b.set s x).get s.opposite = b.get s.opposite := by
  cases s <;> rfl

@[ext] theorem ext {a b : Both α} (h₁ : a.first = b.first) (h₂ : a.second = b.second) : a = b := by
  cases a; cases b; simp_all

def map (f : α → β) (b : Both α) : Both β := ⟨f b.first, f b.second⟩

def toList (b : Both α) : List α := [b.first, b.second]

def ofList? : List α → Option (Both α)
  | [x, y] => some ⟨x, y⟩
  | _ => none

@[simp] theorem ofList?_toList (b : Both α) : ofList? b.toList = some b := rfl

def same (x : α) : Both α := ⟨x, x⟩

def swap (b : Both α) : Both α := ⟨b.second, b.first⟩

end Both

end PoolMarket
