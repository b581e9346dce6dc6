import PoolMarket.Fault
import PoolMarket.Text

/-!
# Amounts

Token amounts in the smallest unit: natural numbers of up to 128 bits. Every operation either stays
in that range or says that it would leave it.

Products of two amounts are taken exactly, so only the result has to fit: `Amount.mulDiv` is
`a * b / d` in either rounding, and `Amount.rootOfProduct` the whole part of the square root of
`a * b`. An amount is written as its decimal digits; `Amount.ofString` takes any number of leading
zeros and nothing but digits.
-/

namespace PoolMarket

/-- Which neighbour a quotient that is not whole goes to. -/
inductive Rounding where
  | down
  | up
  deriving DecidableEq, Repr, Inhabited

/-- The whole number next to `n / d` in the direction of the rounding. -/
def Rounding.divide (r : Rounding) (n d : Nat) : Nat :=
  match r with
  | .down => n / d
  | .up => if n % d = 0 then n / d else n / d + 1

/-- How many amounts there are: they fit 128 bits. -/
abbrev Amount.size : Nat := 340282366920938463463374607431768211456

structure Amount where
  val : Nat
  lt : val < Amount.size
  deriving DecidableEq, Repr

namespace Amount

/-- An amount is its number: two with the same `val` are one. -/
@[ext] theorem ext {a b : Amount} (h : a.val = b.val) : a = b := by
  cases a; cases b; simp_all

/-- The amount of `n` units, if that many fit. -/
def ofNat? (n : Nat) : Option Amount :=
  if h : n < size then some ⟨n, h⟩ else none

/-- The amount of `n` units, if there is one, has the value `n`. All that is proved about a
successful operation goes through this equation (`ofNatOr_eq_ok`). -/
theorem ofNat?_eq_some_iff {n : Nat} {a : Amount} : ofNat? n = some a ↔ a.val = n := by
  unfold ofNat?
  constructor
  · intro h
    split at h
    · cases h; rfl
    · cases h
  · rintro rfl
    exact dif_pos a.lt

/-- A number has no amount exactly where it needs more than 128 bits; `ofNatOr_eq_error` is the same
for an operation that names its overflow. -/
theorem ofNat?_eq_none_iff {n : Nat} : ofNat? n = none ↔ size ≤ n := by
  unfold ofNat?
  constructor
  · intro h
    split at h
    · cases h
    · omega
  · intro h
    exact dif_neg (by omega)

/-- The amount `n`, where that fits, else the given overflow. -/
def ofNatOr (what : OverflowFault) (n : Nat) : Outcome Amount :=
  match ofNat? n with
  | some a => .ok a
  | none => .error (.overflow what)

def zero : Amount := ⟨0, by decide⟩

def max : Amount := ⟨size - 1, by decide⟩

def ofUInt32 (n : UInt32) : Amount := ⟨n.toNat, Nat.lt_trans n.toNat_lt (by decide)⟩

instance : Inhabited Amount := ⟨zero⟩

instance : LE Amount := ⟨fun a b => a.val ≤ b.val⟩
instance : LT Amount := ⟨fun a b => a.val < b.val⟩
instance (a b : Amount) : Decidable (a ≤ b) := inferInstanceAs (Decidable (a.val ≤ b.val))
instance (a b : Amount) : Decidable (a < b) := inferInstanceAs (Decidable (a.val < b.val))

def isZero (a : Amount) : Bool := a.val == 0

/-- Emptiness as the checks ask for it and as proofs use it. Every guard on an empty amount is
turned into an inequality with it. -/
@[simp] theorem isZero_iff {a : Amount} : a.isZero = true ↔ a.val = 0 := by
  simp [isZero]

theorem isZero_eq_false {a : Amount} (h : 0 < a.val) : a.isZero = false :=
  beq_false_of_ne (Nat.ne_of_gt h)

def least (a b : Amount) : Amount := if a.val ≤ b.val then a else b

/-- The sum, `none` where it does not fit. -/
def add? (a b : Amount) : Option Amount := ofNat? (a.val + b.val)

/-- The difference, `none` where there is none. -/
def sub? (a b : Amount) : Option Amount :=
  if b.val ≤ a.val then ofNat? (a.val - b.val) else none

/-- The product, `none` where it does not fit. `mulDiv` does not go through here: its product may be
larger than an amount. -/
def mul? (a b : Amount) : Option Amount := ofNat? (a.val * b.val)

/-- The quotient in either rounding, `none` for an empty divisor. A quotient always fits
(`Rounding.divide_le`), so nothing else is refused. -/
def div? (a b : Amount) (r : Rounding) : Option Amount :=
  if b.val = 0 then none else ofNat? (r.divide a.val b.val)

/-- The difference, or zero where there is none. -/
def monus (a b : Amount) : Amount := ⟨a.val - b.val, Nat.lt_of_le_of_lt (Nat.sub_le ..) a.lt⟩

def plus (a b : Amount) : Outcome Amount := ofNatOr .sum (a.val + b.val)

def minus (a b : Amount) : Outcome Amount :=
  if b.val ≤ a.val then .ok (a.monus b) else .error .underflow

def times (a b : Amount) : Outcome Amount := ofNatOr .product (a.val * b.val)

def dividedBy (a b : Amount) (r : Rounding) : Outcome Amount :=
  match a.div? b r with
  | some q => .ok q
  | none => .error .divisionByZero

/-! ### Ratios and roots -/

/-- `a * b / d`, rounded once. -/
def mulDiv (a b d : Amount) (r : Rounding) : Outcome Amount :=
  if d.val = 0 then .error .divisionByZero
  else ofNatOr .ratio (r.divide (a.val * b.val) d.val)

/-- Extends the root `s` by its last `k` binary digits, keeping its square at most `n`. -/
def extendRoot (n : Nat) : Nat → Nat → Nat
  | 0, s => s
  | k + 1, s =>
    let longer := s + Nat.pow 2 k
    extendRoot n k (if longer * longer ≤ n then longer else s)

/-- The root so far grows by less than the binary digits still to come, so one of 128 digits is an
amount. By induction on how many these are (`extendRoot`, bit by bit). -/
theorem extendRoot_lt (n k s : Nat) : extendRoot n k s < s + Nat.pow 2 k := by
  induction k generalizing s with
  | zero => simp [extendRoot]
  | succ k ih =>
    have double : Nat.pow 2 (k + 1) = Nat.pow 2 k * 2 := rfl
    have positive : 0 < Nat.pow 2 k := Nat.two_pow_pos k
    rw [extendRoot, double]
    split
    · have := ih (s + Nat.pow 2 k); omega
    · have := ih s; omega

/-- The whole part of the square root of `a * b`. -/
def rootOfProduct (a b : Amount) : Amount :=
  ⟨extendRoot (a.val * b.val) 128 0, by
    have below := extendRoot_lt (a.val * b.val) 128 0
    rwa [Nat.zero_add] at below⟩

/-! ### Text -/

/-- The digits of the amount, without a zero in front. -/
def text (a : Amount) : String := String.ofList (Digits.ofNat a.val)

/-- The amount that a text of digits stands for. What is no run of digits is malformed, and what is
one too large to be an amount overflows; `ofString_eq_ok` and the lemmas beside it say so. -/
def ofString (s : String) : Outcome Amount :=
  match Digits.value? s.toList with
  | none => .error (.invalidAmount .notDecimal)
  | some n => ofNatOr .amountText n

/-- The amount with its last `places` digits behind a point. -/
def fixed (a : Amount) (places : Nat) : String := String.ofList (Digits.fixed places a.val)

end Amount

end PoolMarket
