import PoolMarket.Amount
import PoolMarket.BasisPoints

/-!
# Fees of a pair

A swap is charged a share for the pool and a share for the maker. Together they never pass the
whole, and that is part of the type.
-/

namespace PoolMarket

/-- The two shares a swap is charged. -/
structure Fees where
  maker : BasisPoints
  pool : BasisPoints
  total_le : maker.val + pool.val ≤ BasisPoints.whole
  deriving DecidableEq, Repr

namespace Fees

def zero : Fees := ⟨.zero, .zero, by decide⟩

instance : Inhabited Fees := ⟨zero⟩

/-- Fees from their two shares, which must add up to at most the whole. That the sum leaves 32 bits
is told apart from its being too much. -/
def ofParts (maker pool : BasisPoints) : Outcome Fees :=
  if BasisPoints.size ≤ maker.val + pool.val then .error (.invalidFee .totalOverflows)
  else if h : maker.val + pool.val ≤ BasisPoints.whole then .ok ⟨maker, pool, h⟩
  else .error (.invalidFee .overHundredPercent)

/-- Fees from the sum of the shares and the maker's share in it. -/
def ofTotal (total maker : BasisPoints) : Outcome Fees :=
  if total.val < maker.val then .error (.invalidFee .makerOverTotal)
  else ofParts maker ⟨total.val - maker.val, Nat.lt_of_le_of_lt (Nat.sub_le ..) total.lt⟩

def total (f : Fees) : BasisPoints :=
  ⟨f.maker.val + f.pool.val, Nat.lt_of_le_of_lt f.total_le (by decide)⟩

/-- What the fees leave of the whole. -/
def kept (f : Fees) : BasisPoints :=
  ⟨BasisPoints.whole - f.total.val, Nat.lt_of_le_of_lt (Nat.sub_le ..) (by decide)⟩

/-- The share of an amount, rounded down: what is charged and what is kept are both taken this
way. -/
def portion (a : Amount) (b : BasisPoints) : Outcome Amount :=
  a.mulDiv b.toAmount BasisPoints.wholeAmount .down

/-- The fees leave a share of the whole, as their `total_le` says, so `after` never takes its second
branch (`after_eq_portion`). -/
theorem complement?_total (f : Fees) : f.total.complement? = some f.kept := by
  have hwhole : f.total.val ≤ BasisPoints.whole := f.total_le
  rw [BasisPoints.complement?, if_pos hwhole, BasisPoints.ofNat?]
  exact dif_pos f.kept.lt

/-- What is left of an amount once the fees are taken off. -/
def after (f : Fees) (a : Amount) : Outcome Amount :=
  match f.total.complement? with
  | some kept => portion a kept
  | none => .error (.invalidFee .overHundredPercent)

/-- No fees are more than the whole, so what they leave of it is a share, and taking them off an
amount is a `portion` of it. -/
theorem after_eq_portion (f : Fees) (a : Amount) : f.after a = portion a f.kept := by
  rw [after, complement?_total]

/-- What a swap paying out `a` is charged: in total, and for the maker. -/
def charged (f : Fees) (a : Amount) : Outcome (Amount × Amount) := do
  let total ← portion a f.total
  let maker ← portion a f.maker
  return (total, maker)

def text (f : Fees) : String :=
  f.total.text ++ " (maker " ++ f.maker.text ++ ", pool " ++ f.pool.text ++ ")"

end Fees

end PoolMarket
