import Reaming.Decimal.Numeral

namespace Reaming

/-- The operations on numbers that drawings need. There are no laws here: the same definitions
run on doubles and can be read over an exact field. -/
class Scalar (α : Type) extends Add α, Sub α, Mul α, Div α, Neg α, LT α, LE α, BEq α,
    OfScientific α, NatCast α where
  sqrt : α → α
  abs : α → α
  ofNumeral : Decimal.Numeral → α
  ltDecision : ∀ a b : α, Decidable (a < b)
  leDecision : ∀ a b : α, Decidable (a ≤ b)

namespace Scalar

variable {α : Type} [Scalar α]

instance (a b : α) : Decidable (a < b) := ltDecision a b

instance (a b : α) : Decidable (a ≤ b) := leDecision a b

def read? (text : List Char) : Option α :=
  (Decimal.Numeral.read? text).map ofNumeral

@[inline] def isNaN (a : α) : Bool := !(a == a)

/-- The lesser of two numbers; what is no number gives way to the other. -/
@[inline] def min (a b : α) : α :=
  if isNaN a then b else if b < a then b else a

@[inline] def max (a b : α) : α :=
  if isNaN a then b else if a < b then b else a

/-- Adds up from the left, starting from minus zero, which changes no sum. -/
@[specialize] def sum (xs : List α) : α :=
  xs.foldl (· + ·) (-(0.0 : α))

end Scalar

instance : Scalar Float where
  toAdd := inferInstance
  toSub := inferInstance
  toMul := inferInstance
  toDiv := inferInstance
  toNeg := inferInstance
  toLT := inferInstance
  toLE := inferInstance
  toBEq := inferInstance
  toOfScientific := inferInstance
  natCast := Float.ofNat
  sqrt := Float.sqrt
  abs := Float.abs
  ofNumeral := Decimal.Numeral.toFloat
  ltDecision := fun a b => inferInstanceAs (Decidable (a < b))
  leDecision := fun a b => inferInstanceAs (Decidable (a ≤ b))

end Reaming
