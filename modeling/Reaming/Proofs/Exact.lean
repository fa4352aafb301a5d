import Mathlib.Algebra.BigOperators.Group.List.Basic
import Mathlib.Algebra.Order.Field.Basic
import Mathlib.Algebra.Order.Field.Rat
import Mathlib.Data.Rat.Sqrt
import Mathlib.Tactic.NormNum
import Reaming.Proofs.Ordered

namespace Reaming

/-- A field need not have square roots, so they are named apart. -/
class Root (K : Type) where
  root : K → K

instance : Root ℚ := ⟨Rat.sqrt⟩

variable {K : Type} [Field K] [LinearOrder K] [Root K]

/-- The same definitions read in exact arithmetic. Every element of the field is a number, so the
texts for infinity and for no number have no value of their own. -/
instance exactScalar : Scalar K where
  toAdd := inferInstance
  toSub := inferInstance
  toMul := inferInstance
  toDiv := inferInstance
  toNeg := inferInstance
  toLT := inferInstance
  toLE := inferInstance
  toBEq := instBEqOfDecidableEq
  toOfScientific := inferInstance
  toNatCast := inferInstance
  sqrt := Root.root
  abs := fun a => |a|
  ofNumeral
    | .decimal negative mantissa exponent =>
      (if negative then -(mantissa : K) else mantissa) * 10 ^ exponent
    | _ => 0
  ltDecision := fun a b => inferInstanceAs (Decidable (a < b))
  leDecision := fun a b => inferInstanceAs (Decidable (a ≤ b))

instance : Scalar.Ordered K where
  le_trans := by
    intro a b c hab hbc
    exact le_trans hab hbc
  le_total := by
    intro a b _ _
    exact le_total a b
  refl_of_le := by
    intro a b _
    exact ⟨le_refl a, le_refl b⟩
  lt_iff := by
    intro a b
    exact lt_iff_le_not_ge
  beq_iff := by
    intro a b
    exact beq_iff_eq.trans le_antisymm_iff

@[simp] theorem zero_decimal [IsStrictOrderedRing K] : (0.0 : K) = 0 := by
  norm_num

namespace Scalar

@[simp] theorem isNaN_exact (a : K) : isNaN a = false := by
  simp [isNaN]

theorem foldl_add_exact {β : Type} (g : β → K) (xs : List β) (a : K) :
    xs.foldl (fun sum x => sum + g x) a = a + (xs.map g).sum := by
  induction xs generalizing a with
  | nil => exact (add_zero a).symm
  | cons x xs ih => rw [List.foldl_cons, ih, List.map_cons, List.sum_cons, add_assoc]

@[simp] theorem sum_exact [IsStrictOrderedRing K] (xs : List K) : sum xs = xs.sum := by
  have h := foldl_add_exact id xs (-(0.0 : K))
  rw [List.map_id] at h
  exact h.trans (by rw [zero_decimal, neg_zero, zero_add])

end Scalar

end Reaming
