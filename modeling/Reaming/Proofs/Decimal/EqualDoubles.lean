import Reaming.Decimal.Printer
import Reaming.Proofs.Decimal.Difference
import Reaming.Proofs.Decimal.Literal
import Reaming.Proofs.Decimal.Nearest
import Reaming.Proofs.Decimal.Quotient
import Reaming.Proofs.Decimal.Zero
import Reaming.Proofs.Ordered

namespace Reaming.Decimal
open Float.Model Float.Model.UnpackedFloat

theorem units_lt_overflow {x : Float} {negative : Bool} {units : Nat}
    (h : shape x = .finite negative units) : units < overflow := by
  obtain ⟨m, k, small, bound, rfl⟩ := scaled_of_shape h
  exact scaled_lt_overflow small bound

theorem signed_inj {a b : Bool} {m n : Nat} (h : signed a m = signed b n) :
    m = n ∧ (a = b ∨ m = 0) := by
  cases a <;> cases b <;> simp [signed] at h ⊢ <;> omega

/-- Doubles that stand at one place are the same, but for the sign of zero. -/
theorem shape_of_position {x y : Float} {i : Int} (hx : position? x = some i)
    (hy : position? y = some i) :
    shape x = shape y ∨ ∃ a b, shape x = .finite a 0 ∧ shape y = .finite b 0 := by
  rw [position?] at hx hy
  cases hsx : shape x with
  | nan => simp [hsx, Shape.position?] at hx
  | infinite a =>
    cases hsy : shape y with
    | nan => simp [hsy, Shape.position?] at hy
    | infinite b =>
      rw [hsx] at hx
      rw [hsy] at hy
      obtain ⟨_, rfl | hzero⟩ := signed_inj (Option.some.inj (hx.trans hy.symm))
      · exact .inl rfl
      · exact absurd hzero (Nat.ne_of_gt overflow_pos)
    | finite b v =>
      rw [hsx] at hx
      have hlt := units_lt_overflow hsy
      rw [hsy] at hy
      exact absurd (signed_inj (Option.some.inj (hx.trans hy.symm))).1 (Nat.ne_of_gt hlt)
  | finite a u =>
    have hlt := units_lt_overflow hsx
    rw [hsx] at hx
    cases hsy : shape y with
    | nan => simp [hsy, Shape.position?] at hy
    | infinite b =>
      rw [hsy] at hy
      exact absurd (signed_inj (Option.some.inj (hx.trans hy.symm))).1 (Nat.ne_of_lt hlt)
    | finite b v =>
      rw [hsy] at hy
      obtain ⟨rfl, rfl | rfl⟩ := signed_inj (Option.some.inj (hx.trans hy.symm))
      · exact .inl rfl
      · exact .inr ⟨a, b, rfl, rfl⟩

/-- Equal doubles differ in the sign of zero at most. -/
theorem unsign_eq_of_beq {x y : Float} (h : (x == y) = true) : unsign x = unsign y := by
  obtain ⟨i, hx, hy⟩ := (float_beq_iff x y).mp h
  rcases shape_of_position hx hy with hshape | ⟨a, b, ha, hb⟩
  · rw [shape_injective hshape]
  · obtain ⟨_, _, hzero⟩ := unpack_of_zero ha
    obtain ⟨_, _, hzero'⟩ := unpack_of_zero hb
    rw [unsign_of_zero hzero, unsign_of_zero hzero']

theorem beq_of_unsign_eq {x y : Float} (number : Scalar.isNaN x = false)
    (h : unsign x = unsign y) : (x == y) = true := by
  have hself : (x == x) = true := by simpa [Scalar.isNaN] using number
  have hzeros : ((0.0 : Float) == -0.0) = true ∧ ((-0.0 : Float) == 0.0) = true := by
    change ((0.0 : Float).toModel.unpack.compare (-0.0 : Float).toModel.unpack == some .eq) = true ∧
      ((-0.0 : Float).toModel.unpack.compare (0.0 : Float).toModel.unpack == some .eq) = true
    rw [unpack_zero, unpack_negative_zero]
    exact ⟨rfl, rfl⟩
  rcases unsign_eq_or x with hx | rfl
  · rcases unsign_eq_or y with hy | rfl
    · rwa [← hy, ← h, hx]
    · rw [unsign_negative_zero, hx] at h
      rw [h]
      exact hzeros.1
  · rcases unsign_eq_or y with hy | rfl
    · rw [unsign_negative_zero, hy] at h
      rw [← h]
      exact hzeros.2
    · exact hself

theorem unsign_pack_zero (s : Sign) : unsign (.ofModel (.pack (.zero s))) = 0.0 := by
  cases s with
  | positive =>
    rw [← unpack_zero, pack_unpack_toModel]
    exact unsign_zero
  | negative =>
    rw [← unpack_negative_zero, pack_unpack_toModel]
    exact unsign_negative_zero

theorem unsign_zero_add (y : Float) : unsign (-0.0 + y) = unsign (0.0 + y) := by
  rw [add_eq_pack, add_eq_pack, unpack_zero, unpack_negative_zero]
  cases y.toModel.unpack with
  | zero s => cases s <;> exact (unsign_pack_zero _).trans (unsign_pack_zero _).symm
  | notANumber | infinity s | finite s m e pos => rfl

theorem unsign_add_zero (x : Float) : unsign (x + -0.0) = unsign (x + 0.0) := by
  rw [add_eq_pack, add_eq_pack, unpack_zero, unpack_negative_zero]
  cases x.toModel.unpack with
  | zero s => cases s <;> exact (unsign_pack_zero _).trans (unsign_pack_zero _).symm
  | notANumber | infinity s | finite s m e pos => rfl

theorem unsign_zero_sub (y : Float) : unsign (-0.0 - y) = unsign (0.0 - y) := by
  rw [sub_eq_pack, sub_eq_pack, unpack_zero, unpack_negative_zero]
  cases y.toModel.unpack with
  | zero s => cases s <;> exact (unsign_pack_zero _).trans (unsign_pack_zero _).symm
  | notANumber | infinity s | finite s m e pos => rfl

theorem unsign_sub_zero (x : Float) : unsign (x - -0.0) = unsign (x - 0.0) := by
  rw [sub_eq_pack, sub_eq_pack, unpack_zero, unpack_negative_zero]
  cases x.toModel.unpack with
  | zero s => cases s <;> exact (unsign_pack_zero _).trans (unsign_pack_zero _).symm
  | notANumber | infinity s | finite s m e pos => rfl

theorem unsign_zero_mul (y : Float) : unsign (-0.0 * y) = unsign (0.0 * y) := by
  rw [mul_eq_pack, mul_eq_pack, unpack_zero, unpack_negative_zero]
  cases y.toModel.unpack with
  | notANumber => rfl
  | infinity s => rfl
  | zero s | finite s m e pos => exact (unsign_pack_zero _).trans (unsign_pack_zero _).symm

theorem unsign_mul_zero (x : Float) : unsign (x * -0.0) = unsign (x * 0.0) := by
  rw [mul_eq_pack, mul_eq_pack, unpack_zero, unpack_negative_zero]
  cases x.toModel.unpack with
  | notANumber => rfl
  | infinity s => rfl
  | zero s | finite s m e pos => exact (unsign_pack_zero _).trans (unsign_pack_zero _).symm

/-- An operation that tells no zeros apart hangs on its operands without the signs of zeros. -/
theorem unsign_op {op : Float → Float → Float}
    (left : ∀ y, unsign (op (-0.0) y) = unsign (op 0.0 y))
    (right : ∀ x, unsign (op x (-0.0)) = unsign (op x 0.0)) (x y : Float) :
    unsign (op (unsign x) (unsign y)) = unsign (op x y) := by
  have hleft : unsign (op (unsign x) (unsign y)) = unsign (op x (unsign y)) := by
    rcases unsign_eq_or x with h | rfl
    · rw [h]
    · rw [unsign_negative_zero, left]
  rw [hleft]
  rcases unsign_eq_or y with h | rfl
  · rw [h]
  · rw [unsign_negative_zero, right]

theorem unsign_add (x y : Float) : unsign (unsign x + unsign y) = unsign (x + y) :=
  unsign_op unsign_zero_add unsign_add_zero x y

theorem unsign_sub (x y : Float) : unsign (unsign x - unsign y) = unsign (x - y) :=
  unsign_op unsign_zero_sub unsign_sub_zero x y

theorem unsign_mul (x y : Float) : unsign (unsign x * unsign y) = unsign (x * y) :=
  unsign_op unsign_zero_mul unsign_mul_zero x y

theorem unsign_unsign (x : Float) : unsign (unsign x) = unsign x := by
  rcases unsign_eq_or x with h | rfl
  · rw [h, h]
  · rw [unsign_negative_zero, unsign_zero]

theorem isSome_value?_unsign (x : Float) : (value? (unsign x)).isSome = (value? x).isSome := by
  rcases unsign_eq_or x with h | rfl
  · rw [h]
  · rw [unsign_negative_zero]
    rfl

/-- Adding zero takes its sign from zero and changes nothing else. -/
theorem add_zero_eq_unsign (x : Float) : x + 0.0 = unsign x := by
  rw [← zero_add_eq_unsign, add_eq_pack, add_eq_pack, unpack_zero]
  cases x.toModel.unpack with
  | zero s => cases s <;> rfl
  | notANumber | infinity s | finite s m e pos => rfl

/-- A finite double times zero is a zero. -/
theorem unsign_mul_plus_zero {x : Float} (h : (value? x).isSome = true) :
    unsign (x * 0.0) = 0.0 := by
  obtain ⟨i, hx, _⟩ := stands_unpack h
  rw [mul_eq_pack, unpack_zero]
  generalize x.toModel.unpack = u at hx
  cases hx with
  | zero s | finite s m k => exact unsign_pack_zero _

theorem unsign_add_congr {x y : Float} (h : unsign x = unsign y) (z : Float) :
    unsign (x + z) = unsign (y + z) := by
  rw [← unsign_add x, h, unsign_add]

/-- The sign of a zero that a sum starts from is lost, but for the sum's own if it is zero. -/
theorem unsign_foldl_add {x y : Float} (h : unsign x = unsign y) (zs : List Float) :
    unsign (zs.foldl (· + ·) x) = unsign (zs.foldl (· + ·) y) := by
  induction zs generalizing x y with
  | nil => exact h
  | cons z zs ih => exact ih (unsign_add_congr h z)

/-- With three places zeros of either sign are written alike. -/
theorem fixed3_congr {x y : Float} (h : unsign x = unsign y) : fixed3 x = fixed3 y := by
  have hunsign (z : Float) : fixed3 (unsign z) = fixed3 z := by
    rcases unsign_eq_or z with hz | rfl
    · rw [hz]
    · decide +kernel
  rw [← hunsign x, h, hunsign]

theorem shape_of_isNaN {x : Float} (h : Scalar.isNaN x = true) : shape x = .nan := by
  cases hs : shape x with
  | nan => rfl
  | infinite a | finite a u =>
    have hself : (x == x) = true := by
      rw [float_beq_iff, position?, hs]
      exact ⟨_, rfl, rfl⟩
    simp [Scalar.isNaN, hself] at h

end Reaming.Decimal

namespace Reaming
open Decimal

/-- The scalars are equal, or neither is a number. -/
def Scalar.Alike {α : Type} [Scalar α] (a b : α) : Prop :=
  (a == b) = true ∨ isNaN a = true ∧ isNaN b = true

theorem alike_iff_unsign {x y : Float} : Scalar.Alike x y ↔ unsign x = unsign y := by
  constructor
  · rintro (h | ⟨hx, hy⟩)
    · exact unsign_eq_of_beq h
    · rw [shape_injective ((shape_of_isNaN hx).trans (shape_of_isNaN hy).symm)]
  · intro h
    cases hx : Scalar.isNaN x with
    | false => exact .inl (beq_of_unsign_eq hx h)
    | true =>
      cases hy : Scalar.isNaN y with
      | true => exact .inr ⟨hx, hy⟩
      | false =>
        have hyx := Scalar.Ordered.beq_iff.mp (beq_of_unsign_eq hy h.symm)
        exact .inl (Scalar.Ordered.beq_iff.mpr ⟨hyx.2, hyx.1⟩)

/-- Subtraction and multiplication do not tell equal scalars apart. -/
class Scalar.Congruent (α : Type) [Scalar α] : Prop where
  sub : ∀ {a b c d : α}, Alike a c → Alike b d → Alike (a - b) (c - d)
  mul : ∀ {a b c d : α}, Alike a c → Alike b d → Alike (a * b) (c * d)

theorem alike_op {op : Float → Float → Float}
    (signless : ∀ x y, unsign (op (unsign x) (unsign y)) = unsign (op x y)) {a b c d : Float}
    (hac : Scalar.Alike a c) (hbd : Scalar.Alike b d) : Scalar.Alike (op a b) (op c d) := by
  rw [alike_iff_unsign] at *
  rw [← signless a, hac, hbd, signless]

instance : Scalar.Congruent Float where
  sub := alike_op unsign_sub
  mul := alike_op unsign_mul

end Reaming
