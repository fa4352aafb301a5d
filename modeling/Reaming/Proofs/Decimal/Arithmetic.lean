import Reaming.Proofs.Decimal.Shape

namespace Reaming.Decimal
open Float.Model Float.Model.UnpackedFloat

theorem unpack_of_zero {x : Float} {negative : Bool} (h : shape x = .finite negative 0) :
    ∃ s, isNegative s = negative ∧ x.toModel.unpack = .zero s := by
  have hx := agrees_shape x
  rw [h] at hx
  generalize x.toModel.unpack = u at hx
  generalize hv : Shape.finite negative 0 = v at hx
  cases hx with
  | nan => cases hv
  | infinite s => cases hv
  | zero s =>
    cases hv
    exact ⟨s, rfl, rfl⟩
  | finite s m k pos small full bound =>
    have hpos : 0 < m * 2 ^ k := Nat.mul_pos pos (Nat.two_pow_pos k)
    injection hv with _ hzero
    omega

theorem unpack_zero : (0.0 : Float).toModel.unpack = .zero .positive := by
  have h : shape (0.0 : Float) = .finite false 0 := by decide +kernel
  obtain ⟨s, hs, hx⟩ := unpack_of_zero h
  cases s with
  | negative => cases hs
  | positive => exact hx

theorem zero_add_eq_pack (x : Float) :
    0.0 + x =
      .ofModel (.pack (UnpackedFloat.add .binary64 (.zero .positive) x.toModel.unpack)) := by
  rw [← unpack_zero]
  rfl

theorem add_eq_pack (x y : Float) :
    x + y = .ofModel (.pack (UnpackedFloat.add .binary64 x.toModel.unpack y.toModel.unpack)) :=
  rfl

theorem sub_eq_pack (x y : Float) :
    x - y = .ofModel (.pack (UnpackedFloat.sub .binary64 x.toModel.unpack y.toModel.unpack)) :=
  rfl

/-- Adding to zero changes no double but minus zero. -/
theorem shape_zero_add {x : Float} {negative : Bool} {units : Nat}
    (h : shape x = .finite negative units) (plus : units = 0 → negative = false) :
    shape (0.0 + x) = .finite negative units := by
  have hx := agrees_shape x
  rw [h] at hx
  rw [zero_add_eq_pack]
  apply shape_ofModel
  generalize x.toModel.unpack = u at hx
  generalize hv : Shape.finite negative units = v at hx ⊢
  cases hx with
  | nan => cases hv
  | infinite s => cases hv
  | zero s =>
    injection hv with hs hu
    have hplus := plus hu
    rw [hs] at hplus
    cases s with
    | negative => cases hplus
    | positive => exact .zero .positive
  | finite s m k pos small full bound => exact .finite s m k pos small full bound

/-- A finite double less itself is plus zero. -/
theorem sub_self_of_finite {x : Float} {negative : Bool} {units : Nat}
    (h : shape x = .finite negative units) : x - x = .ofModel (.pack (.zero .positive)) := by
  have hx := agrees_shape x
  rw [h] at hx
  rw [sub_eq_pack]
  generalize x.toModel.unpack = u at hx
  generalize hv : Shape.finite negative units = v at hx
  cases hx with
  | nan => cases hv
  | infinite s => cases hv
  | zero s => cases s <;> rfl
  | finite s m k pos small full bound =>
    have hzero (n : Int) (e : Int) : normalize .binary64 (n - n) e .positive = .zero .positive := by
      rw [Int.sub_self]
      rfl
    change Float.ofModel (.pack (normalize .binary64 (_ - _) _ .positive)) = _
    rw [hzero]

theorem isNegative_neg (s : Sign) : isNegative (-s) = !isNegative s := by
  cases s <;> rfl

theorem shape_neg {x : Float} {negative : Bool} {units : Nat}
    (h : shape x = .finite negative units) : shape (-x) = .finite (!negative) units := by
  have hx := agrees_shape x
  rw [h] at hx
  apply shape_ofModel (u := x.toModel.unpack.neg)
  generalize x.toModel.unpack = u at hx
  cases hx with
  | zero s =>
    rw [← isNegative_neg]
    exact .zero (-s)
  | finite s m k pos small full bound =>
    rw [← isNegative_neg]
    exact .finite (-s) m k pos small full bound

theorem isInf_of_shape {x : Float} {negative : Bool} {units : Nat}
    (h : shape x = .finite negative units) : x.isInf = false := by
  have hx := agrees_shape x
  rw [h] at hx
  change x.toModel.unpack.isInf = false
  generalize x.toModel.unpack = u at hx
  cases hx with
  | zero s | finite s m k pos small full bound => rfl

end Reaming.Decimal
