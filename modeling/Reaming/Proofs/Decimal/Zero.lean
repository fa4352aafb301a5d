import Mathlib
import Reaming.Proofs.Decimal.Arithmetic

namespace Reaming.Decimal
open Float.Model Float.Model.UnpackedFloat

def unsign (x : Float) : Float := if x == 0.0 then 0.0 else x

theorem float_ext {x y : Float} (h : x.toModel.unpack = y.toModel.unpack) : x = y := by
  have hbits := (unpack_inj_of_valid x.toModel.valid y.toModel.valid).mp h
  exact Float.toBits_inj.mp (UInt64.toBitVec_inj.mp hbits)

theorem pack_unpack_toModel (x : Float) : Float.ofModel (.pack x.toModel.unpack) = x :=
  x.ofBits_toBits

theorem unpack_negative_zero : (-0.0 : Float).toModel.unpack = .zero .negative := by
  have h : shape (-0.0 : Float) = .finite true 0 := by decide +kernel
  obtain ⟨s, hs, hx⟩ := unpack_of_zero h
  cases s with
  | positive => cases hs
  | negative => exact hx

/-- The two zeros are the doubles that unpack to zero. -/
theorem zero_cases {x : Float} {s : Sign} (h : x.toModel.unpack = .zero s) :
    x = 0.0 ∨ x = -0.0 := by
  cases s with
  | positive => exact .inl (float_ext (h.trans unpack_zero.symm))
  | negative => exact .inr (float_ext (h.trans unpack_negative_zero.symm))

theorem unsign_of_zero {x : Float} {s : Sign} (h : x.toModel.unpack = .zero s) :
    unsign x = 0.0 := by
  have hx : (x == 0.0) = true := by
    change (x.toModel.unpack.compare (0.0 : Float).toModel.unpack == some .eq) = true
    rw [h, unpack_zero]
    rfl
  exact if_pos hx

theorem unsign_zero : unsign 0.0 = 0.0 := unsign_of_zero unpack_zero

theorem unsign_negative_zero : unsign (-0.0) = 0.0 := unsign_of_zero unpack_negative_zero

theorem unsign_of_ne_zero {x : Float} (h : ∀ s, x.toModel.unpack ≠ .zero s) : unsign x = x := by
  have hx : ¬(x == 0.0) = true := by
    change ¬(x.toModel.unpack.compare (0.0 : Float).toModel.unpack == some .eq) = true
    rw [unpack_zero]
    cases hu : x.toModel.unpack with
    | zero s => exact absurd hu (h s)
    | notANumber => exact nofun
    | infinity s => cases s <;> exact nofun
    | finite s m e pos => cases s <;> exact nofun
  exact if_neg hx

/-- Adding to zero takes its sign from zero and changes nothing else. -/
theorem zero_add_eq_unsign (x : Float) : 0.0 + x = unsign x := by
  have hkeep : UnpackedFloat.add .binary64 (.zero .positive) x.toModel.unpack =
      x.toModel.unpack → 0.0 + x = x := by
    intro h
    rw [zero_add_eq_pack, h, pack_unpack_toModel]
  cases hu : x.toModel.unpack with
  | zero s =>
    rw [zero_add_eq_pack, unsign_of_zero hu, hu, ← pack_unpack_toModel 0.0, unpack_zero]
    cases s <;> rfl
  | notANumber | infinity s | finite s m e pos =>
    rw [unsign_of_ne_zero (by rw [hu]; exact nofun)]
    exact hkeep (by rw [hu]; rfl)

theorem unsign_eq_or (x : Float) : unsign x = x ∨ x = -0.0 := by
  cases hu : x.toModel.unpack with
  | zero s =>
    refine (zero_cases hu).imp_left fun h => ?_
    rw [unsign_of_zero hu, h]
  | notANumber | infinity s | finite s m e pos =>
    exact .inl (unsign_of_ne_zero (by rw [hu]; exact nofun))

/-- Subtracting from either zero gives the same distance. -/
theorem abs_zero_sub (y : Float) : (-0.0 - y).abs = (0.0 - y).abs := by
  rw [sub_eq_pack, sub_eq_pack, unpack_zero, unpack_negative_zero]
  cases y.toModel.unpack with
  | zero s => cases s <;> rfl
  | notANumber | infinity s | finite s m e pos => rfl

theorem abs_sub_zero (x : Float) : (x - -0.0).abs = (x - 0.0).abs := by
  rw [sub_eq_pack, sub_eq_pack, unpack_zero, unpack_negative_zero]
  cases x.toModel.unpack with
  | zero s => cases s <;> rfl
  | notANumber | infinity s | finite s m e pos => rfl

/-- The signs of zeros play no part in a distance. -/
theorem abs_sub_unsign (x y : Float) : (unsign x - unsign y).abs = (x - y).abs := by
  have hleft : (unsign x - unsign y).abs = (x - unsign y).abs := by
    rcases unsign_eq_or x with h | rfl
    · rw [h]
    · rw [unsign_negative_zero, abs_zero_sub]
  rw [hleft]
  rcases unsign_eq_or y with h | rfl
  · rw [h]
  · rw [unsign_negative_zero, abs_sub_zero]

end Reaming.Decimal
