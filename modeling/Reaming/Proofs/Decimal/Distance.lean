import Reaming.Proofs.Decimal.Difference

namespace Reaming.Decimal
open Float.Model Float.Model.UnpackedFloat

/-- Subtracting a double is adding it with the other sign. -/
theorem sub_eq_add (x y : Float) : x - y = x + -y := by
  rw [sub_eq_pack, add_eq_pack, unpack_neg]
  congr 2
  cases x.toModel.unpack with
  | notANumber => cases y.toModel.unpack <;> rfl
  | infinity s =>
    cases y.toModel.unpack with
    | infinity t => cases s <;> cases t <;> rfl
    | notANumber | zero t | finite t m e pos => rfl
  | zero s =>
    cases y.toModel.unpack with
    | zero t => cases s <;> cases t <;> rfl
    | notANumber | infinity t | finite t m e pos => rfl
  | finite s m e pos =>
    cases y.toModel.unpack with
    | finite t m' e' pos' =>
      change normalize .binary64 (s.apply _ - t.apply _) _ .positive =
        normalize .binary64 (s.apply _ + (-t).apply _) _ .positive
      rw [apply_neg, Int.sub_eq_add_neg]
    | notANumber | infinity t | zero t => rfl

theorem position?_abs (x : Float) :
    position? x.abs = (position? x).map fun i => (i.natAbs : Int) := by
  have hsigned (s : Sign) (n : Nat) : ((signed (isNegative s) n).natAbs : Int) = n := by
    cases s <;> simp [signed, isNegative]
  obtain ⟨w, hagrees, hw⟩ : ∃ w, Agrees x.toModel.unpack.abs w ∧
      w.position? = (shape x).position?.map fun i => (i.natAbs : Int) := by
    have hx := agrees_shape x
    generalize x.toModel.unpack = u at hx
    generalize shape x = v at hx
    cases hx with
    | nan => exact ⟨_, .nan, rfl⟩
    | infinite s => exact ⟨_, .infinite .positive, congrArg some (hsigned s _).symm⟩
    | zero s => exact ⟨_, .zero .positive, congrArg some (hsigned s 0).symm⟩
    | finite s m k pos small full bound =>
      exact ⟨_, .finite .positive m k pos small full bound, congrArg some (hsigned s _).symm⟩
  rw [position?, position?, ← hw]
  exact congrArg Shape.position? (shape_ofModel hagrees)

/-- Where a finite double stands is its value in units. -/
theorem value?_eq_position {x : Float} {v : ℚ} (h : value? x = some v) :
    ∃ i : Int, Stands x.toModel.unpack i ∧ v = i / one := by
  obtain ⟨negative, units, hshape, rfl⟩ := value?_cases h
  obtain ⟨i, hi, hposition⟩ := stands_unpack (Option.isSome_of_eq_some h)
  rw [position?, hshape] at hposition
  cases hposition
  exact ⟨_, hi, rfl⟩

variable {x y : Float} {v w : ℚ}

/-- The distance between two finite doubles is rounded once. -/
theorem abs_sub_position (hv : value? x = some v) (hw : value? y = some w) :
    ∃ d : Nat, |v - w| = d / one ∧
      position? (x - y).abs = some ((min (nearest d 1) overflow : Nat) : Int) := by
  obtain ⟨i, hi, rfl⟩ := value?_eq_position hv
  obtain ⟨j, hj, rfl⟩ := value?_eq_position hw
  have hone : (0 : ℚ) < one := Nat.cast_pos.mpr one_pos
  refine ⟨(i + -j).natAbs, ?_, ?_⟩
  · rw [← sub_div, abs_div, abs_of_pos hone, Nat.cast_natAbs, ← Int.sub_eq_add_neg]
    push_cast
    rfl
  · have hsum := hi.add_position hj.neg
    rw [← unpack_neg, ← add_eq_pack, ← sub_eq_add] at hsum
    rw [position?_abs, hsum, roundedPosition]
    cases decide (i + -j < 0) <;> simp [signed]

theorem position?_tenth : position? (0.1 : Float) = some ((nearest one 10 : Nat) : Int) := by
  decide +kernel

theorem tenth_below : nearest one 10 < overflow := by
  decide +kernel

/-- A whole number of units is rounded as any fraction that comes to it. -/
theorem nearest_whole (d : Nat) {c : Nat} (pos : 0 < c) : nearest (d * c) c = nearest d 1 := by
  rw [← nearest_scale d 1 pos, Nat.one_mul]

/-- A distance that comes out as less than the double for a tenth is less than a tenth. -/
theorem abs_sub_lt_tenth (hv : value? x = some v) (hw : value? y = some w)
    (h : (x - y).abs < 0.1) : |v - w| < 1 / 10 := by
  obtain ⟨d, hd, hposition⟩ := abs_sub_position hv hw
  have hone : (0 : ℚ) < one := Nat.cast_pos.mpr one_pos
  have hlt : d * 10 < one := by
    obtain ⟨i, hi, j, hj, hij⟩ := (float_lt_iff _ _).mp h
    obtain rfl := Option.mem_unique hi hposition
    obtain rfl := Option.mem_unique hj position?_tenth
    have hbelow := tenth_below
    apply Nat.lt_of_not_le
    intro hle
    have hnearest := @nearest_mono one (d * 10) 10 (by decide) hle
    rw [nearest_whole d (by decide)] at hnearest
    omega
  rw [hd, div_lt_div_iff₀ hone (by norm_num), one_mul]
  exact_mod_cast hlt

/-- Any other distance comes out as no less than that double, and falls short of a tenth by no more
than rounding can hide. -/
theorem tenth_le_abs_sub (hv : value? x = some v) (hw : value? y = some w)
    (h : ¬ (x - y).abs < 0.1) : 0.1 ≤ (x - y).abs ∧ 1 / 10 - 1 / 10 ^ 17 < |v - w| := by
  obtain ⟨d, hd, hposition⟩ := abs_sub_position hv hw
  have hone : (0 : ℚ) < one := Nat.cast_pos.mpr one_pos
  have hle : nearest one 10 ≤ min (nearest d 1) overflow := by
    apply Nat.le_of_not_lt
    intro hlt
    exact h ((float_lt_iff _ _).mpr ⟨_, hposition, _, position?_tenth, Int.ofNat_lt.mpr hlt⟩)
  refine ⟨(float_le_iff _ _).mpr ⟨_, position?_tenth, _, hposition, Int.ofNat_le.mpr hle⟩, ?_⟩
  have hlt : one * (10 ^ 16 - 1) < d * 10 ^ 17 := by
    apply Nat.lt_of_not_le
    intro hge
    have hnearest := @nearest_mono (d * 10 ^ 17) (one * (10 ^ 16 - 1)) (10 ^ 17) (by decide) hge
    have hshort : nearest (one * (10 ^ 16 - 1)) (10 ^ 17) < nearest one 10 := by decide +kernel
    rw [nearest_whole d (by decide)] at hnearest
    omega
  have hshare : (1 / 10 - 1 / 10 ^ 17 : ℚ) = ((10 ^ 16 - 1 : Nat) : ℚ) / 10 ^ 17 := by norm_num
  rw [hd, hshare, div_lt_div_iff₀ (by norm_num) hone, mul_comm]
  exact_mod_cast hlt

end Reaming.Decimal
