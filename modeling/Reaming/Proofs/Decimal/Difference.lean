import Reaming.Proofs.Decimal.Addition
import Reaming.Proofs.Decimal.Literal
import Reaming.Proofs.Decimal.Reread
import Reaming.Proofs.Ordered

namespace Reaming.Decimal
open Float.Model Float.Model.UnpackedFloat

inductive Stands : UnpackedFloat → Int → Prop where
  | zero (s : Sign) : Stands (.zero s) 0
  | finite (s : Sign) (m k : Nat) (pos : 0 < m) (small : m < 2 ^ 53) (full : 2 ^ 52 ≤ m ∨ k = 0)
      (bound : k ≤ 2045) : Stands (.finite s m (k - 1074) pos) (s.apply m * 2 ^ k)

theorem apply_neg (s : Sign) (n : Int) : (-s).apply n = -s.apply n := by
  cases s
  · exact (Int.neg_neg n).symm
  · rfl

theorem stands_unpack {x : Float} (h : (value? x).isSome = true) :
    ∃ i, Stands x.toModel.unpack i ∧ position? x = some i := by
  obtain ⟨v, hv⟩ := Option.isSome_iff_exists.mp h
  obtain ⟨negative, units, hshape, _⟩ := value?_cases hv
  refine ⟨signed negative units, ?_, by rw [position?, hshape]; rfl⟩
  have hx := agrees_shape x
  rw [hshape] at hx
  generalize x.toModel.unpack = u at hx
  generalize hw : Shape.finite negative units = w at hx
  cases hx with
  | nan | infinite s => cases hw
  | zero s =>
    cases hw
    cases s <;> exact .zero _
  | finite s m k pos small full bound =>
    cases hw
    rw [signed_scaled]
    exact .finite s m k pos small full bound

theorem Stands.position {u : UnpackedFloat} {i : Int} (h : Stands u i) :
    position? (.ofModel (.pack u)) = some i := by
  cases h with
  | zero s => cases s <;> rfl
  | finite s m k pos small full bound =>
    rw [position?, shape_ofModel (.finite s m k pos small full bound), ← signed_scaled]
    rfl

theorem Stands.neg {u : UnpackedFloat} {i : Int} (h : Stands u i) : Stands u.neg (-i) := by
  cases h with
  | zero s => exact .zero (-s)
  | finite s m k pos small full bound =>
    rw [← Int.neg_mul, ← apply_neg]
    exact .finite (-s) m k pos small full bound

theorem Agrees.neg {u : UnpackedFloat} {v : Shape} (h : Agrees u v) : ∃ w, Agrees u.neg w := by
  cases h with
  | nan => exact ⟨_, .nan⟩
  | infinite s => exact ⟨_, .infinite (-s)⟩
  | zero s => exact ⟨_, .zero (-s)⟩
  | finite s m k pos small full bound => exact ⟨_, .finite (-s) m k pos small full bound⟩

theorem unpack_neg (x : Float) : (-x).toModel.unpack = x.toModel.unpack.neg := by
  obtain ⟨w, hw⟩ := (agrees_shape x).neg
  have hshape : shape (-x) = w := shape_ofModel hw
  have hneg := agrees_shape (-x)
  rw [hshape] at hneg
  exact hneg.unique hw

theorem normalize_of_neg {n : Nat} (e : Int) (pos : 0 < n) :
    normalize .binary64 (-(n : Int)) e .positive = round .binary64 .negative n e := by
  rw [UnpackedFloat.normalize, Int.compare_eq_lt.mpr (by omega), Int.neg_neg]
  rfl

/-- Where the double nearest to a whole number of units stands. Past the largest double it is
infinite. -/
def roundedPosition (d : Int) : Int := signed (decide (d < 0)) (min (nearest d.natAbs 1) overflow)

theorem roundedPosition_signed (s : Sign) {n : Nat} (pos : 0 < n) :
    roundedPosition (signed (isNegative s) n) =
      signed (isNegative s) (min (nearest n 1) overflow) := by
  cases s with
  | negative =>
    have hneg : -(n : Int) < 0 := by omega
    simp only [roundedPosition, isNegative, signed, ↓reduceIte, decide_eq_true hneg, Int.natAbs_neg,
      Int.natAbs_natCast]
  | positive =>
    have hpos : ¬ (n : Int) < 0 := by omega
    simp only [roundedPosition, isNegative, signed, Bool.false_eq_true, ↓reduceIte,
      decide_eq_false hpos, Int.natAbs_natCast]

theorem roundedPosition_zero : roundedPosition 0 = 0 := by
  simp [roundedPosition, signed, nearest_zero]

/-- A double is nearest to itself. -/
theorem Stands.roundedPosition {u : UnpackedFloat} {i : Int} (h : Stands u i) :
    roundedPosition i = i := by
  cases h with
  | zero s => exact roundedPosition_zero
  | finite s m k pos small full bound =>
    have hself := @nearest_self 1 m k Nat.one_pos small
    rw [Nat.mul_one] at hself
    rw [← signed_scaled, roundedPosition_signed s (Nat.mul_pos pos (Nat.two_pow_pos k)), hself,
      Nat.min_eq_left (Nat.le_of_lt (scaled_lt_overflow small bound))]

/-- A whole number of units is rounded once, on the side of zero where it lies. -/
theorem normalize_position (d : Int) (l : Nat) :
    position? (.ofModel (.pack (normalize .binary64 d ((l : Int) - 1074) .positive))) =
      some (Decimal.roundedPosition (d * 2 ^ l)) := by
  have hsign (s : Sign) {n : Nat} (pos : 0 < n) :
      position? (.ofModel (.pack (round .binary64 s n ((l : Int) - 1074)))) =
        some (Decimal.roundedPosition (s.apply n * 2 ^ l)) := by
    obtain ⟨m, k, hrounded, hvalue⟩ := round_rounded s l pos
    rw [hrounded.position, hvalue, ← signed_scaled,
      roundedPosition_signed s (Nat.mul_pos pos (Nat.two_pow_pos l))]
  rcases Int.lt_trichotomy d 0 with hneg | rfl | hpos
  · obtain ⟨n, rfl⟩ := Int.exists_eq_neg_ofNat (Int.le_of_lt hneg)
    have pos : 0 < n := by omega
    rw [normalize_of_neg _ pos]
    exact hsign .negative pos
  · rw [Int.zero_mul, roundedPosition_zero]
    exact (Stands.zero .positive).position
  · obtain ⟨n, rfl⟩ := Int.eq_ofNat_of_zero_le (Int.le_of_lt hpos)
    have pos : 0 < n := Int.natCast_pos.mp hpos
    rw [normalize_of_pos _ pos]
    exact hsign .positive pos

/-- The sum of two finite doubles is the double nearest to it. -/
theorem Stands.add_position {u v : UnpackedFloat} {i j : Int} (hu : Stands u i) (hv : Stands v j) :
    position? (.ofModel (.pack (UnpackedFloat.add .binary64 u v))) =
      some (Decimal.roundedPosition (i + j)) := by
  have keep {w : UnpackedFloat} {l : Int} (hw : Stands w l) (hl : l = i + j) :
      position? (.ofModel (.pack w)) = some (Decimal.roundedPosition (i + j)) := by
    rw [← hl, hw.roundedPosition, hw.position]
  cases hu with
  | zero s =>
    cases hv with
    | zero t => cases s <;> cases t <;> exact keep (.zero _) rfl
    | finite t m k pos small full bound =>
      exact keep (.finite t m k pos small full bound) (Int.zero_add _).symm
  | finite s m k pos small full bound =>
    cases hv with
    | zero t => exact keep (.finite s m k pos small full bound) (Int.add_zero _).symm
    | finite t m' k' pos' small' full' bound' =>
      obtain ⟨d, l, hsum, hadd⟩ := add_signed s t k k' pos pos'
      rw [hadd, ← hsum, normalize_position]

/-- What lies above zero before it is rounded lies above zero after it, and so does not below. One
unit is a double. -/
theorem roundedPosition_nonneg {d : Int} (h : 0 ≤ d) :
    0 ≤ roundedPosition d ∧ (0 < d → 0 < roundedPosition d) := by
  obtain ⟨n, rfl⟩ := Int.eq_ofNat_of_zero_le h
  have hside : ¬ (n : Int) < 0 := Int.not_lt.mpr h
  simp only [roundedPosition, decide_eq_false hside, signed, Bool.false_eq_true, ↓reduceIte,
    Int.natAbs_natCast]
  refine ⟨Int.natCast_nonneg _, fun hpos => Int.natCast_pos.mpr (Nat.lt_min.mpr ⟨?_, overflow_pos⟩)⟩
  exact nearest_pos Nat.one_pos (Int.natCast_pos.mp hpos)

theorem Stands.add_neg {u : UnpackedFloat} {i : Int} (h : Stands u i) :
    UnpackedFloat.add .binary64 u u.neg = .zero .positive := by
  cases h with
  | zero s => cases s <;> rfl
  | finite s m k pos small full bound =>
    obtain ⟨d, l, hsum, hadd⟩ := add_signed s (-s) k k pos pos
    have hzero : d * 2 ^ l = 0 := by
      rw [hsum, apply_neg, Int.neg_mul, Int.add_right_neg]
    have hpow : (2 : Int) ^ l ≠ 0 := Int.pow_ne_zero (by decide)
    rw [UnpackedFloat.neg, hadd, (Int.mul_eq_zero.mp hzero).resolve_right hpow]
    rfl

theorem add_neg_self {x : Float} (h : (value? x).isSome = true) : x + -x = 0.0 := by
  obtain ⟨i, hi, _⟩ := stands_unpack h
  rw [add_eq_pack, unpack_neg, hi.add_neg, ← unpack_zero, pack_unpack_toModel]

/-- Finite doubles that differ have a difference, rounded as it is. -/
theorem add_neg_nonneg {x y : Float} (hx : (value? x).isSome = true)
    (hy : (value? y).isSome = true) (h : y ≤ x) : 0.0 ≤ x + -y ∧ (y < x → 0.0 < x + -y) := by
  obtain ⟨i, hi, hix⟩ := stands_unpack hx
  obtain ⟨j, hj, hjy⟩ := stands_unpack hy
  have hle : j ≤ i := (float_le_iff_of_mem hjy hix).mp h
  have hn := hi.add_position hj.neg
  rw [← unpack_neg, ← add_eq_pack] at hn
  obtain ⟨hnonneg, hpos⟩ := roundedPosition_nonneg (d := i + -j) (by omega)
  have hzero : (0 : Int) ∈ position? (0.0 : Float) := by decide +kernel
  refine ⟨(float_le_iff_of_mem hzero hn).mpr hnonneg, fun hlt => ?_⟩
  have hne : ¬ i ≤ j := fun hij =>
    (Scalar.Ordered.lt_iff.mp hlt).2 ((float_le_iff_of_mem hix hjy).mpr hij)
  exact (float_lt_iff _ _).mpr ⟨0, hzero, _, hn, hpos (by omega)⟩

/-- Adding minus zero changes nothing. -/
theorem add_neg_zero (x : Float) : x + -0.0 = x := by
  have hkeep : UnpackedFloat.add .binary64 x.toModel.unpack (.zero .negative) = x.toModel.unpack := by
    cases x.toModel.unpack with
    | zero s => cases s <;> rfl
    | notANumber | infinity s | finite s m e pos => rfl
  rw [add_eq_pack, unpack_negative_zero, hkeep, pack_unpack_toModel]

end Reaming.Decimal
