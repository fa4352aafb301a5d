import Mathlib.Algebra.Ring.Int.Defs
import Reaming.Proofs.Decimal.Rounded

namespace Reaming.Decimal
open Float.Model Float.Model.UnpackedFloat

theorem round_rounded (sign : Sign) {m : Nat} (k : Nat) (pos : 0 < m) :
    ∃ m' k', Rounded sign (round .binary64 sign m ((k : Int) - 1074)) m' k' ∧
      m' * 2 ^ k' = nearest (m * 2 ^ k) 1 := by
  generalize hs : roundingStep m k = s
  have hshift : ((k : Int) - 1074 - ((s : Int) - 1074)).toNat = k - s := by omega
  have hexponent : (k : Int) - 1074 - ((k - s : Nat) : Int) = ((min k s : Nat) : Int) - 1074 := by
    omega
  have hsum : k - s + min k s = k := by omega
  have hstep : min k s ≤ roundingStep (m <<< (k - s)) (min k s) := by
    rw [roundingStep, log2_shiftLeft pos, Nat.add_assoc, hsum]
    exact hs ▸ Nat.min_le_right k s
  have hpos : 0 < m <<< (k - s) := by
    rw [Nat.shiftLeft_eq]
    exact Nat.mul_pos pos (Nat.two_pow_pos _)
  have h := @roundWithAccuracy_rounded (m <<< (k - s)) 1 sign (min k s) Nat.one_pos
    (by rwa [Nat.div_one]) (by rwa [Nat.div_one])
  rw [Nat.div_one, Nat.mod_one, Nat.shiftLeft_eq, Nat.mul_assoc, ← Nat.pow_add, hsum] at h
  rw [UnpackedFloat.round, targetExponent_eq, hs, decreaseExponent, hshift, hexponent,
    Nat.shiftLeft_eq]
  exact h

/-- Past the largest exponent the rounded number is infinite. -/
theorem Rounded.position {s : Sign} {u : UnpackedFloat} {m k : Nat} (h : Rounded s u m k) :
    position? (.ofModel (.pack u)) = some (signed (isNegative s) (min (m * 2 ^ k) overflow)) := by
  by_cases hk : k ≤ 2045
  · rw [position?, shape_ofModel (h.agrees hk),
      Nat.min_eq_left (Nat.le_of_lt (scaled_lt_overflow h.small hk))]
    rfl
  · have hexponent : ((k : Int) - 1074 + (Format.binary64.exponentBias : Nat) + (52 : Nat)).toNat =
        k + 1 := by
      have hbias : ((Format.binary64.exponentBias : Nat) : Int) = 1023 := rfl
      rw [hbias]
      omega
    have hpack : UnpackedFloat.pack .binary64 u = packedInfinity .binary64 s := by
      rw [h.eq, pack_finite, hexponent]
      exact if_pos (by omega)
    have hshape : shape (.ofModel (.pack u)) = .infinite (isNegative s) := by
      change Shape.ofBits (UnpackedFloat.pack .binary64 u).toNat = _
      rw [hpack]
      exact ofBits_pack (Agrees.infinite s)
    have hover : overflow ≤ m * 2 ^ k := Nat.le_of_not_lt fun hlt => hk (h.le_bound hlt)
    rw [position?, hshape, Nat.min_eq_right hover]
    rfl

/-- What is rounded to no less than a double stands no lower, infinite or not. -/
theorem Rounded.le_position {u : UnpackedFloat} {m k n j : Nat} (h : Rounded .positive u m k)
    (small : n < 2 ^ 53) (bound : j ≤ 2045) (le : n * 2 ^ j ≤ m * 2 ^ k) :
    ∃ i ∈ position? (.ofModel (.pack u)), ((n * 2 ^ j : Nat) : Int) ≤ i := by
  have hle := Nat.le_min.mpr ⟨le, Nat.le_of_lt (scaled_lt_overflow small bound)⟩
  exact ⟨_, h.position, Int.ofNat_le.mpr hle⟩

inductive Nonneg : UnpackedFloat → Nat → Prop where
  | zero (s : Sign) : Nonneg (.zero s) 0
  | infinite : Nonneg (.infinity .positive) overflow
  | finite (m k : Nat) (pos : 0 < m) (small : m < 2 ^ 53) (full : 2 ^ 52 ≤ m ∨ k = 0)
      (bound : k ≤ 2045) : Nonneg (.finite .positive m (k - 1074) pos) (m * 2 ^ k)

theorem nonneg_unpack {x : Float} (h : 0.0 ≤ x) :
    ∃ n : Nat, Nonneg x.toModel.unpack n ∧ position? x = some (n : Int) := by
  have hzero : position? (0.0 : Float) = some 0 := by decide +kernel
  obtain ⟨i, hi, j, hj, hij⟩ := (float_le_iff _ _).mp h
  rw [hzero] at hi
  cases hi
  have hx := agrees_shape x
  rw [position?] at hj ⊢
  generalize x.toModel.unpack = u at hx ⊢
  generalize shape x = v at hx hj ⊢
  cases hx with
  | nan => cases hj
  | infinite s =>
    cases hj
    cases s with
    | positive => exact ⟨_, .infinite, rfl⟩
    | negative =>
      have hpos := overflow_pos
      simp only [isNegative, signed, ↓reduceIte] at hij
      omega
  | zero s =>
    refine ⟨0, .zero s, ?_⟩
    cases s <;> rfl
  | finite s m k pos small full bound =>
    cases hj
    cases s with
    | positive => exact ⟨_, .finite m k pos small full bound, rfl⟩
    | negative =>
      have hpos : 0 < m * 2 ^ k := Nat.mul_pos pos (Nat.two_pow_pos k)
      simp only [isNegative, signed, ↓reduceIte] at hij
      omega

theorem Nonneg.position {u : UnpackedFloat} {n : Nat} (h : Nonneg u n) :
    position? (.ofModel (.pack u)) = some (n : Int) := by
  cases h with
  | zero s => cases s <;> rfl
  | infinite =>
    rw [position?, shape_ofModel (Agrees.infinite .positive)]
    rfl
  | finite m k pos small full bound =>
    rw [position?, shape_ofModel (Agrees.finite .positive m k pos small full bound)]
    rfl

theorem natCast_scaled (m k : Nat) : ((m * 2 ^ k : Nat) : Int) = (m : Int) * 2 ^ k := by
  rw [Int.natCast_mul, Int.natCast_pow]
  rfl

theorem signed_scaled (s : Sign) (m k : Nat) :
    signed (isNegative s) (m * 2 ^ k) = s.apply m * 2 ^ k := by
  cases s with
  | negative => exact (congrArg Int.neg (natCast_scaled m k)).trans (Int.neg_mul _ _).symm
  | positive => exact natCast_scaled m k

theorem shifted (s : Sign) (m : Nat) {k l : Nat} (h : l ≤ k) :
    s.apply (m <<< (k - l) : Nat) * 2 ^ l = s.apply m * 2 ^ k := by
  rw [← signed_scaled, ← signed_scaled, Nat.shiftLeft_eq, Nat.mul_assoc, ← Nat.pow_add,
    Nat.sub_add_cancel h]

/-- The sum of two finite doubles before it is rounded. -/
theorem add_signed (s t : Sign) (k k' : Nat) {m m' : Nat} (pos : 0 < m) (pos' : 0 < m') :
    ∃ (d : Int) (l : Nat), d * 2 ^ l = s.apply m * 2 ^ k + t.apply m' * 2 ^ k' ∧
      UnpackedFloat.add .binary64 (.finite s m ((k : Int) - 1074) pos)
        (.finite t m' ((k' : Int) - 1074) pos') =
          normalize .binary64 d ((l : Int) - 1074) .positive := by
  have hmin : min ((k : Int) - 1074) ((k' : Int) - 1074) = ((min k k' : Nat) : Int) - 1074 := by
    omega
  have hshift (j : Nat) : ((j : Int) - 1074 - (((min k k' : Nat) : Int) - 1074)).toNat =
      j - min k k' := by
    omega
  refine ⟨s.apply (m <<< (k - min k k') : Nat) + t.apply (m' <<< (k' - min k k') : Nat),
    min k k', ?_, ?_⟩
  · rw [Int.add_mul, shifted s m (Nat.min_le_left k k'), shifted t m' (Nat.min_le_right k k')]
  · rw [← hshift k, ← hshift k', ← hmin]
    rfl

theorem normalize_of_pos {n : Nat} (e : Int) (pos : 0 < n) :
    normalize .binary64 (n : Int) e .positive = round .binary64 .positive n e := by
  rw [UnpackedFloat.normalize, Int.compare_eq_gt.mpr (Int.natCast_pos.mpr pos)]
  rfl

/-- The sum of two doubles above zero is rounded once. -/
theorem add_positive (k k' : Nat) {m m' : Nat} (pos : 0 < m) (pos' : 0 < m') :
    ∃ sum l : Nat, 0 < sum ∧ sum * 2 ^ l = m * 2 ^ k + m' * 2 ^ k' ∧
      UnpackedFloat.add .binary64 (.finite .positive m ((k : Int) - 1074) pos)
        (.finite .positive m' ((k' : Int) - 1074) pos') =
          round .binary64 .positive sum ((l : Int) - 1074) := by
  obtain ⟨d, l, hsum, hadd⟩ := add_signed .positive .positive k k' pos pos'
  have hunits : 0 < m * 2 ^ k := Nat.mul_pos pos (Nat.two_pow_pos k)
  have hsum : d * 2 ^ l = ((m * 2 ^ k + m' * 2 ^ k' : Nat) : Int) := by
    rw [hsum, ← signed_scaled, ← signed_scaled]
    rfl
  have hpow : (0 : Int) < 2 ^ l := Int.pow_pos (by decide)
  have hd : 0 < d := Int.lt_of_mul_lt_mul_right (by rw [hsum]; omega) (Int.le_of_lt hpow)
  obtain ⟨sum, rfl⟩ := Int.eq_ofNat_of_zero_le (Int.le_of_lt hd)
  have hpos : 0 < sum := Int.natCast_pos.mp hd
  refine ⟨sum, l, hpos, Int.natCast_inj.mp ((natCast_scaled sum l).trans hsum), ?_⟩
  rw [hadd, normalize_of_pos _ hpos]

/-- What is not below zero adds up to no less than either of the two. -/
theorem Nonneg.le_add {u v : UnpackedFloat} {n n' : Nat} (hu : Nonneg u n) (hv : Nonneg v n') :
    ∃ i ∈ position? (.ofModel (.pack (UnpackedFloat.add .binary64 u v))), (n : Int) ≤ i := by
  have keep {w : UnpackedFloat} {l : Nat} (hw : Nonneg w l) (hle : n ≤ l) :
      ∃ i ∈ position? (.ofModel (.pack w)), (n : Int) ≤ i :=
    ⟨l, hw.position, Int.ofNat_le.mpr hle⟩
  cases hu with
  | zero s =>
    cases hv with
    | zero t =>
      cases s <;> cases t <;> exact keep (.zero _) (Nat.le_refl 0)
    | infinite => exact keep .infinite (Nat.zero_le _)
    | finite m k pos small full bound =>
      exact keep (.finite m k pos small full bound) (Nat.zero_le _)
  | infinite =>
    cases hv with
    | zero t => exact keep .infinite (Nat.le_refl _)
    | infinite => exact keep .infinite (Nat.le_refl _)
    | finite m k pos small full bound => exact keep .infinite (Nat.le_refl _)
  | finite m k pos small full bound =>
    cases hv with
    | zero t => exact keep (.finite m k pos small full bound) (Nat.le_refl _)
    | infinite => exact keep .infinite (Nat.le_of_lt (scaled_lt_overflow small bound))
    | finite m' k' pos' _ _ _ =>
      obtain ⟨sum, l, hpos, hsum, hadd⟩ := add_positive k k' pos pos'
      obtain ⟨_, _, hrounded, hvalue⟩ := round_rounded .positive l hpos
      rw [hadd]
      apply hrounded.le_position small bound
      rw [hvalue, hsum]
      apply le_nearest Nat.one_pos small
      rw [Nat.mul_one]
      exact Nat.le_add_right _ _

/-- Adding what is not below zero makes nothing less, rounded as it is. -/
theorem le_add_of_nonneg {x y : Float} (hx : 0.0 ≤ x) (hy : 0.0 ≤ y) : x ≤ x + y := by
  obtain ⟨n, hn, hpos⟩ := nonneg_unpack hx
  obtain ⟨m, hm, _⟩ := nonneg_unpack hy
  obtain ⟨i, hi, hle⟩ := hn.le_add hm
  exact (float_le_iff _ _).mpr ⟨n, hpos, i, hi, hle⟩

end Reaming.Decimal
