import Reaming.Proofs.Decimal.Nearest

namespace Reaming.Decimal
open Float.Model Float.Model.UnpackedFloat

/-- A mantissa with its two extra bits tells the whole part of a ratio, and whether the rest is
nothing, a half, or what lies between. -/
structure Holds (em : ExtendedMantissa) (num den : Nat) : Prop where
  whole : em.mantissa = num / den
  rest : em.accuracy = accuracyOfFraction (num % den) den

theorem accuracy_ofMantissa (m : Nat) (a : Accuracy) :
    (ExtendedMantissa.ofMantissaAndAccuracy m a).accuracy = a := by
  cases a with
  | exact => rfl
  | inexact o => cases o <;> rfl

theorem mantissa_ofMantissa (m : Nat) (a : Accuracy) :
    (ExtendedMantissa.ofMantissaAndAccuracy m a).mantissa = m := by
  cases a with
  | exact => rfl
  | inexact o => cases o <;> rfl

theorem holds_ofMantissa (num den : Nat) :
    Holds (.ofMantissaAndAccuracy (num / den) (accuracyOfFraction (num % den) den)) num den :=
  ⟨mantissa_ofMantissa _ _, accuracy_ofMantissa _ _⟩

variable {em : ExtendedMantissa} {num den : Nat}

/-- One of the extra bits is set just when there is a rest. -/
theorem Holds.sticky (h : Holds em num den) :
    (em.roundBit || em.stickyBit) = !decide (num % den = 0) := by
  have hrest := h.rest
  obtain ⟨m, r, s⟩ := em
  unfold accuracyOfFraction at hrest
  by_cases hzero : num % den = 0
  · rw [if_pos hzero] at hrest
    rw [decide_eq_true hzero]
    cases r <;> cases s <;> first | rfl | cases hrest
  · rw [if_neg hzero] at hrest
    rw [decide_eq_false hzero]
    cases r <;> cases s <;> first | rfl | cases hrest

theorem Holds.shiftRightOne (h : Holds em num den) (pos : 0 < den) :
    Holds em.shiftRightOne num (den * 2) := by
  have hsticky := h.sticky
  have hmod : num % (den * 2) = num % den + den * (em.mantissa % 2) := by
    rw [Nat.mod_mul, h.whole]
  have hlt := Nat.mod_lt num pos
  refine ⟨?_, ?_⟩
  · rw [ExtendedMantissa.shiftRightOne, h.whole, Nat.div_div_eq_div_mul]
  · rw [ExtendedMantissa.shiftRightOne, hsticky, hmod, accuracyOfFraction]
    generalize num % den = r at hlt
    rcases Nat.mod_two_eq_zero_or_one em.mantissa with hbit | hbit
    · rw [hbit, Nat.mul_zero, Nat.add_zero]
      by_cases hr : r = 0
      · rw [if_pos hr, decide_eq_true hr]
        rfl
      · rw [if_neg hr, decide_eq_false hr, Nat.compare_eq_lt.mpr (by omega)]
        rfl
    · rw [hbit, Nat.mul_one, if_neg (by omega)]
      by_cases hr : r = 0
      · rw [decide_eq_true hr, Nat.compare_eq_eq.mpr (by omega)]
        rfl
      · rw [decide_eq_false hr, Nat.compare_eq_gt.mpr (by omega)]
        rfl

theorem Holds.shiftRight (h : Holds em num den) (pos : 0 < den) (n : Nat) :
    Holds (em >>> n) num (den * 2 ^ n) := by
  change Holds (n.repeat ExtendedMantissa.shiftRightOne em) num _
  induction n with
  | zero =>
    rw [Nat.pow_zero, Nat.mul_one]
    exact h
  | succ n ih =>
    rw [Nat.pow_succ, ← Nat.mul_assoc]
    exact ih.shiftRightOne (Nat.mul_pos pos (Nat.two_pow_pos n))

theorem Holds.roundedMantissa (h : Holds em num den) (pos : 0 < den) :
    em.roundedMantissa = roundHalfEven num den := by
  rw [ExtendedMantissa.roundedMantissa, h.rest, h.whole, roundHalfEven, accuracyOfFraction]
  by_cases hzero : num % den = 0
  · rw [if_pos hzero, hzero, if_pos pos]
    rfl
  · rw [if_neg hzero]
    rcases Nat.lt_trichotomy (2 * (num % den)) den with hlt | heq | hgt
    · rw [Nat.compare_eq_lt.mpr hlt, if_pos hlt]
      rfl
    · rw [Nat.compare_eq_eq.mpr heq, if_neg (by omega), if_neg (by omega)]
      rfl
    · rw [Nat.compare_eq_gt.mpr hgt, if_neg (by omega), if_pos hgt]
      rfl

theorem mantissa_shiftRight (em : ExtendedMantissa) (n : Nat) :
    (em >>> n).mantissa = em.mantissa / 2 ^ n := by
  change (n.repeat ExtendedMantissa.shiftRightOne em).mantissa = _
  induction n with
  | zero => exact (Nat.div_one _).symm
  | succ n ih =>
    rw [Nat.repeat, ExtendedMantissa.shiftRightOne, ih, Nat.div_div_eq_div_mul, Nat.pow_succ]

theorem log2_shiftLeft {m : Nat} (pos : 0 < m) (n : Nat) : (m <<< n).log2 = m.log2 + n := by
  have hne := Nat.ne_of_gt pos
  rw [Nat.shiftLeft_eq, Nat.log2_eq_iff (Nat.mul_ne_zero hne (Nat.ne_of_gt (Nat.two_pow_pos n)))]
  constructor
  · rw [Nat.pow_add]
    exact Nat.mul_le_mul_right _ (Nat.log2_self_le hne)
  · rw [Nat.add_right_comm, Nat.pow_add]
    exact Nat.mul_lt_mul_of_pos_right Nat.lt_log2_self (Nat.two_pow_pos n)

def roundingStep (m k : Nat) : Nat := m.log2 + k - 52

theorem targetExponent_eq (m k : Nat) :
    Format.binary64.targetExponent (totalExponent m ((k : Int) - 1074)) =
      (roundingStep m k : Int) - 1074 := by
  have hbits : ((Format.binary64.mantissaBits : Nat) : Int) = 53 := rfl
  have hmin : Format.binary64.minExponent = -1074 := rfl
  rw [Format.targetExponent, totalExponent, roundingStep, hbits, hmin]
  omega

theorem shiftToTarget_eq (m k : Nat) (a : Accuracy) :
    shiftToTargetExponent .binary64 m ((k : Int) - 1074) a =
      (ExtendedMantissa.ofMantissaAndAccuracy m a >>> (roundingStep m k - k),
        ((max k (roundingStep m k) : Nat) : Int) - 1074) := by
  have hamount : ((roundingStep m k : Int) - 1074 - ((k : Int) - 1074)).toNat =
      roundingStep m k - k := by
    omega
  rw [shiftToTargetExponent, targetExponent_eq, shiftToExponent, hamount]
  congr 1
  omega

/-- A finite result of rounding: its mantissa has at most 53 bits, and no fewer unless its exponent
is the least. -/
structure Rounded (s : Sign) (u : UnpackedFloat) (m k : Nat) : Prop where
  pos : 0 < m
  eq : u = .finite s m ((k : Int) - 1074) pos
  small : m < 2 ^ 53
  full : 2 ^ 52 ≤ m ∨ k = 0

theorem Rounded.agrees {s : Sign} {u : UnpackedFloat} {m k : Nat} (h : Rounded s u m k)
    (bound : k ≤ 2045) : Agrees u (.finite (isNegative s) (m * 2 ^ k)) := by
  rw [h.eq]
  exact .finite s m k h.pos h.small h.full bound

theorem Rounded.le_bound {s : Sign} {u : UnpackedFloat} {m k : Nat} (h : Rounded s u m k)
    (below : m * 2 ^ k < overflow) : k ≤ 2045 := by
  apply Nat.le_of_not_lt
  intro hk
  have hfull : 2 ^ 52 ≤ m := h.full.resolve_right (by omega)
  have hover : overflow ≤ m * 2 ^ k :=
    calc overflow ≤ 2 ^ (52 + k) :=
          Nat.pow_le_pow_right (by decide) (by rw [pastExponent_eq]; omega)
      _ = 2 ^ 52 * 2 ^ k := Nat.pow_add 2 52 k
      _ ≤ m * 2 ^ k := Nat.mul_le_mul_right _ hfull
  exact Nat.not_le_of_lt below hover

/-- Rounding up may fill one bit more than there is room for, and the last shift takes it off. -/
theorem shift_carry {r s : Nat} (pos : 0 < r) (le : r ≤ 2 ^ 53) (full : 2 ^ 52 ≤ r ∨ s = 0) :
    ∃ m k : Nat, 0 < m ∧ m < 2 ^ 53 ∧ (2 ^ 52 ≤ m ∨ k = 0) ∧ m * 2 ^ k = r * 2 ^ s ∧
      (shiftToTargetExponent .binary64 r ((s : Int) - 1074) .exact).1.mantissa = m ∧
      (shiftToTargetExponent .binary64 r ((s : Int) - 1074) .exact).2 = (k : Int) - 1074 := by
  have hexact : (ExtendedMantissa.ofMantissaAndAccuracy r .exact).mantissa = r := rfl
  rw [shiftToTarget_eq]
  dsimp only
  rw [mantissa_shiftRight, hexact]
  by_cases hr : r = 2 ^ 53
  · have hstep : roundingStep r s = s + 1 := by
      rw [roundingStep, hr, Nat.log2_two_pow]
      omega
    refine ⟨2 ^ 52, s + 1, Nat.two_pow_pos 52, by decide, .inl (Nat.le_refl _), ?_, ?_, ?_⟩
    · rw [hr, ← Nat.pow_add, ← Nat.pow_add, Nat.add_comm s, ← Nat.add_assoc]
    · have hhalf : 2 ^ 53 / 2 ^ 1 = 2 ^ 52 := rfl
      rw [hstep, hr, Nat.add_sub_cancel_left, hhalf]
    · rw [hstep, Nat.max_eq_right (Nat.le_succ s)]
  · have hlog : r.log2 < 53 := (Nat.log2_lt (Nat.ne_of_gt pos)).mpr (by omega)
    have hstep : roundingStep r s ≤ s := by
      rw [roundingStep]
      omega
    refine ⟨r, s, pos, by omega, full, rfl, ?_, ?_⟩
    · rw [Nat.sub_eq_zero_of_le hstep, Nat.pow_zero, Nat.div_one]
    · rw [Nat.max_eq_left hstep]

theorem stepOf_shift {k : Nat} (pos : 0 < den) (whole : 0 < num / den) :
    stepOf (num * 2 ^ k) den = roundingStep (num / den) k := by
  have hne := Nat.ne_of_gt whole
  have hlow : 2 ^ (num / den).log2 * den ≤ num :=
    (Nat.le_div_iff_mul_le pos).mp (Nat.log2_self_le hne)
  have hhigh : num < 2 ^ ((num / den).log2 + 1) * den :=
    (Nat.div_lt_iff_lt_mul pos).mp Nat.lt_log2_self
  have hpow := Nat.two_pow_pos k
  have hlog : (num * 2 ^ k / den).log2 = (num / den).log2 + k := by
    have hlow' : 2 ^ ((num / den).log2 + k) ≤ num * 2 ^ k / den := by
      rw [Nat.le_div_iff_mul_le pos, Nat.pow_add, Nat.mul_right_comm]
      exact Nat.mul_le_mul_right _ hlow
    have hhigh' : num * 2 ^ k / den < 2 ^ ((num / den).log2 + k + 1) := by
      rw [Nat.div_lt_iff_lt_mul pos, Nat.add_right_comm, Nat.pow_add, Nat.mul_right_comm]
      exact Nat.mul_lt_mul_of_pos_right hhigh hpow
    exact (Nat.log2_eq_iff (Nat.ne_of_gt (Nat.lt_of_lt_of_le (Nat.two_pow_pos _) hlow'))).mpr
      ⟨hlow', hhigh'⟩
  rw [stepOf, hlog, roundingStep]

/-- A ratio is rounded to the nearest double. -/
theorem roundWithAccuracy_rounded (s : Sign) {k : Nat} (pos : 0 < den) (whole : 0 < num / den)
    (step : k ≤ roundingStep (num / den) k) :
    ∃ m' k', Rounded s (roundWithAccuracy .binary64 s (num / den) ((k : Int) - 1074)
        (accuracyOfFraction (num % den) den)) m' k' ∧
      m' * 2 ^ k' = nearest (num * 2 ^ k) den := by
  have hstep := stepOf_shift (k := k) pos whole
  obtain ⟨hle, hfull⟩ := stepOf_spec (num * 2 ^ k) pos
  have hden : den ≤ num * 2 ^ k :=
    Nat.le_trans ((Nat.one_le_div_iff pos).mp whole) (Nat.le_mul_of_pos_right _ (Nat.two_pow_pos k))
  have hnearest := nearest_pos pos hden
  have hfirst := shiftToTarget_eq (num / den) k (accuracyOfFraction (num % den) den)
  have hem := (holds_ofMantissa num den).shiftRight pos (roundingStep (num / den) k - k)
  rw [Nat.max_eq_right step] at hfirst
  rw [nearest, hstep] at hnearest ⊢
  rw [hstep] at hle hfull
  generalize roundingStep (num / den) k = s' at *
  have hpos : 0 < den * 2 ^ s' := Nat.mul_pos pos (Nat.two_pow_pos s')
  generalize ExtendedMantissa.ofMantissaAndAccuracy (num / den)
    (accuracyOfFraction (num % den) den) >>> (s' - k) = em at hfirst hem
  have hr : em.roundedMantissa = roundHalfEven (num * 2 ^ k) (den * 2 ^ s') := by
    rw [hem.roundedMantissa (Nat.mul_pos pos (Nat.two_pow_pos _)),
      ← roundHalfEven_scale _ _ (Nat.two_pow_pos k), Nat.mul_assoc, ← Nat.pow_add,
      Nat.sub_add_cancel step]
  rw [← hr] at hnearest ⊢
  obtain ⟨m', k', hpos', hsmall', hfull', hvalue, hm, hk⟩ := shift_carry
    (Nat.pos_of_mul_pos_right hnearest) (hr ▸ roundHalfEven_le hpos hle)
    (hr ▸ hfull.symm.imp_left (le_roundHalfEven hpos))
  refine ⟨m', k', ⟨hpos', ?_, hsmall', hfull'⟩, hvalue⟩
  rw [roundWithAccuracy, hfirst]
  dsimp only
  generalize shiftToTargetExponent .binary64 em.roundedMantissa ((s' : Int) - 1074) .exact = final
    at hm hk
  obtain ⟨em', e'⟩ := final
  subst hm hk
  rw [dif_neg (Nat.ne_of_gt hpos')]

end Reaming.Decimal
