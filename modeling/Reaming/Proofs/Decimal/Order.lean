import Reaming.Proofs.Decimal.Shape

namespace Reaming.Decimal
open Float.Model Float.Model.UnpackedFloat

@[irreducible] def pastExponent : Nat := 2098

theorem pastExponent_eq : pastExponent = 2098 := by
  rw [pastExponent]

@[irreducible] def unitExponent : Nat := 1074

theorem unitExponent_eq : unitExponent = 1074 := by
  rw [unitExponent]

def one : Nat := 2 ^ unitExponent

theorem shiftLeft_units (n : Nat) : n <<< 1074 = n * one := by
  rw [← unitExponent_eq]
  exact Nat.shiftLeft_eq n unitExponent

theorem one_pos : 0 < one :=
  Nat.two_pow_pos unitExponent

def overflow : Nat := 2 ^ pastExponent

theorem overflow_pos : 0 < overflow :=
  Nat.two_pow_pos pastExponent

def signed (negative : Bool) (n : Nat) : Int :=
  if negative then -n else n

/-- Where a shape stands among the numbers, counted in units. The infinities stand where the
doubles would overflow. -/
def Shape.position? : Shape → Option Int
  | .nan => none
  | .infinite negative => some (signed negative overflow)
  | .finite negative units => some (signed negative units)

/-- Exponents are compared first, which is right since every mantissa but the smallest is full. -/
theorem compare_scaled {m₁ k₁ m₂ k₂ : Nat} (small₁ : m₁ < 2 ^ 53) (small₂ : m₂ < 2 ^ 53)
    (full₁ : 2 ^ 52 ≤ m₁ ∨ k₁ = 0) (full₂ : 2 ^ 52 ≤ m₂ ∨ k₂ = 0) :
    (compare ((k₁ : Int) - 1074) (k₂ - 1074)).then (compare m₁ m₂) =
      compare (m₁ * 2 ^ k₁) (m₂ * 2 ^ k₂) := by
  have below {m k m' k' : Nat} (hm : m < 2 ^ 53) (hf : 2 ^ 52 ≤ m' ∨ k' = 0) (hk : k < k') :
      m * 2 ^ k < m' * 2 ^ k' := by
    have hm' : 2 ^ 52 ≤ m' := hf.resolve_right (by omega)
    calc m * 2 ^ k < 2 ^ 53 * 2 ^ k := Nat.mul_lt_mul_of_pos_right hm (Nat.two_pow_pos k)
      _ = 2 ^ 52 * 2 ^ (k + 1) := by rw [Nat.pow_succ]; omega
      _ ≤ m' * 2 ^ k' := Nat.mul_le_mul hm' (Nat.pow_le_pow_right (by decide) hk)
  rcases Nat.lt_trichotomy k₁ k₂ with hk | rfl | hk
  · rw [Int.compare_eq_lt.mpr (by omega), Nat.compare_eq_lt.mpr (below small₁ full₂ hk)]
    rfl
  · rw [Int.compare_eq_eq.mpr rfl]
    change compare m₁ m₂ = _
    have hpos := Nat.two_pow_pos k₁
    rcases Nat.lt_trichotomy m₁ m₂ with hm | rfl | hm
    · rw [Nat.compare_eq_lt.mpr hm, Nat.compare_eq_lt.mpr (Nat.mul_lt_mul_of_pos_right hm hpos)]
    · rw [Nat.compare_eq_eq.mpr rfl, Nat.compare_eq_eq.mpr rfl]
    · rw [Nat.compare_eq_gt.mpr hm, Nat.compare_eq_gt.mpr (Nat.mul_lt_mul_of_pos_right hm hpos)]
  · rw [Int.compare_eq_gt.mpr (by omega), Nat.compare_eq_gt.mpr (below small₂ full₁ hk)]
    rfl

/-- A full mantissa and its exponent are settled by the magnitude. -/
theorem scaled_injective {m k m' k' : Nat} (small : m < 2 ^ 53) (small' : m' < 2 ^ 53)
    (full : 2 ^ 52 ≤ m ∨ k = 0) (full' : 2 ^ 52 ≤ m' ∨ k' = 0) (h : m * 2 ^ k = m' * 2 ^ k') :
    m = m' ∧ k = k' := by
  have hcompare := compare_scaled small small' full full'
  rw [h, Nat.compare_eq_eq.mpr rfl, Ordering.then_eq_eq] at hcompare
  obtain ⟨hk, hm⟩ := hcompare
  have hk := Int.compare_eq_eq.mp hk
  exact ⟨Nat.compare_eq_eq.mp hm, by omega⟩

theorem scaled_lt_overflow {m k : Nat} (small : m < 2 ^ 53) (bound : k ≤ 2045) :
    m * 2 ^ k < overflow := by
  calc m * 2 ^ k < 2 ^ 53 * 2 ^ k := Nat.mul_lt_mul_of_pos_right small (Nat.two_pow_pos k)
    _ = 2 ^ (53 + k) := (Nat.pow_add 2 53 k).symm
    _ ≤ overflow := Nat.pow_le_pow_right (by decide) (by rw [pastExponent_eq]; omega)

theorem compare_positive (x y : Nat) :
    compare (signed false x) (signed false y) = compare x y := by
  simp only [signed, Bool.false_eq_true, ↓reduceIte]
  rcases Nat.lt_trichotomy x y with h | rfl | h
  · rw [Nat.compare_eq_lt.mpr h, Int.compare_eq_lt.mpr (by omega)]
  · rw [Nat.compare_eq_eq.mpr rfl, Int.compare_eq_eq.mpr rfl]
  · rw [Nat.compare_eq_gt.mpr h, Int.compare_eq_gt.mpr (by omega)]

theorem compare_negative (x y : Nat) :
    compare (signed true x) (signed true y) = (compare x y).swap := by
  simp only [signed, ↓reduceIte]
  rcases Nat.lt_trichotomy x y with h | rfl | h
  · rw [Nat.compare_eq_lt.mpr h, Int.compare_eq_gt.mpr (by omega)]
    rfl
  · rw [Nat.compare_eq_eq.mpr rfl, Int.compare_eq_eq.mpr rfl]
    rfl
  · rw [Nat.compare_eq_gt.mpr h, Int.compare_eq_lt.mpr (by omega)]
    rfl

/-- The sign of the greater magnitude decides. -/
theorem compare_signed_of_gt {x y : Nat} (h : y < x) (s t : Bool) :
    compare (signed s x) (signed t y) = if s then .lt else .gt := by
  cases s with
  | false =>
    apply Int.compare_eq_gt.mpr
    cases t <;> simp only [signed, Bool.false_eq_true, ↓reduceIte] <;> omega
  | true =>
    apply Int.compare_eq_lt.mpr
    cases t <;> simp only [signed, Bool.false_eq_true, ↓reduceIte] <;> omega

theorem compare_signed_of_lt {x y : Nat} (h : x < y) (s t : Bool) :
    compare (signed s x) (signed t y) = if t then .gt else .lt := by
  cases t with
  | false =>
    apply Int.compare_eq_lt.mpr
    cases s <;> simp only [signed, Bool.false_eq_true, ↓reduceIte] <;> omega
  | true =>
    apply Int.compare_eq_gt.mpr
    cases s <;> simp only [signed, Bool.false_eq_true, ↓reduceIte] <;> omega

theorem compare_positive_negative {x y : Nat} (h : 0 < x) :
    compare (signed false x) (signed true y) = .gt := by
  simp only [signed, Bool.false_eq_true, ↓reduceIte]
  exact Int.compare_eq_gt.mpr (by omega)

theorem compare_negative_positive {x y : Nat} (h : 0 < x) :
    compare (signed true x) (signed false y) = .lt := by
  simp only [signed, Bool.false_eq_true, ↓reduceIte]
  exact Int.compare_eq_lt.mpr (by omega)

theorem compare_zeros (s t : Bool) : compare (signed s 0) (signed t 0) = .eq := by
  cases s <;> cases t <;> rfl

/-- Doubles compare as their positions do. What is no number compares with nothing. -/
theorem compare_agrees {a b : UnpackedFloat} {s t : Shape} (ha : Agrees a s) (hb : Agrees b t) :
    a.compare b = s.position?.bind fun i => t.position?.map fun j => compare i j := by
  cases ha with
  | nan => rfl
  | infinite s =>
    cases hb with
    | nan => cases s <;> rfl
    | infinite t =>
      have heq : compare overflow overflow = .eq := Nat.compare_eq_eq.mpr rfl
      cases s <;> cases t
      · exact congrArg some ((compare_negative _ _).trans (congrArg Ordering.swap heq)).symm
      · exact congrArg some (compare_negative_positive overflow_pos).symm
      · exact congrArg some (compare_positive_negative overflow_pos).symm
      · exact congrArg some ((compare_positive _ _).trans heq).symm
    | zero t =>
      have h := compare_signed_of_gt overflow_pos (isNegative s) (isNegative t)
      cases s <;> exact congrArg some h.symm
    | finite t m k pos small full bound =>
      have h := compare_signed_of_gt (scaled_lt_overflow small bound) (isNegative s) (isNegative t)
      cases s <;> exact congrArg some h.symm
  | zero s =>
    cases hb with
    | nan => rfl
    | infinite t =>
      have h := compare_signed_of_lt overflow_pos (isNegative s) (isNegative t)
      cases t <;> exact congrArg some h.symm
    | zero t => exact congrArg some (compare_zeros _ _).symm
    | finite t m k pos small full bound =>
      have hpos : 0 < m * 2 ^ k := Nat.mul_pos pos (Nat.two_pow_pos k)
      have h := compare_signed_of_lt hpos (isNegative s) (isNegative t)
      cases t <;> exact congrArg some h.symm
  | finite s m k pos small full bound =>
    have hpos : 0 < m * 2 ^ k := Nat.mul_pos pos (Nat.two_pow_pos k)
    cases hb with
    | nan => cases s <;> rfl
    | infinite t =>
      have h := compare_signed_of_lt (scaled_lt_overflow small bound) (isNegative s) (isNegative t)
      cases s <;> cases t <;> exact congrArg some h.symm
    | zero t =>
      have h := compare_signed_of_gt hpos (isNegative s) (isNegative t)
      cases s <;> exact congrArg some h.symm
    | finite t m' k' pos' small' full' bound' =>
      have h := compare_scaled small small' full full'
      cases s <;> cases t
      · exact congrArg some ((congrArg Ordering.swap h).trans (compare_negative _ _).symm)
      · exact congrArg some (compare_negative_positive hpos).symm
      · exact congrArg some (compare_positive_negative hpos).symm
      · exact congrArg some (h.trans (compare_positive _ _).symm)

def position? (x : Float) : Option Int := (shape x).position?

theorem compare_float (a b : Float) : a.toModel.unpack.compare b.toModel.unpack =
    (position? a).bind fun i => (position? b).map fun j => compare i j :=
  compare_agrees (agrees_shape a) (agrees_shape b)

theorem float_le_iff (a b : Float) :
    a ≤ b ↔ ∃ i ∈ position? a, ∃ j ∈ position? b, i ≤ j := by
  have h : a ≤ b ↔ (a.toModel.unpack.compare b.toModel.unpack).any (·.isLE) = true :=
    decide_eq_true_iff
  rw [h, compare_float]
  cases position? a <;> cases position? b <;> simp [Int.isLE_compare]

theorem float_lt_iff (a b : Float) :
    a < b ↔ ∃ i ∈ position? a, ∃ j ∈ position? b, i < j := by
  have h : a < b ↔ (a.toModel.unpack.compare b.toModel.unpack == some .lt) = true :=
    decide_eq_true_iff
  rw [h, compare_float]
  cases position? a <;> cases position? b <;> simp [Int.compare_eq_lt]

theorem float_beq_iff (a b : Float) :
    (a == b) = true ↔ ∃ i ∈ position? a, i ∈ position? b := by
  change (a.toModel.unpack.compare b.toModel.unpack == some .eq) = true ↔ _
  rw [compare_float]
  cases position? a <;> cases position? b <;> simp
  exact eq_comm

theorem beq_zero_of_shape {x : Float} {units : Nat} (h : shape x = .finite false units)
    (pos : 0 < units) : (x == 0.0) = false := by
  rw [← Bool.not_eq_true, float_beq_iff]
  have hzero : position? (0.0 : Float) = some 0 := by decide +kernel
  have hx : position? x = some (units : Int) := by
    rw [position?, h]
    rfl
  rw [hzero, hx]
  rintro ⟨i, hi, hj⟩
  cases hj
  exact absurd (Option.some.inj hi) (by omega)

end Reaming.Decimal
