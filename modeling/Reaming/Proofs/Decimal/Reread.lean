import Mathlib.Algebra.Order.Field.Basic
import Mathlib.Algebra.Order.Field.Rat
import Mathlib.Tactic.Linarith
import Mathlib.Tactic.NormNum
import Reaming.Proofs.Decimal.Arithmetic
import Reaming.Proofs.Decimal.Digits
import Reaming.Proofs.Decimal.Monotone
import Reaming.Scalar

namespace Reaming.Decimal

def Thousandths.numeral : Thousandths → Numeral
  | .nan => .nan
  | .infinite negative => .infinite negative
  | .whole count => .decimal (decide (count < 0)) count.natAbs (-3)

theorem read?_text (t : Thousandths) : Numeral.read? t.text.toList = some t.numeral := by
  cases t with
  | whole count => exact read?_text_whole count
  | infinite negative => cases negative <;> decide
  | nan => decide

/-- Three places that are all zeros are written without a minus. -/
theorem text_ne_negative_zero (t : Thousandths) : t.text ≠ "-0.000" := by
  intro h
  have hread : Numeral.read? "-0.000".toList = some (.decimal true 0 (-3)) := by decide
  rw [← h, read?_text] at hread
  cases t with
  | whole count =>
    obtain ⟨hsign, hcount, _⟩ := Numeral.decimal.inj (Option.some.inj hread)
    have hneg : count < 0 := of_decide_eq_true hsign
    omega
  | infinite negative => cases hread
  | nan => cases hread

def readBack (x : Float) : Float := (Thousandths.ofFloat x).numeral.toFloat

theorem read?_fixed3 (x : Float) : Scalar.read? (fixed3 x).toList = some (readBack x) :=
  congrArg (Option.map Numeral.toFloat) (read?_text (Thousandths.ofFloat x))

/-- The coordinate that an absolute operand gives, counted from the origin. -/
def reread (x : Float) : Float := 0.0 + readBack x

theorem bitsOfDecimal_thousandths (n : Nat) : bitsOfDecimal n (-3) = bitsOfRatio n 1000 := by
  change (if n = 0 then 0 else if 400 + n.log2 < 2 then 0 else bitsOfRatio n 1000) = _
  split
  · rename_i h
    subst h
    simp [bitsOfRatio, roundHalfEven]
  · rw [if_neg (by omega)]

theorem shape_readBack {x : Float} {negative : Bool} {units : Nat}
    (h : shape x = .finite negative units) :
    shape (readBack x) = .finite (decide (signed negative (thousandths units) < 0))
      (unitsOfThousandths (thousandths units)) := by
  obtain ⟨m, k, small, bound, rfl⟩ := scaled_of_shape h
  have habs : (signed negative (thousandths (m * 2 ^ k))).natAbs = thousandths (m * 2 ^ k) := by
    cases negative <;> simp [signed]
  rw [readBack, Thousandths.ofFloat, h, ofShape_finite]
  simp only [Thousandths.numeral, Numeral.toFloat, bitsOfDecimal_thousandths, habs]
  exact shape_ofRatio _ (by decide) (unitsOfThousandths_lt small bound)

theorem unitsOfThousandths_pos {count : Nat} (h : 0 < count) : 0 < unitsOfThousandths count := by
  have hone : 2 ^ 10 ≤ one :=
    Nat.pow_le_pow_right (by decide) (by rw [unitExponent_eq]; decide)
  have hcount : one ≤ count * one := Nat.le_mul_of_pos_left one h
  exact nearest_pos (by decide) (by omega)

theorem shape_reread {x : Float} {negative : Bool} {units : Nat}
    (h : shape x = .finite negative units) :
    shape (reread x) = .finite (decide (signed negative (thousandths units) < 0))
      (unitsOfThousandths (thousandths units)) := by
  apply shape_zero_add (shape_readBack h)
  intro hzero
  have hcount : thousandths units = 0 := by
    apply Nat.eq_zero_of_not_pos
    intro hpos
    exact Nat.ne_of_gt (unitsOfThousandths_pos hpos) hzero
  rw [hcount]
  cases negative <;> rfl

theorem unitsOfThousandths_zero : unitsOfThousandths 0 = 0 := by
  rw [unitsOfThousandths, Nat.zero_mul, nearest_zero]

/-- Only a count of no thousandths loses its sign, and then nothing is left to have one. -/
theorem natAbs_sub_signed (negative : Bool) (units : Nat) :
    (signed (decide (signed negative (thousandths units) < 0))
      (unitsOfThousandths (thousandths units)) - signed negative units).natAbs =
        apart (unitsOfThousandths (thousandths units)) units := by
  by_cases hc : thousandths units = 0
  · rw [hc, unitsOfThousandths_zero]
    cases negative <;> simp [signed, apart]
  · have hsign : decide (signed negative (thousandths units) < 0) = negative := by
      cases negative <;> simp [signed, Nat.pos_of_ne_zero hc]
    rw [hsign]
    generalize unitsOfThousandths (thousandths units) = y
    unfold apart
    cases negative <;> simp only [signed, Bool.false_eq_true, ↓reduceIte] <;> omega

theorem signed_thousandths_congr {n m : Bool} {u v : Nat} (h : signed n u = signed m v) :
    signed n (thousandths u) = signed m (thousandths v) :=
  Int.le_antisymm (signed_thousandths_mono (Int.le_of_eq h))
    (signed_thousandths_mono (Int.le_of_eq h.symm))

def valueOf (negative : Bool) (units : Nat) : ℚ := signed negative units / one

/-- The number that a finite double stands for. -/
def value? (x : Float) : Option ℚ :=
  match shape x with
  | .finite negative units => some (valueOf negative units)
  | _ => none

theorem value?_of_shape {x : Float} {negative : Bool} {units : Nat}
    (h : shape x = .finite negative units) : value? x = some (valueOf negative units) := by
  rw [value?, h]

theorem value?_cases {x : Float} {v : ℚ} (h : value? x = some v) :
    ∃ negative units, shape x = .finite negative units ∧ v = valueOf negative units := by
  unfold value? at h
  split at h
  · rename_i negative units hs
    exact ⟨negative, units, hs, (Option.some.inj h).symm⟩
  · cases h

theorem beq_self {x : Float} (h : (value? x).isSome = true) : (x == x) = true := by
  obtain ⟨v, hv⟩ := Option.isSome_iff_exists.mp h
  obtain ⟨negative, units, hs, _⟩ := value?_cases hv
  have hx : position? x = some (signed negative units) := by
    rw [position?, hs]
    rfl
  exact (float_beq_iff x x).mpr ⟨_, hx, hx⟩

/-- Equal doubles read back alike: zeros lose their sign. -/
theorem reread_congr {x y : Float} (hx : (value? x).isSome = true) (hy : (value? y).isSome = true)
    (h : (x == y) = true) : reread x = reread y := by
  obtain ⟨v, hv⟩ := Option.isSome_iff_exists.mp hx
  obtain ⟨w, hw⟩ := Option.isSome_iff_exists.mp hy
  obtain ⟨n, u, hsx, _⟩ := value?_cases hv
  obtain ⟨m, u', hsy, _⟩ := value?_cases hw
  obtain ⟨i, hi, hj⟩ := (float_beq_iff x y).mp h
  rw [position?, hsx] at hi
  rw [position?, hsy] at hj
  have hsigned : signed n u = signed m u' :=
    (Option.some.inj hi).trans (Option.some.inj hj).symm
  have hcount : Thousandths.ofFloat x = Thousandths.ofFloat y := by
    rw [Thousandths.ofFloat, Thousandths.ofFloat, hsx, hsy, ofShape_finite, ofShape_finite,
      signed_thousandths_congr hsigned]
  rw [reread, reread, readBack, readBack, hcount]

/-- Reading a printed number back does not change how it is printed. -/
theorem fixed3_reread {x : Float} (h : (value? x).isSome = true) :
    fixed3 (reread x) = fixed3 x := by
  obtain ⟨v, hv⟩ := Option.isSome_iff_exists.mp h
  obtain ⟨negative, units, hs, _⟩ := value?_cases hv
  obtain ⟨m, k, small, _, rfl⟩ := scaled_of_shape hs
  have hsign (n : Bool) (count : Nat) :
      signed (decide (signed n count < 0)) count = signed n count := by
    cases n <;> simp only [signed, Bool.false_eq_true, ↓reduceIte, decide_eq_true_eq] <;> split <;>
      omega
  rw [fixed3, fixed3, Thousandths.ofFloat, Thousandths.ofFloat, shape_reread hs, hs, ofShape_finite,
    ofShape_finite, thousandths_unitsOfThousandths k small, hsign]

theorem abs_valueOf_sub (n m : Bool) (y u : Nat) :
    |valueOf n y - valueOf m u| = ((signed n y - signed m u).natAbs : ℚ) / one := by
  have hone : (0 : ℚ) < one := by exact_mod_cast one_pos
  rw [valueOf, valueOf, ← sub_div, abs_div, abs_of_pos hone, Nat.cast_natAbs]
  push_cast
  rfl

def WithinThousandth (x y : Float) : Prop :=
  ∃ v w, value? x = some v ∧ value? y = some w ∧ |w - v| < 1 / 1000

/-- Printing and reading move a number by less than a thousandth. -/
theorem withinThousandth_reread {x : Float} (h : (value? x).isSome = true) :
    WithinThousandth x (reread x) := by
  obtain ⟨v, hv⟩ := Option.isSome_iff_exists.mp h
  obtain ⟨negative, units, hs, rfl⟩ := value?_cases hv
  obtain ⟨m, k, small, bound, rfl⟩ := scaled_of_shape hs
  refine ⟨_, _, hv, value?_of_shape (shape_reread hs), ?_⟩
  have hone : (0 : ℚ) < one := by exact_mod_cast one_pos
  have hlt : (1000 : ℚ) * (apart (unitsOfThousandths (thousandths (m * 2 ^ k))) (m * 2 ^ k) : Nat) <
      one := by
    exact_mod_cast apart_lt_thousandth k small
  rw [abs_valueOf_sub, natAbs_sub_signed, div_lt_div_iff₀ hone (by norm_num)]
  linarith

end Reaming.Decimal
