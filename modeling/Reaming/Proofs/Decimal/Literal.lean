import Mathlib
import Reaming.Proofs.Decimal.Digits
import Reaming.Proofs.Decimal.Nearest
import Reaming.Proofs.Decimal.Zero
import Reaming.Scalar

namespace Reaming.Decimal
open Float.Model Float.Model.UnpackedFloat

theorem isNegative_injective {s t : Sign} (h : isNegative s = isNegative t) : s = t :=
  match s, t, h with
  | .positive, .positive, _ => rfl
  | .negative, .negative, _ => rfl

theorem Agrees.unique {u u' : UnpackedFloat} {v : Shape} (h : Agrees u v) (h' : Agrees u' v) :
    u = u' := by
  cases h with
  | nan => cases h'; rfl
  | infinite s =>
    generalize hv : Shape.infinite (isNegative s) = v at h'
    cases h' with
    | infinite t => rw [isNegative_injective (Shape.infinite.inj hv)]
    | nan | zero t | finite t m k pos small full bound => cases hv
  | zero s =>
    generalize hv : Shape.finite (isNegative s) 0 = v at h'
    cases h' with
    | zero t => rw [isNegative_injective (Shape.finite.inj hv).1]
    | nan | infinite t => cases hv
    | finite t m k pos small full bound =>
      have hzero := (Shape.finite.inj hv).2
      exact absurd hzero (Nat.ne_of_lt (Nat.mul_pos pos (Nat.two_pow_pos k)))
  | finite s m k pos small full bound =>
    generalize hv : Shape.finite (isNegative s) (m * 2 ^ k) = v at h'
    cases h' with
    | nan | infinite t => cases hv
    | zero t =>
      have hzero := (Shape.finite.inj hv).2
      exact absurd hzero.symm (Nat.ne_of_lt (Nat.mul_pos pos (Nat.two_pow_pos k)))
    | finite t m' k' pos' small' full' bound' =>
      obtain ⟨hsign, hunits⟩ := Shape.finite.inj hv
      obtain ⟨rfl, rfl⟩ := scaled_injective small small' full full' hunits
      rw [isNegative_injective hsign]

/-- A double is settled by the number it stands for and its sign. -/
theorem shape_injective {x y : Float} (h : shape x = shape y) : x = y :=
  float_ext ((agrees_shape x).unique (h ▸ agrees_shape y))

/-- The point of a whole number, and the exponent of the last place of the least double. -/
def lastPlace : List Char := ['.', 'e', '-', '1', '0', '7', '4']

/-- So many units as a decimal with an exponent of ten: each unit is `5 ^ 1074` of the last
place. -/
def literal (negative : Bool) (units : Nat) : List Char :=
  let digits := Nat.toDigits 10 (units * 5 ^ unitExponent) ++ lastPlace
  if negative then '-' :: digits else digits

theorem decimal?_literal (negative : Bool) (n : Nat) :
    decimal? negative (Nat.toDigits 10 n ++ lastPlace) =
      some (.decimal negative n (-1074)) := by
  obtain ⟨hwhole, hpoint⟩ := takeWhile_digits (Nat.toDigits 10 n) lastPlace
    (fun c hc => Nat.isDigit_of_mem_toDigits (by decide) (by decide) hc) (by rintro c ⟨⟩; rfl)
  have hfraction : fractionPart lastPlace = ([], ['e', '-', '1', '0', '7', '4']) := by decide
  have hexponent : exponentPart? ['e', '-', '1', '0', '7', '4'] = some (-1074) := by
    simp [exponentPart?, takeSign, digitsValue]
  rw [decimal?, hwhole, hpoint, hfraction]
  dsimp only
  rw [if_neg fun h => Nat.toDigits_ne_nil h.1, hexponent, List.append_nil, digitsValue_eq,
    Nat.ofDigitChars_ten_toDigits]
  rfl

theorem read?_literal (negative : Bool) (units : Nat) : Numeral.read? (literal negative units) =
    some (.decimal negative (units * 5 ^ unitExponent) (-1074)) := by
  have hpoint (n : Nat) : '.' ∈ Nat.toDigits 10 n ++ lastPlace :=
    List.mem_append_right _ (by decide)
  cases negative with
  | true =>
    have hsign : takeSign (literal true units) =
        (true, Nat.toDigits 10 (units * 5 ^ unitExponent) ++ lastPlace) := rfl
    exact (read?_of_mem hsign (hpoint _) (.inr rfl)).trans (decimal?_literal true _)
  | false =>
    have hsign := takeSign_digits (Nat.toDigits 10 (units * 5 ^ unitExponent))
      (fun c hc => Nat.isDigit_of_mem_toDigits (by decide) (by decide) hc) Nat.toDigits_ne_nil
      lastPlace
    exact (read?_of_mem hsign (hpoint _) (.inr rfl)).trans (decimal?_literal false _)

/-- Five to the power of the units' exponent is far too long for the decimal to be taken for
zero. -/
theorem le_log2_literal {units : Nat} (pos : 0 < units) :
    1074 ≤ (units * 5 ^ unitExponent).log2 := by
  rw [Nat.le_log2 (Nat.ne_of_gt (Nat.mul_pos pos (Nat.pow_pos (by decide)))), ← unitExponent_eq]
  calc 2 ^ unitExponent ≤ 5 ^ unitExponent := Nat.pow_le_pow_left (by decide) _
    _ ≤ units * 5 ^ unitExponent := Nat.le_mul_of_pos_left _ pos

theorem bitsOfDecimal_literal {units : Nat} (pos : 0 < units) :
    bitsOfDecimal (units * 5 ^ unitExponent) (-1074) =
      bitsOfRatio (units * 5 ^ unitExponent) (10 ^ unitExponent) := by
  have hlog := le_log2_literal pos
  have hpos : 0 < units * 5 ^ unitExponent := Nat.mul_pos pos (Nat.pow_pos (by decide))
  have hexponent : (-1074 : Int) = .negSucc 1073 := rfl
  have hplaces : 1073 + 1 = unitExponent := unitExponent_eq.symm
  rw [hexponent, bitsOfDecimal, if_neg (Nat.ne_of_gt hpos), if_neg (by omega), hplaces,
    Nat.pow_eq]

theorem shape_literal (negative : Bool) {m k : Nat} (small : m < 2 ^ 53) (bound : k ≤ 2045) :
    shape (Numeral.decimal negative (m * 2 ^ k * 5 ^ unitExponent) (-1074)).toFloat =
      .finite negative (m * 2 ^ k) := by
  rw [Numeral.toFloat]
  rcases Nat.eq_zero_or_pos (m * 2 ^ k) with hzero | hpos
  · rw [hzero, Nat.zero_mul]
    cases negative <;> decide +kernel
  · have hunits : m * 2 ^ k * 5 ^ unitExponent * one = m * 2 ^ k * 10 ^ unitExponent := by
      rw [one, Nat.mul_assoc, ← Nat.mul_pow]
    have hnearest := @nearest_self (10 ^ unitExponent) m k (Nat.pow_pos (by decide)) small
    rw [← hunits] at hnearest
    obtain ⟨hbits, hvalue⟩ := bitsOfRatio_eq (Nat.pow_pos (by decide))
      (hnearest ▸ scaled_lt_overflow small bound)
    rw [bitsOfDecimal_literal hpos, shape_ofMagnitudeBits negative hbits, hvalue, hnearest]

/-- Every double is what some text reads as. -/
theorem exists_read? (x : Float) : ∃ text, Scalar.read? text = some x := by
  cases hx : shape x with
  | nan =>
    have hnan : shape (Numeral.toFloat .nan) = .nan := by decide +kernel
    exact ⟨"NaN".toList, congrArg some (shape_injective (hnan.trans hx.symm))⟩
  | infinite negative =>
    have hinf (n : Bool) : shape (Numeral.toFloat (.infinite n)) = .infinite n := by
      cases n <;> decide +kernel
    have hread : Numeral.read? (if negative then "-inf".toList else "inf".toList) =
        some (.infinite negative) := by
      cases negative <;> decide
    refine ⟨_, (congrArg (Option.map Numeral.toFloat) hread).trans ?_⟩
    exact congrArg some (shape_injective ((hinf negative).trans hx.symm))
  | finite negative units =>
    obtain ⟨m, k, small, bound, rfl⟩ := scaled_of_shape hx
    refine ⟨literal negative (m * 2 ^ k),
      (congrArg (Option.map Numeral.toFloat) (read?_literal negative _)).trans ?_⟩
    exact congrArg some (shape_injective ((shape_literal negative small bound).trans hx.symm))

end Reaming.Decimal
