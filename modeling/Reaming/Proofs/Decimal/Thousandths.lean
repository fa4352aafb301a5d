import Mathlib.Algebra.Order.Field.Rat
import Mathlib.Data.Nat.Prime.Basic
import Mathlib.Tactic.Linarith
import Mathlib.Tactic.NormNum
import Reaming.Decimal.Numeral
import Reaming.Decimal.Printer
import Reaming.Proofs.Decimal.Nearest

namespace Reaming.Decimal

def thousandths (units : Nat) : Nat := roundHalfEven (units * 1000) one

def unitsOfThousandths (count : Nat) : Nat := nearest (count * one) 1000

theorem apart_of_roundings {u count y unit : Nat}
    (round : 2 * (u * 1000) ≤ 2 * (count * unit) + unit ∧
      2 * (count * unit) ≤ 2 * (u * 1000) + unit)
    (back : apart (count * unit) (y * 1000) ≤ apart (count * unit) (u * 1000)) :
    1000 * apart y u ≤ unit := by
  generalize count * unit = r at *
  unfold apart at *
  omega

/-- Rounding twice, to thousandths and to doubles, moves a magnitude by a thousandth at most. -/
theorem apart_le_thousandth {m : Nat} (k : Nat) (small : m < 2 ^ 53) :
    1000 * apart (unitsOfThousandths (thousandths (m * 2 ^ k))) (m * 2 ^ k) ≤ one :=
  apart_of_roundings (roundHalfEven_near one_pos) (nearest_le (by decide) small)

/-- A thousandth is no whole number of units. -/
theorem thousandth_not_units (n : Nat) : 1000 * n ≠ one := by
  intro h
  have hdvd : 5 ∣ 2 ^ unitExponent := by
    change 5 ∣ one
    exact ⟨200 * n, by omega⟩
  have hfive : 5 ∣ 2 := Nat.prime_five.dvd_of_dvd_pow hdvd
  omega

theorem apart_lt_thousandth {m : Nat} (k : Nat) (small : m < 2 ^ 53) :
    1000 * apart (unitsOfThousandths (thousandths (m * 2 ^ k))) (m * 2 ^ k) < one :=
  Nat.lt_of_le_of_ne (apart_le_thousandth k small) (thousandth_not_units _)

theorem scaled_add_le {m k e : Nat} (small : m < 2 ^ 53) (bound : k ≤ e) :
    m * 2 ^ k + 2 ^ e ≤ 2 ^ (53 + e) := by
  have hk : 2 ^ k ≤ 2 ^ e := Nat.pow_le_pow_right (by decide) bound
  calc m * 2 ^ k + 2 ^ e ≤ m * 2 ^ e + 2 ^ e := Nat.add_le_add_right (Nat.mul_le_mul_left m hk) _
    _ = (m + 1) * 2 ^ e := (Nat.succ_mul m _).symm
    _ ≤ 2 ^ 53 * 2 ^ e := Nat.mul_le_mul_right _ small
    _ = 2 ^ (53 + e) := (Nat.pow_add 2 53 e).symm

/-- Even the largest double stays one when it is rounded to thousandths. -/
theorem unitsOfThousandths_lt {m k : Nat} (small : m < 2 ^ 53) (bound : k ≤ 2045) :
    unitsOfThousandths (thousandths (m * 2 ^ k)) < overflow := by
  have hapart := apart_lt_thousandth k small
  have hk : k ≤ pastExponent - 53 := by rw [pastExponent_eq]; omega
  have hroom := scaled_add_le small hk
  have hpast : 53 + (pastExponent - 53) = pastExponent := by rw [pastExponent_eq]
  rw [hpast] at hroom
  have hone : one ≤ 2 ^ (pastExponent - 53) :=
    Nat.pow_le_pow_right (by decide) (by rw [pastExponent_eq, unitExponent_eq]; decide)
  change _ < 2 ^ pastExponent
  unfold apart at hapart
  omega

/-- A count of thousandths that is read as a double is printed as that count again: the double from
which it came is no nearer to it than the one that is read. -/
theorem thousandths_unitsOfThousandths {m : Nat} (k : Nat) (small : m < 2 ^ 53) :
    thousandths (unitsOfThousandths (thousandths (m * 2 ^ k))) = thousandths (m * 2 ^ k) :=
  roundHalfEven_of_nearer one_pos (nearest_le (by decide) small)

theorem ofShape_finite (negative : Bool) (units : Nat) :
    Thousandths.ofShape (.finite negative units) =
      .whole (signed negative (thousandths units)) := by
  rw [Thousandths.ofShape, shiftLeft_units, Nat.one_mul]
  rfl

end Reaming.Decimal
