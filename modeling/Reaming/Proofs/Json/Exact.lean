import Reaming.Json.Decode
import Reaming.Proofs.Decimal.Literal
import Reaming.Proofs.Decimal.Quotient
import Reaming.Proofs.Json.Numbers
import Reaming.Proofs.Ordered

namespace Reaming.Json

open Decimal

/-- What a double becomes when it is written and read. Nothing comes back of one that is not
finite, or whose number reads as more than the largest double. -/
def reread? (x : Float) : Option Float := float? (ofFloat x)

namespace Number

def lastExponent (n : Number) : Int := n.exponentValue - n.fraction.length

def rounded (n : Number) : Float :=
  ofMagnitudeBits n.negative (bitsOfDecimal (digitsValue (n.whole ++ n.fraction)) n.lastExponent)

/-- A number whose digits make a mantissa of 53 bits, and whose point is to be moved by a power of
ten that is a double. -/
structure Short (n : Number) : Prop where
  digits : digitsValue (n.whole ++ n.fraction) < 2 ^ 53
  left : -22 ≤ n.lastExponent
  right : n.lastExponent ≤ 22

instance (n : Number) : Decidable n.Short :=
  decidable_of_iff (digitsValue (n.whole ++ n.fraction) < 2 ^ 53 ∧ -22 ≤ n.lastExponent ∧
    n.lastExponent ≤ 22) ⟨fun ⟨hd, hl, hr⟩ => ⟨hd, hl, hr⟩, fun ⟨hd, hl, hr⟩ => ⟨hd, hl, hr⟩⟩

/-- Digits that fit are all taken. -/
theorem appendDigits_eq {n : Nat} {cs : List Char} (h : Nat.ofDigitChars 10 cs n < 2 ^ 64) :
    appendDigits n cs = (Nat.ofDigitChars 10 cs n, 0) := by
  induction cs generalizing n with
  | nil => rfl
  | cons c cs ih =>
    rw [Nat.ofDigitChars_cons] at h ⊢
    have hnext := le_ofDigitChars (10 * n + (c.toNat - '0'.toNat)) cs
    have hlt : 10 * n + (c.toNat - '0'.toNat) < 1 <<< 64 := Nat.lt_of_le_of_lt hnext h
    rw [appendDigits, if_pos hlt]
    exact ih h

theorem Short.toFloat?_eq {n : Number} (h : n.Short) : n.toFloat? =
    (movePoint? (ofRatio false (digitsValue (n.whole ++ n.fraction)) 1) n.lastExponent).map
      fun x => if n.negative then -x else x := by
  have hdigits := h.digits
  rw [digitsValue_eq, Nat.ofDigitChars_append] at hdigits ⊢
  have hwhole := le_ofDigitChars (Nat.ofDigitChars 10 n.whole 0) n.fraction
  have hexponent : n.exponentValue + (0 : Nat) - (n.fraction.length - 0 : Nat) = n.lastExponent := by
    rw [lastExponent]
    omega
  unfold toFloat?
  rw [appendDigits_eq (by omega)]
  dsimp only
  rw [appendDigits_eq (by omega)]
  dsimp only
  rw [hexponent]

theorem shape_powerOfTen {k : Nat} (h : k ≤ 22) :
    shape (powerOfTen k) = .finite false (10 ^ k * one) := by
  have hfive : 5 ^ k < 2 ^ 53 :=
    Nat.lt_of_le_of_lt (Nat.pow_le_pow_right (by decide) h) (by decide)
  have hten : 5 ^ k * 2 ^ k = 10 ^ k := (Nat.mul_pow 5 2 k).symm
  rw [powerOfTen, Nat.pow_eq, ← hten]
  exact shape_ofWhole hfive (Nat.le_trans h (by decide))

theorem nearest_short_lt {m k : Nat} (small : m < 2 ^ 53) (bound : k ≤ 22) {den : Nat}
    (pos : 0 < den) : nearest (m * 10 ^ k * one) den < overflow := by
  have hten : 10 ^ k ≤ 2 ^ 74 := Nat.le_trans (Nat.pow_le_pow_right (by decide) bound) (by decide)
  have hle : m * 10 ^ k * one ≤ 1 * 2 ^ (127 + unitExponent) * den := by
    calc m * 10 ^ k * one ≤ 2 ^ 53 * 2 ^ 74 * one :=
          Nat.mul_le_mul_right _ (Nat.mul_le_mul (Nat.le_of_lt small) hten)
      _ = 1 * 2 ^ (127 + unitExponent) := by
        rw [Nat.one_mul, Nat.pow_add 2 127, ← Nat.pow_add 2 53 74, one]
      _ ≤ 1 * 2 ^ (127 + unitExponent) * den := Nat.le_mul_of_pos_right _ pos
  exact Nat.lt_of_le_of_lt (nearest_le_of_le pos (by decide) hle)
    (scaled_lt_overflow (by decide) (by rw [unitExponent_eq]; decide))

/-- A short number has a nearest double, which does not overflow. -/
theorem Short.shape_rounded {n : Number} (h : n.Short) : shape n.rounded = .finite n.negative
    (nearest (digitsValue (n.whole ++ n.fraction) * 10 ^ n.lastExponent.toNat * one)
      (10 ^ (-n.lastExponent).toNat)) := by
  have hleft := h.left
  have hright := h.right
  have hden : 0 < 10 ^ (-n.lastExponent).toNat := Nat.pow_pos (by decide)
  obtain ⟨hfinite, hunits⟩ := bitsOfRatio_eq hden
    (nearest_short_lt h.digits (by omega : n.lastExponent.toNat ≤ 22) hden)
  rw [rounded, bitsOfDecimal_eq _ (by omega) (by omega),
    shape_ofMagnitudeBits n.negative hfinite, hunits]

theorem movePoint?_zero {e : Int} (left : -22 ≤ e) (right : e ≤ 22) :
    ∃ x, movePoint? (ofRatio false 0 1) e = some x ∧ shape x = .finite false 0 := by
  have hzero : shape (ofRatio false 0 1) = .finite false 0 := by decide +kernel
  have hbeq : (ofRatio false 0 1 == 0.0) = true := by decide +kernel
  unfold movePoint?
  by_cases he : 0 ≤ e
  · rw [if_pos he, if_pos hbeq]
    exact ⟨_, rfl, hzero⟩
  · have hten := @shape_powerOfTen e.natAbs (by omega)
    rw [if_neg he, if_pos (by omega)]
    exact ⟨_, rfl, shape_div_zero hzero hten
      (Nat.mul_pos (Nat.pow_pos (by decide)) Decimal.one_pos)⟩

theorem movePoint?_pos {m : Nat} {e : Int} (pos : 0 < m) (small : m < 2 ^ 53) (left : -22 ≤ e)
    (right : e ≤ 22) : ∃ x, movePoint? (ofRatio false m 1) e = some x ∧
      shape x = .finite false (nearest (m * 10 ^ e.toNat * one) (10 ^ (-e).toNat)) := by
  have hm := @shape_ofWhole m 0 small (Nat.zero_le _)
  rw [Nat.pow_zero, Nat.mul_one] at hm
  have hone := Decimal.one_pos
  have hunits : one ≤ m * one := Nat.le_mul_of_pos_left one pos
  have hpos : 0 < m * one := Nat.lt_of_lt_of_le hone hunits
  have hpow (k : Nat) : 0 < 10 ^ k := Nat.pow_pos (by decide)
  have hbelow := @nearest_short_lt m e.toNat small (by omega) _ (hpow (-e).toNat)
  unfold movePoint?
  by_cases he : 0 ≤ e
  · have hten := @shape_powerOfTen e.toNat (by omega)
    have hvalue : nearest (m * one * (10 ^ e.toNat * one)) one =
        nearest (m * 10 ^ e.toNat * one) (10 ^ (-e).toNat) := by
      apply nearest_congr hone (hpow _)
      rw [Int.toNat_eq_zero.mpr (by omega : -e ≤ 0), Nat.pow_zero]
      ac_rfl
    have hmul := shape_mul hm hten hunits (Nat.le_mul_of_pos_left one (hpow _)) (hvalue ▸ hbelow)
    have hfinite := isInf_of_shape hmul
    generalize ofRatio false m 1 * powerOfTen e.toNat = y at hmul hfinite
    rw [if_pos he, beq_zero_of_shape hm hpos, if_neg Bool.false_ne_true, if_neg (by omega)]
    dsimp only
    rw [hfinite]
    exact ⟨_, rfl, hvalue ▸ hmul⟩
  · have hten := @shape_powerOfTen e.natAbs (by omega)
    have hvalue : nearest (m * one * one) (10 ^ e.natAbs * one) =
        nearest (m * 10 ^ e.toNat * one) (10 ^ (-e).toNat) := by
      have habs : e.natAbs = (-e).toNat := by omega
      rw [Int.toNat_eq_zero.mpr (by omega : e ≤ 0), Nat.pow_zero, Nat.mul_one, habs]
      exact nearest_scale _ _ hone
    have hnear : 10 ^ e.natAbs * one ≤ m * one * 2 ^ 100 := by
      have hle : 10 ^ e.natAbs ≤ 2 ^ 100 :=
        Nat.le_trans (Nat.pow_le_pow_right (by decide) (by omega : e.natAbs ≤ 22)) (by decide)
      rw [Nat.mul_comm (m * one)]
      exact Nat.mul_le_mul hle hunits
    have hdiv := shape_div hm hten hpos (Nat.mul_pos (hpow _) hone) hnear (hvalue ▸ hbelow)
    rw [if_neg he, if_pos (by omega)]
    exact ⟨_, rfl, hvalue ▸ hdiv⟩

/-- Moving the point of a short number is exact but for one rounding. -/
theorem shape_movePoint? {m : Nat} {e : Int} (small : m < 2 ^ 53) (left : -22 ≤ e)
    (right : e ≤ 22) : ∃ x, movePoint? (ofRatio false m 1) e = some x ∧
      shape x = .finite false (nearest (m * 10 ^ e.toNat * one) (10 ^ (-e).toNat)) := by
  rcases Nat.eq_zero_or_pos m with rfl | pos
  · rw [Nat.zero_mul, Nat.zero_mul, nearest_zero]
    exact movePoint?_zero left right
  · exact movePoint?_pos pos small left right

theorem shape_signed {y : Float} {units : Nat} (h : shape y = .finite false units)
    (negative : Bool) : shape (if negative then -y else y) = .finite negative units := by
  cases negative with
  | false => exact h
  | true => exact shape_neg h

/-- A short number is read as the double nearest to it. -/
theorem Short.toFloat?_eq_rounded {n : Number} (h : n.Short) : n.toFloat? = some n.rounded := by
  obtain ⟨y, hy, hshape⟩ := shape_movePoint? h.digits h.left h.right
  rw [h.toFloat?_eq, hy]
  exact congrArg some
    (shape_injective ((shape_signed hshape n.negative).trans h.shape_rounded.symm))

theorem ofDigitChars_zeros (k v : Nat) : Nat.ofDigitChars 10 (zeros k) v = v * 10 ^ k := by
  induction k generalizing v with
  | zero => rw [Nat.pow_zero, Nat.mul_one]; rfl
  | succ k ih =>
    rw [zeros, List.replicate_succ, Nat.ofDigitChars_cons]
    have hrest := ih (10 * v + ('0'.toNat - '0'.toNat))
    rw [zeros] at hrest
    rw [hrest, Nat.sub_self, Nat.add_zero, Nat.pow_succ]
    ac_rfl

theorem exponentValue_nil {n : Number} (h : n.exponent = []) : n.exponentValue = 0 := by
  rw [exponentValue, h]
  rfl

theorem exponentValue_signed {n : Number} {e : Int}
    (h : n.exponent = (if e < 0 then '-' else '+') :: Nat.toDigits 10 e.natAbs) :
    n.exponentValue = e := by
  have hdigits : digitsValue (Nat.toDigits 10 e.natAbs) = e.natAbs := by
    rw [digitsValue_eq, Nat.ofDigitChars_ten_toDigits]
  rw [exponentValue, h]
  by_cases hneg : e < 0
  · rw [if_pos hneg]
    change -(digitsValue (Nat.toDigits 10 e.natAbs) : Int) = e
    rw [hdigits]
    omega
  · rw [if_neg hneg]
    change (digitsValue (Nat.toDigits 10 e.natAbs) : Int) = e
    rw [hdigits]
    omega

/-- A written decimal has its digits and its exponent, up to zeros at the end. -/
theorem value_ofScientific (negative : Bool) (d : Scientific) :
    ∃ j : Nat, digitsValue ((ofScientific negative d).whole ++ (ofScientific negative d).fraction) =
        d.digits * 10 ^ j ∧ (ofScientific negative d).lastExponent = d.exponent - j ∧
      (j = 0 ∨ j = d.exponent + 1) := by
  have hdigits : Nat.ofDigitChars 10 (Nat.toDigits 10 d.digits) 0 = d.digits :=
    Nat.ofDigitChars_ten_toDigits
  have hlength : 0 < (Nat.toDigits 10 d.digits).length := Nat.length_toDigits_pos
  unfold ofScientific lastExponent
  dsimp only
  generalize Nat.toDigits 10 d.digits = ds at hdigits hlength
  rw [digitsValue_eq]
  split
  · rw [exponentValue_nil (by split <;> [rfl; split <;> rfl])]
    split
    · refine ⟨d.exponent.toNat + 1, ?_, ?_, .inr (by omega)⟩
      · rw [Nat.ofDigitChars_append, Nat.ofDigitChars_append, hdigits, ofDigitChars_zeros,
          Nat.ofDigitChars_cons, Nat.ofDigitChars_nil, Nat.pow_succ, Nat.sub_self, Nat.add_zero]
        ac_rfl
      · rw [List.length_singleton]
        omega
    · split
      · refine ⟨0, ?_, ?_, .inl rfl⟩
        · rw [List.take_append_drop, hdigits, Nat.pow_zero, Nat.mul_one]
        · rw [List.length_drop]
          omega
      · refine ⟨0, ?_, ?_, .inl rfl⟩
        · rw [Nat.ofDigitChars_append, Nat.ofDigitChars_append, Nat.ofDigitChars_cons,
            Nat.ofDigitChars_nil, Nat.sub_self, Nat.mul_zero, ofDigitChars_zeros, Nat.zero_mul,
            hdigits, Nat.pow_zero, Nat.mul_one]
        · rw [List.length_append, zeros, List.length_replicate]
          omega
  · refine ⟨0, ?_, ?_, .inl rfl⟩
    · rw [List.take_append_drop, hdigits, Nat.pow_zero, Nat.mul_one]
    · rw [exponentValue_signed rfl, List.length_drop]
      omega

theorem negative_ofScientific (negative : Bool) (d : Scientific) :
    (ofScientific negative d).negative = negative := by
  unfold ofScientific
  dsimp only
  split
  · split
    · rfl
    · split <;> rfl
  · rfl

/-- The number that is written for a finite double has it as its nearest. -/
theorem rounded_ofFloat? {x : Float} {n : Number} (h : ofFloat? x = some n) : n.rounded = x := by
  apply shape_injective
  unfold ofFloat? at h
  cases hshape : shape x with
  | nan | infinite negative =>
    rw [hshape] at h
    cases h
  | finite negative units =>
    obtain ⟨hfinite, hunits⟩ := bits_of_shape hshape
    rw [hshape] at h
    dsimp only at h
    generalize x.toBits.toNat % (1 <<< 63) = bits at h hfinite hunits
    split at h
    · rename_i hzero
      have hdigits : digitsValue (['0'] ++ ['0']) = 0 := rfl
      have hunits : unitsOfBits 0 = 0 := unitsOfBits_subnormal (Nat.two_pow_pos 52)
      rw [← Option.some.inj h, hzero, rounded]
      dsimp only
      rw [hdigits, bitsOfDecimal_zero, shape_ofMagnitudeBits negative (by decide), hunits]
    · rename_i hne
      have hpos : 0 < unitsOfBits bits := hunits ▸ Nat.pos_of_ne_zero hne
      obtain ⟨hbits, hlow, hhigh⟩ := shortest_bits hfinite hpos
      obtain ⟨j, hvalue, hexponent, hbound⟩ := value_ofScientific negative (shortest bits)
      rw [← Option.some.inj h, rounded, negative_ofScientific, hvalue, hexponent]
      rw [Scientific.bits] at hbits
      rw [bitsOfDecimal_shift _ (by omega) (by omega), hbits,
        shape_ofMagnitudeBits negative hfinite, hunits]

end Number

/-- A double whose number is short comes back as it was. -/
theorem reread?_of_short {x : Float} {n : Number} (hn : Number.ofFloat? x = some n)
    (h : n.Short) : reread? x = some x := by
  rw [reread?, ofFloat, hn, float?, h.toFloat?_eq_rounded, Number.rounded_ofFloat? hn]

end Reaming.Json
