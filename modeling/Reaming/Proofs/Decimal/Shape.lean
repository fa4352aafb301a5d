import Mathlib.Algebra.Ring.Nat
import Reaming.Decimal.Binary64

namespace Reaming.Decimal
open Float.Model Float.Model.UnpackedFloat

def isNegative : Sign → Bool
  | .negative => true
  | .positive => false

/-- An unpacked double and a shape tell the same number. A finite one has a mantissa of at most 53
bits, and no fewer unless its exponent is the least. -/
inductive Agrees : UnpackedFloat → Shape → Prop where
  | nan : Agrees .notANumber .nan
  | infinite (s : Sign) : Agrees (.infinity s) (.infinite (isNegative s))
  | zero (s : Sign) : Agrees (.zero s) (.finite (isNegative s) 0)
  | finite (s : Sign) (m k : Nat) (pos : 0 < m) (small : m < 2 ^ 53)
      (full : 2 ^ 52 ≤ m ∨ k = 0) (bound : k ≤ 2045) :
      Agrees (.finite s m (k - 1074) pos) (.finite (isNegative s) (m * 2 ^ k))

theorem toNat_unpackMantissa (b : BitVec Format.binary64.numBits) :
    (unpackMantissa b).toNat = b.toNat % 2 ^ 52 := by
  simp [unpackMantissa, BitVec.extractLsb_toNat]

theorem toNat_unpackExponent (b : BitVec Format.binary64.numBits) :
    (unpackExponent b).toNat = b.toNat / 2 ^ 52 % 2 ^ 11 := by
  simp [unpackExponent, BitVec.extractLsb_toNat, Nat.shiftRight_eq_div_pow]

theorem isNegative_unpackSign (b : BitVec Format.binary64.numBits) :
    isNegative (Sign.ofBitVec (unpackSign b)) = decide (2 ^ 63 ≤ b.toNat) := by
  have hb : b.toNat < 2 ^ 64 := b.isLt
  have hn : (unpackSign b).toNat = b.toNat / 2 ^ 63 % 2 := by
    change (BitVec.extractLsb 63 63 b).toNat = _
    rw [BitVec.extractLsb_toNat, Nat.shiftRight_eq_div_pow]
  by_cases h : 2 ^ 63 ≤ b.toNat
  · have hs : unpackSign b = 1#1 := BitVec.eq_of_toNat_eq (by rw [hn]; simp; omega)
    rw [hs, decide_eq_true h]
    rfl
  · have hs : unpackSign b = 0#1 := BitVec.eq_of_toNat_eq (by rw [hn]; simp; omega)
    rw [hs, decide_eq_false h]
    rfl

/-- The shifts and the masks of a pattern are divisions by powers of two. -/
theorem unitsOfBits_eq (bits : Nat) :
    unitsOfBits bits = if bits / 2 ^ 52 = 0 then bits % 2 ^ 52
      else (2 ^ 52 + bits % 2 ^ 52) * 2 ^ (bits / 2 ^ 52 - 1) := by
  simp only [unitsOfBits, Nat.shiftLeft_eq, Nat.shiftRight_eq_div_pow, Nat.one_mul]

theorem Shape.ofBits_eq (bits : Nat) :
    Shape.ofBits bits = if bits % 2 ^ 63 < 2047 * 2 ^ 52 then
        .finite (decide (2 ^ 63 ≤ bits)) (unitsOfBits (bits % 2 ^ 63))
      else if bits % 2 ^ 63 = 2047 * 2 ^ 52 then .infinite (decide (2 ^ 63 ≤ bits))
      else .nan := by
  simp only [Shape.ofBits, Nat.shiftLeft_eq, Nat.one_mul]

theorem unitsOfBits_subnormal {m : Nat} (h : m < 2 ^ 52) : unitsOfBits m = m := by
  have hs : m / 2 ^ 52 = 0 := Nat.div_eq_of_lt h
  simp only [unitsOfBits_eq, hs, ↓reduceIte]
  exact Nat.mod_eq_of_lt h

theorem unitsOfBits_normal {k m : Nat} (h : m < 2 ^ 52) :
    unitsOfBits ((k + 1) * 2 ^ 52 + m) = (2 ^ 52 + m) * 2 ^ k := by
  have hs : ((k + 1) * 2 ^ 52 + m) / 2 ^ 52 = k + 1 := by omega
  have hf : ((k + 1) * 2 ^ 52 + m) % 2 ^ 52 = m := by omega
  simp only [unitsOfBits_eq, hs, hf, Nat.succ_ne_zero, ↓reduceIte, Nat.add_sub_cancel]

def Shape.ofFields (negative : Bool) (exponent fraction : Nat) : Shape :=
  match exponent with
  | 0 => .finite negative fraction
  | k + 1 =>
    if k < 2046 then .finite negative ((2 ^ 52 + fraction) * 2 ^ k)
    else if fraction = 0 then .infinite negative else .nan

theorem ofBits_eq_ofFields {n e m : Nat} (negative : Bool) (he : e < 2 ^ 11) (hm : m < 2 ^ 52)
    (hn : n = (if negative then 2 ^ 63 else 0) + (e * 2 ^ 52 + m)) :
    Shape.ofBits n = .ofFields negative e m := by
  have hmag : n % 2 ^ 63 = e * 2 ^ 52 + m := by
    cases negative <;> simp only [Bool.false_eq_true, ↓reduceIte] at hn <;> omega
  have hsign : decide (2 ^ 63 ≤ n) = negative := by
    cases negative <;> simp only [Bool.false_eq_true, ↓reduceIte] at hn <;> simp <;> omega
  simp only [Shape.ofBits_eq, hmag, hsign]
  unfold Shape.ofFields
  cases e with
  | zero =>
    rw [Nat.zero_mul, Nat.zero_add, if_pos (by omega), unitsOfBits_subnormal hm]
  | succ k =>
    by_cases hk : k < 2046
    · rw [if_pos (by omega), unitsOfBits_normal hm]
      simp [hk]
    · obtain rfl : k = 2046 := by omega
      rw [if_neg (by omega)]
      by_cases hz : m = 0
      · simp [hz]
      · simp [hz]

/-- A pattern is its sign, its exponent and its fraction side by side. -/
theorem toNat_eq_fields (b : BitVec Format.binary64.numBits) :
    b.toNat = (if isNegative (Sign.ofBitVec (unpackSign b)) then 2 ^ 63 else 0) +
      ((unpackExponent b).toNat * 2 ^ 52 + (unpackMantissa b).toNat) := by
  have hb : b.toNat < 2 ^ 64 := b.isLt
  rw [toNat_unpackMantissa, toNat_unpackExponent, isNegative_unpackSign]
  by_cases h : 2 ^ 63 ≤ b.toNat
  · rw [decide_eq_true h, if_pos rfl]
    omega
  · rw [decide_eq_false h, if_neg Bool.false_ne_true]
    omega

/-- The two readings of a bit pattern agree. -/
theorem agrees_unpack (b : BitVec Format.binary64.numBits) :
    Agrees (UnpackedFloat.unpack .binary64 b) (Shape.ofBits b.toNat) := by
  have hm : (unpackMantissa b).toNat < 2 ^ 52 := (unpackMantissa b).isLt
  have he : (unpackExponent b).toNat < 2 ^ 11 := (unpackExponent b).isLt
  rw [ofBits_eq_ofFields _ he hm (toNat_eq_fields b)]
  have happ : (1#1 ++ unpackMantissa b).toNat = 2 ^ 52 + (unpackMantissa b).toNat := by
    rw [BitVec.toNat_append, ← Nat.shiftLeft_add_eq_or_of_lt (unpackMantissa b).isLt]
    rfl
  have hones : unpackExponent b = -1#11 ↔ (unpackExponent b).toNat = 2047 :=
    BitVec.toNat_inj.symm
  have hnone : unpackExponent b = 0#11 ↔ (unpackExponent b).toNat = 0 := BitVec.toNat_inj.symm
  have hzero : unpackMantissa b = 0#52 ↔ (unpackMantissa b).toNat = 0 := BitVec.toNat_inj.symm
  unfold UnpackedFloat.unpack
  dsimp only
  generalize Sign.ofBitVec (unpackSign b) = s
  cases hE : (unpackExponent b).toNat with
  | zero =>
    rw [if_neg (by rw [hones]; omega), if_pos (by rw [hnone]; exact hE)]
    by_cases h : unpackMantissa b = 0#52
    · rw [dif_pos h, hzero.mp h]
      exact .zero s
    · rw [dif_neg h]
      have hpos : 0 < (unpackMantissa b).toNat := Nat.pos_of_ne_zero (fun h0 => h (hzero.mpr h0))
      have h := Agrees.finite s _ 0 hpos (by omega) (.inr rfl) (by omega)
      rw [Nat.pow_zero, Nat.mul_one] at h
      exact h
  | succ k =>
    by_cases hk : k < 2046
    · rw [if_neg (by rw [hones]; omega), if_neg (by rw [hnone]; omega)]
      have hbias : ((Format.binary64.exponentBias : Nat) : Int) = 1023 := rfl
      have hexp : ((k + 1 : Nat) : Int) - ((Format.binary64.exponentBias : Nat) + (52 : Nat)) =
          k - 1074 := by
        rw [hbias]
        omega
      rw [hexp, Shape.ofFields, if_pos hk, ← happ]
      exact .finite s (1#1 ++ unpackMantissa b).toNat k (by omega) (by omega)
        (.inl (by omega)) (by omega)
    · obtain rfl : k = 2046 := by omega
      rw [if_pos (by rw [hones]; exact hE)]
      split
      · rename_i h
        rw [hzero.mp h]
        exact .infinite s
      · rename_i h
        have hne : (unpackMantissa b).toNat ≠ 0 := fun h0 => h (hzero.mpr h0)
        simp only [Shape.ofFields, Nat.lt_irrefl, hne, ↓reduceIte]
        exact .nan

theorem toNat_packComponents (s : Sign) (e : BitVec 11) (m : BitVec 52) :
    (packComponents .binary64 s e m).toNat =
      (if isNegative s then 2 ^ 63 else 0) + (e.toNat * 2 ^ 52 + m.toNat) := by
  have hm := m.isLt
  have he := e.isLt
  unfold packComponents
  rw [BitVec.toNat_append, ← Nat.shiftLeft_add_eq_or_of_lt hm, BitVec.toNat_append,
    ← Nat.shiftLeft_add_eq_or_of_lt he]
  cases s
  · simp [Sign.toBitVec, isNegative, Nat.shiftLeft_eq]
    omega
  · simp [Sign.toBitVec, isNegative, Nat.shiftLeft_eq]

theorem ofBits_packComponents (s : Sign) (e : BitVec 11) (m : BitVec 52) :
    Shape.ofBits (packComponents .binary64 s e m).toNat =
      .ofFields (isNegative s) e.toNat m.toNat :=
  ofBits_eq_ofFields _ e.isLt m.isLt (toNat_packComponents s e m)

theorem pack_finite (s : Sign) {m : Nat} (e : Int) (pos : 0 < m) :
    UnpackedFloat.pack .binary64 (.finite s m e pos) =
      let exponent := (e + (Format.binary64.exponentBias : Nat) + (52 : Nat)).toNat
      if 2 ^ 11 ≤ exponent + 1 then packedInfinity .binary64 s
      else if m.log2 + 1 = 53 then packComponents .binary64 s (.ofNat 11 exponent) (.ofNat 52 m)
      else packComponents .binary64 s 0#11 (.ofNat 52 m) :=
  rfl

/-- Packing keeps the number. -/
theorem ofBits_pack {u : UnpackedFloat} {v : Shape} (h : Agrees u v) :
    Shape.ofBits (UnpackedFloat.pack .binary64 u).toNat = v := by
  cases h with
  | nan => rfl
  | infinite s => cases s <;> rfl
  | zero s => cases s <;> rfl
  | finite s m k pos small full bound =>
    have hexp : ((k : Int) - 1074 + (Format.binary64.exponentBias : Nat) + (52 : Nat)).toNat =
        k + 1 := by
      have hbias : ((Format.binary64.exponentBias : Nat) : Int) = 1023 := rfl
      rw [hbias]
      omega
    rw [pack_finite]
    dsimp only
    rw [hexp, if_neg (by omega)]
    by_cases hfull : 2 ^ 52 ≤ m
    · have hlog : m.log2 = 52 := by
        rw [Nat.log2_eq_iff (by omega)]
        exact ⟨hfull, small⟩
      have hfrac : (BitVec.ofNat 52 m).toNat = m - 2 ^ 52 := by
        rw [BitVec.toNat_ofNat]
        omega
      have hstep : (BitVec.ofNat 11 (k + 1)).toNat = k + 1 := by
        rw [BitVec.toNat_ofNat]
        omega
      rw [if_pos (by rw [hlog]), ofBits_packComponents, hfrac, hstep, Shape.ofFields,
        if_pos (by omega), Nat.add_sub_cancel' hfull]
    · obtain rfl : k = 0 := full.resolve_left hfull
      have hlog : m.log2 < 52 := (Nat.log2_lt (by omega)).mpr (by omega)
      have hfrac : (BitVec.ofNat 52 m).toNat = m := by
        rw [BitVec.toNat_ofNat]
        omega
      rw [if_neg (by omega), ofBits_packComponents, hfrac]
      change Shape.ofFields _ 0 _ = _
      rw [ Shape.ofFields, Nat.pow_zero, Nat.mul_one]

theorem shape_ofModel {u : UnpackedFloat} {v : Shape} (h : Agrees u v) :
    shape (.ofModel (.pack u)) = v :=
  ofBits_pack h

theorem agrees_shape (x : Float) : Agrees x.toModel.unpack (shape x) :=
  agrees_unpack _

theorem shape_ofBits (b : UInt64) : shape (.ofBits b) = .ofBits b.toNat :=
  ofBits_pack (agrees_unpack _)

end Reaming.Decimal
