import Reaming.Proofs.Decimal.Arithmetic
import Reaming.Proofs.Decimal.Rounded

namespace Reaming.Decimal
open Float.Model Float.Model.UnpackedFloat

structure Unpacked (x : Float) (units m k : Nat) : Prop where
  pos : 0 < m
  eq : x.toModel.unpack = .finite .positive m ((k : Int) - 1074) pos
  small : m < 2 ^ 53
  full : 2 ^ 52 ≤ m ∨ k = 0
  bound : k ≤ 2045
  value : units = m * 2 ^ k

theorem unpacked_of_shape {x : Float} {units : Nat} (h : shape x = .finite false units)
    (pos : 0 < units) : ∃ m k, Unpacked x units m k := by
  have hx := agrees_shape x
  rw [h] at hx
  generalize hu : x.toModel.unpack = u at hx
  generalize hv : Shape.finite false units = v at hx
  cases hx with
  | nan | infinite s => cases hv
  | zero s =>
    injection hv with _ hzero
    exact absurd hzero (Nat.ne_of_gt pos)
  | finite s m k hm small full bound =>
    injection hv with hsign hunits
    cases s with
    | negative => cases hsign
    | positive => exact ⟨m, k, hm, hu, small, full, bound, hunits⟩

/-- A double that is one or more has a full mantissa. -/
theorem Unpacked.of_one_le {x : Float} {units m k : Nat} (h : Unpacked x units m k)
    (le : one ≤ units) : 1022 ≤ k ∧ 2 ^ 52 ≤ m := by
  have hlt : 2 ^ unitExponent < 2 ^ (53 + k) :=
    calc 2 ^ unitExponent ≤ units := le
      _ = m * 2 ^ k := h.value
      _ < 2 ^ 53 * 2 ^ k := Nat.mul_lt_mul_of_pos_right h.small (Nat.two_pow_pos k)
      _ = 2 ^ (53 + k) := (Nat.pow_add 2 53 k).symm
  have hk := (Nat.pow_lt_pow_iff_right (by decide)).mp hlt
  rw [unitExponent_eq] at hk
  exact ⟨by omega, h.full.resolve_right (by omega)⟩

theorem mul_eq_pack (x y : Float) :
    x * y = .ofModel (.pack (UnpackedFloat.mul .binary64 x.toModel.unpack y.toModel.unpack)) :=
  rfl

theorem div_eq_pack (x y : Float) :
    x / y = .ofModel (.pack (UnpackedFloat.div .binary64 x.toModel.unpack y.toModel.unpack)) :=
  rfl

theorem div_finite {m n : Nat} (e e' : Int) (pos : 0 < m) (pos' : 0 < n) :
    UnpackedFloat.div .binary64 (.finite .positive m e pos) (.finite .positive n e' pos') =
      roundWithAccuracy .binary64 .positive (divCore .binary64 m e n e').1
        (divCore .binary64 m e n e').2.1 (divCore .binary64 m e n e').2.2 :=
  rfl

theorem le_roundingStep {m : Nat} (k : Nat) (h : 2 ^ 52 ≤ m) : k ≤ roundingStep m k := by
  have hne : m ≠ 0 := Nat.ne_of_gt (Nat.lt_of_lt_of_le (Nat.two_pow_pos 52) h)
  have hlog := (Nat.le_log2 hne).mpr h
  unfold roundingStep
  omega

/-- The product of two doubles from one on is the double nearest to it. -/
theorem shape_mul {x y : Float} {u v : Nat} (hx : shape x = .finite false u)
    (hy : shape y = .finite false v) (hu : one ≤ u) (hv : one ≤ v)
    (below : nearest (u * v) one < overflow) :
    shape (x * y) = .finite false (nearest (u * v) one) := by
  obtain ⟨m, k, hm⟩ := unpacked_of_shape hx (Nat.lt_of_lt_of_le one_pos hu)
  obtain ⟨n, j, hn⟩ := unpacked_of_shape hy (Nat.lt_of_lt_of_le one_pos hv)
  obtain ⟨hk, hfull⟩ := hm.of_one_le hu
  obtain ⟨hj, _⟩ := hn.of_one_le hv
  have hmn : 2 ^ 52 ≤ m * n := Nat.le_trans hfull (Nat.le_mul_of_pos_right m hn.pos)
  have hexponent : (k : Int) - 1074 + ((j : Int) - 1074) = ((k + j - 1074 : Nat) : Int) - 1074 := by
    omega
  have hvalue : nearest (m * n * 2 ^ (k + j - 1074)) 1 = nearest (u * v) one := by
    apply nearest_congr Nat.one_pos one_pos
    rw [Nat.mul_one, hm.value, hn.value, one, unitExponent_eq, Nat.mul_assoc, ← Nat.pow_add,
      Nat.sub_add_cancel (by omega), Nat.pow_add]
    ac_rfl
  obtain ⟨r, i, hround, hr⟩ := @roundWithAccuracy_rounded (m * n) 1 .positive (k + j - 1074)
    Nat.one_pos (by rw [Nat.div_one]; exact Nat.mul_pos hm.pos hn.pos)
    (by rw [Nat.div_one]; exact le_roundingStep _ hmn)
  rw [hvalue] at hr
  rw [Nat.div_one, Nat.mod_one, ← hexponent] at hround
  rw [mul_eq_pack, hm.eq, hn.eq, ← hr]
  exact shape_ofModel (hround.agrees (hround.le_bound (hr ▸ below)))

/-- How a quotient is taken when the result is far above the least double: with at least 53 bits,
and the accuracy of the rest. -/
theorem divCore_eq {m k n j : Nat} (small : m.log2 ≤ 52)
    (near : n.log2 + j ≤ m.log2 + k + 1021) :
    divCore .binary64 m ((k : Int) - 1074) n ((j : Int) - 1074) =
      (m * 2 ^ (53 + n.log2 - m.log2) / n,
        ((m.log2 + k + 1021 - (n.log2 + j) : Nat) : Int) - 1074,
        accuracyOfFraction (m * 2 ^ (53 + n.log2 - m.log2) % n) n) := by
  have hbits : ((Format.binary64.mantissaBits : Nat) : Int) = 53 := rfl
  have hmin : Format.binary64.minExponent = -1074 := rfl
  have htarget : min ((k : Int) - 1074 - ((j : Int) - 1074))
      (Format.binary64.targetExponent (totalExponent m ((k : Int) - 1074) -
        totalExponent n ((j : Int) - 1074))) =
      ((m.log2 + k + 1021 - (n.log2 + j) : Nat) : Int) - 1074 := by
    rw [Format.targetExponent, totalExponent, totalExponent, hbits, hmin]
    omega
  have hshift : ((k : Int) - 1074 - ((j : Int) - 1074) -
      (((m.log2 + k + 1021 - (n.log2 + j) : Nat) : Int) - 1074)).toNat =
      53 + n.log2 - m.log2 := by
    omega
  unfold divCore
  simp only [htarget, hshift, Nat.shiftLeft_eq]

/-- The exponents of two doubles are no further apart than the doubles. -/
theorem Unpacked.log2_near {x y : Float} {u v m k n j c : Nat} (hm : Unpacked x u m k)
    (hn : Unpacked y v n j) (near : v ≤ u * 2 ^ c) : n.log2 + j ≤ m.log2 + k + c := by
  have hlt : 2 ^ (n.log2 + j) < 2 ^ (m.log2 + 1 + k + c) :=
    calc 2 ^ (n.log2 + j) = 2 ^ n.log2 * 2 ^ j := Nat.pow_add 2 _ _
      _ ≤ n * 2 ^ j := Nat.mul_le_mul_right _ (Nat.log2_self_le (Nat.ne_of_gt hn.pos))
      _ = v := hn.value.symm
      _ ≤ m * 2 ^ k * 2 ^ c := hm.value ▸ near
      _ < 2 ^ (m.log2 + 1) * 2 ^ k * 2 ^ c := by
        apply Nat.mul_lt_mul_of_pos_right _ (Nat.two_pow_pos c)
        exact Nat.mul_lt_mul_of_pos_right Nat.lt_log2_self (Nat.two_pow_pos k)
      _ = 2 ^ (m.log2 + 1 + k + c) := by rw [← Nat.pow_add, ← Nat.pow_add]
  have hexp := (Nat.pow_lt_pow_iff_right (by decide)).mp hlt
  omega

/-- The numerator is shifted far enough for a quotient of 53 bits. -/
theorem le_shifted_div {m n : Nat} (pos : 0 < m) (pos' : 0 < n) (small : m.log2 ≤ 52) :
    2 ^ 52 ≤ m * 2 ^ (53 + n.log2 - m.log2) / n := by
  rw [Nat.le_div_iff_mul_le pos']
  calc 2 ^ 52 * n ≤ 2 ^ 52 * 2 ^ (n.log2 + 1) := Nat.mul_le_mul_left _ (Nat.le_of_lt Nat.lt_log2_self)
    _ = 2 ^ m.log2 * 2 ^ (53 + n.log2 - m.log2) := by
      rw [← Nat.pow_add, ← Nat.pow_add]
      congr 1
      omega
    _ ≤ m * 2 ^ (53 + n.log2 - m.log2) :=
      Nat.mul_le_mul_right _ (Nat.log2_self_le (Nat.ne_of_gt pos))

/-- The quotient of two doubles is the double nearest to it, unless it is far below one. -/
theorem shape_div {x y : Float} {u v : Nat} (hx : shape x = .finite false u)
    (hy : shape y = .finite false v) (hu : 0 < u) (hv : 0 < v) (near : v ≤ u * 2 ^ 100)
    (below : nearest (u * one) v < overflow) :
    shape (x / y) = .finite false (nearest (u * one) v) := by
  obtain ⟨m, k, hm⟩ := unpacked_of_shape hx hu
  obtain ⟨n, j, hn⟩ := unpacked_of_shape hy hv
  have hlog : m.log2 ≤ 52 := Nat.le_of_lt_succ ((Nat.log2_lt (Nat.ne_of_gt hm.pos)).mpr hm.small)
  have hnear : n.log2 + j ≤ m.log2 + k + 1021 :=
    Nat.le_trans (hm.log2_near hn near) (by omega)
  have hq := le_shifted_div hm.pos hn.pos hlog
  have hvalue : nearest (m * 2 ^ (53 + n.log2 - m.log2) *
      2 ^ (m.log2 + k + 1021 - (n.log2 + j))) n = nearest (u * one) v := by
    apply nearest_congr hn.pos hv
    have hsum : 53 + n.log2 - m.log2 + (m.log2 + k + 1021 - (n.log2 + j)) + j =
        k + unitExponent := by
      rw [unitExponent_eq]
      omega
    rw [hm.value, hn.value, one, Nat.mul_assoc m, ← Nat.pow_add, Nat.mul_assoc m,
      Nat.mul_left_comm _ n, ← Nat.pow_add, hsum, Nat.pow_add]
    ac_rfl
  obtain ⟨r, i, hround, hr⟩ := @roundWithAccuracy_rounded (m * 2 ^ (53 + n.log2 - m.log2)) n
    .positive (m.log2 + k + 1021 - (n.log2 + j)) hn.pos
    (Nat.lt_of_lt_of_le (Nat.two_pow_pos 52) hq) (le_roundingStep _ hq)
  rw [hvalue] at hr
  have hdiv : UnpackedFloat.div .binary64 x.toModel.unpack y.toModel.unpack =
      roundWithAccuracy .binary64 .positive (m * 2 ^ (53 + n.log2 - m.log2) / n)
        (((m.log2 + k + 1021 - (n.log2 + j) : Nat) : Int) - 1074)
        (accuracyOfFraction (m * 2 ^ (53 + n.log2 - m.log2) % n) n) := by
    rw [hm.eq, hn.eq, div_finite, divCore_eq hlog hnear]
  rw [div_eq_pack, hdiv, ← hr]
  exact shape_ofModel (hround.agrees (hround.le_bound (hr ▸ below)))

theorem shape_div_zero {x y : Float} {units : Nat} (hx : shape x = .finite false 0)
    (hy : shape y = .finite false units) (pos : 0 < units) : shape (x / y) = .finite false 0 := by
  obtain ⟨s, hs, hzero⟩ := unpack_of_zero hx
  obtain ⟨m, k, hm⟩ := unpacked_of_shape hy pos
  cases s with
  | negative => cases hs
  | positive =>
    rw [div_eq_pack, hzero, hm.eq]
    exact shape_ofModel (.zero .positive)

end Reaming.Decimal
