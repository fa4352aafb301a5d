import Reaming.Decimal.Printer
import Reaming.Proofs.Decimal.Nearest

namespace Reaming.Decimal

theorem bitsOfDecimal_zero (exponent : Int) : bitsOfDecimal 0 exponent = 0 := by
  cases exponent <;> rfl

theorem withDigits?_bits {bits units count : Nat} {d : Scientific}
    (h : withDigits? bits units count = some d) : d.bits = bits := by
  unfold withDigits? at h
  generalize neighbours units _ = ds at h
  have hfound := List.find?_some h
  exact of_decide_eq_true hfound

theorem Scientific.digits_ne_zero {d : Scientific} (h : d.bits ≠ 0) : d.digits ≠ 0 := by
  intro hzero
  rw [bits, hzero, bitsOfDecimal_zero] at h
  exact h rfl

theorem fewestDigits?_eq_some {bits : Nat} {d : Scientific} (h : fewestDigits? bits = some d) :
    d.bits = bits := by
  unfold fewestDigits? at h
  obtain ⟨count, _, hcount⟩ := List.exists_of_findSome?_eq_some h
  exact withDigits?_bits hcount

theorem bitsOfRatio_zero (den : Nat) : bitsOfRatio 0 den = 0 := by
  simp [bitsOfRatio, roundHalfEven]

/-- Within this range every power of ten is taken into account. -/
theorem bitsOfDecimal_eq (m : Nat) {e : Int} (low : -401 ≤ e) (high : e ≤ 400) :
    bitsOfDecimal m e = bitsOfRatio (m * 10 ^ e.toNat) (10 ^ (-e).toNat) := by
  by_cases hm : m = 0
  · rw [hm, bitsOfDecimal_zero, Nat.zero_mul, bitsOfRatio_zero]
  · cases e with
    | ofNat e =>
      have he : ¬ 400 < e := Int.not_lt.mpr high ∘ Int.ofNat_lt.mpr
      have hden : (-Int.ofNat e).toNat = 0 := Int.toNat_neg_natCast e
      rw [bitsOfDecimal, if_neg hm, if_neg he, hden, Nat.pow_zero]
      rfl
    | negSucc e =>
      have he : ¬ 400 + m.log2 < e := by omega
      rw [bitsOfDecimal, if_neg hm, if_neg he, Int.toNat_negSucc, Nat.pow_zero, Nat.mul_one]
      rfl

/-- Moving the point changes no number. -/
theorem bitsOfDecimal_shift (m : Nat) {j : Nat} {e : Int} (low : -401 ≤ e - j) (high : e ≤ 400) :
    bitsOfDecimal (m * 10 ^ j) (e - j) = bitsOfDecimal m e := by
  have hpow (k : Nat) : 0 < 10 ^ k := Nat.pow_pos (by decide)
  have hexponent : j + (e - j).toNat + (-e).toNat = e.toNat + (-(e - j)).toNat := by omega
  rw [bitsOfDecimal_eq _ low (by omega), bitsOfDecimal_eq m (by omega) high]
  apply bitsOfRatio_congr (hpow _) (hpow _)
  rw [Nat.mul_assoc m, Nat.mul_assoc m, Nat.mul_assoc m, ← Nat.pow_add, ← Nat.pow_add,
    ← Nat.pow_add, hexponent]

theorem Scientific.trim_eq (fuel : Nat) (d : Scientific) :
    ∃ j ≤ fuel, d = ⟨(d.trim fuel).digits * 10 ^ j, (d.trim fuel).exponent - j⟩ := by
  induction fuel generalizing d with
  | zero => exact ⟨0, Nat.le_refl 0, by simp [trim]⟩
  | succ fuel ih =>
    rw [trim]
    split
    · rename_i hzero
      obtain ⟨j, hj, heq⟩ := ih ⟨d.digits / 10, d.exponent + 1⟩
      refine ⟨j + 1, Nat.succ_le_succ hj, ?_⟩
      generalize trim fuel ⟨d.digits / 10, d.exponent + 1⟩ = t at heq
      obtain ⟨hdigits, hexponent⟩ := Scientific.mk.inj heq
      obtain ⟨m, e⟩ := d
      dsimp only at *
      rw [Nat.pow_succ, ← Nat.mul_assoc, ← hdigits]
      congr 1
      · omega
      · omega
    · exact ⟨0, Nat.zero_le _, by simp⟩

theorem Scientific.trim_digits_ne_zero (fuel : Nat) {d : Scientific} (h : d.digits ≠ 0) :
    (d.trim fuel).digits ≠ 0 := by
  obtain ⟨j, _, hd⟩ := d.trim_eq fuel
  intro hzero
  rw [hzero, Nat.zero_mul] at hd
  exact h (congrArg Scientific.digits hd)

@[irreducible] def leadingPlaces : Nat := 324

theorem leadingPlaces_eq : leadingPlaces = 324 := by
  rw [leadingPlaces]

/-- The least double is above `10 ^ (-324)`. -/
theorem one_le_leading : one ≤ 10 ^ leadingPlaces := by
  rw [one, unitExponent_eq, leadingPlaces_eq]
  decide +kernel

theorem shiftRight_units (n : Nat) : n >>> 1074 = n / one := by
  rw [← unitExponent_eq]
  exact Nat.shiftRight_eq_div_pow n unitExponent

/-- A magnitude is no less than the power of ten of its first digit. -/
theorem leadingExponent_spec {units : Nat} (pos : 0 < units) :
    ∃ l : Nat, leadingExponent units = (l : Int) - 324 ∧
      10 ^ l * one ≤ units * 10 ^ leadingPlaces := by
  generalize hq : units * 10 ^ leadingPlaces / one = q
  have hlead : leadingExponent units = ((Nat.toDigits 10 q).length : Int) - 325 := by
    rw [leadingExponent, ← hq, shiftRight_units, ← leadingPlaces_eq]
    rfl
  have hlength : 0 < (Nat.toDigits 10 q).length := Nat.length_toDigits_pos
  have hfirst : 10 ^ ((Nat.toDigits 10 q).length - 1) ≤ q := by
    by_cases hone : (Nat.toDigits 10 q).length = 1
    · rw [hone, Nat.sub_self, Nat.pow_zero, ← hq]
      exact Nat.div_pos (Nat.le_trans one_le_leading (Nat.le_mul_of_pos_left _ pos)) one_pos
    · apply Nat.le_of_not_lt
      intro hlt
      have hle := (Nat.length_toDigits_le_iff (by decide) (by omega)).mpr hlt
      omega
  refine ⟨(Nat.toDigits 10 q).length - 1, by rw [hlead]; omega, ?_⟩
  rw [← hq, Nat.le_div_iff_mul_le one_pos] at hfirst
  rwa [hq] at hfirst

/-- The first digit of a double lies within the range of the powers of ten. -/
theorem leadingExponent_bounds {units : Nat} (pos : 0 < units) (below : units < overflow) :
    -324 ≤ leadingExponent units ∧ leadingExponent units ≤ 381 := by
  obtain ⟨l, hl, hle⟩ := leadingExponent_spec pos
  rw [hl]
  refine ⟨by omega, ?_⟩
  obtain ⟨n, hn⟩ : ∃ n : Nat, n = 706 := ⟨706, rfl⟩
  have hpast : overflow * 10 ^ leadingPlaces ≤ 10 ^ n * one := by
    rw [overflow, pastExponent_eq, leadingPlaces_eq, one, unitExponent_eq, hn]
    decide +kernel
  have hlt : 10 ^ l * one < 10 ^ n * one :=
    calc 10 ^ l * one ≤ units * 10 ^ leadingPlaces := hle
      _ < overflow * 10 ^ leadingPlaces :=
        Nat.mul_lt_mul_of_pos_right below (Nat.pow_pos (by decide))
      _ ≤ 10 ^ n * one := hpast
  have hpow := (Nat.pow_lt_pow_iff_right (by decide)).mp (Nat.lt_of_mul_lt_mul_right hlt)
  omega

/-- The first neighbour is at most half a step away. -/
theorem neighbours_head (units : Nat) (e : Int) : ∃ m ds, neighbours units e = ⟨m, e⟩ :: ds ∧
    2 * apart (m * (10 ^ e.toNat * one)) (units * 10 ^ (-e).toNat) ≤ 10 ^ e.toNat * one := by
  have hden : 0 < 10 ^ e.toNat * one := Nat.mul_pos (Nat.pow_pos (by decide)) one_pos
  unfold neighbours
  rw [shiftLeft_units, Nat.pow_eq, Nat.pow_eq]
  generalize units * 10 ^ (-e).toNat = num
  generalize 10 ^ e.toNat * one = den at *
  have hsplit := Nat.div_add_mod' num den
  have hrest := Nat.mod_lt num hden
  dsimp only
  split
  · rename_i hnear
    refine ⟨num / den, _, rfl, ?_⟩
    unfold apart
    omega
  · rename_i hfar
    have hsucc : (num / den + 1) * den = num / den * den + den := Nat.succ_mul _ _
    refine ⟨num / den + 1, _, rfl, ?_⟩
    unfold apart
    omega

theorem mem_neighbours {units : Nat} {e : Int} {d : Scientific} (h : d ∈ neighbours units e) :
    d.exponent = e := by
  unfold neighbours at h
  dsimp only at h
  split at h <;> simp only [List.mem_cons, List.not_mem_nil, or_false] at h <;>
    rcases h with rfl | rfl <;> rfl

theorem withDigits?_exponent {bits units count : Nat} {d : Scientific}
    (h : withDigits? bits units count = some d) :
    d.exponent = leadingExponent units - (count - 1 : Nat) := by
  unfold withDigits? at h
  exact mem_neighbours (List.mem_of_find?_eq_some h)

/-- The nearest decimal of seventeen digits reads back as the double. -/
theorem withDigits?_seventeen {bits : Nat} (h : bits < 2047 * 2 ^ 52)
    (pos : 0 < unitsOfBits bits) : (withDigits? bits (unitsOfBits bits) 17).isSome = true := by
  obtain ⟨m, k, hm, _, hk, _, hunits⟩ := bits_scaled h
  have hbelow : unitsOfBits bits < overflow := hunits ▸ scaled_lt_overflow hm hk
  obtain ⟨l, hl, hfirst⟩ := leadingExponent_spec pos
  obtain ⟨hlow, hhigh⟩ := leadingExponent_bounds pos hbelow
  have hcount : ((17 - 1 : Nat) : Int) = 16 := rfl
  rw [withDigits?, hcount]
  generalize he : leadingExponent (unitsOfBits bits) - 16 = e
  obtain ⟨n, ds, hhead, hnear⟩ := neighbours_head (unitsOfBits bits) e
  have hden : 0 < 10 ^ (-e).toNat := Nat.pow_pos (by decide)
  have hdigits : 10 ^ 16 * (10 ^ e.toNat * one) ≤ unitsOfBits bits * 10 ^ (-e).toNat := by
    apply Nat.le_of_mul_le_mul_right _ (Nat.pow_pos (n := leadingPlaces) (by decide : 0 < 10))
    have hexponent : 16 + e.toNat + leadingPlaces = l + (-e).toNat := by
      rw [leadingPlaces_eq]
      omega
    calc 10 ^ 16 * (10 ^ e.toNat * one) * 10 ^ leadingPlaces
      _ = 10 ^ (16 + e.toNat + leadingPlaces) * one := by
        rw [Nat.pow_add, Nat.pow_add]
        ac_rfl
      _ = 10 ^ l * one * 10 ^ (-e).toNat := by
        rw [hexponent, Nat.pow_add]
        ac_rfl
      _ ≤ unitsOfBits bits * 10 ^ leadingPlaces * 10 ^ (-e).toNat := Nat.mul_le_mul_right _ hfirst
      _ = unitsOfBits bits * 10 ^ (-e).toNat * 10 ^ leadingPlaces := Nat.mul_right_comm _ _ _
  have hnearest : nearest (n * 10 ^ e.toNat * one) (10 ^ (-e).toNat) = unitsOfBits bits := by
    rw [hunits] at hnear hdigits ⊢
    apply nearest_of_close hden hm
    rw [Nat.mul_assoc n]
    omega
  have hbits : Scientific.bits ⟨n, e⟩ = bits := by
    have hlow' : -401 ≤ e := by omega
    have hhigh' : e ≤ 400 := by omega
    rw [Scientific.bits, bitsOfDecimal_eq n hlow' hhigh']
    obtain ⟨hfinite, hvalue⟩ := @bitsOfRatio_eq (n * 10 ^ e.toNat) _ hden (hnearest ▸ hbelow)
    exact unitsOfBits_inj hfinite h (hvalue.trans hnearest)
  rw [hhead, List.find?_isSome]
  exact ⟨_, List.mem_cons_self, decide_eq_true hbits⟩

/-- Every double above zero has a decimal that reads back as it, of a range that is taken into
account. -/
theorem fewestDigits?_isSome {bits : Nat} (h : bits < 2047 * 2 ^ 52)
    (pos : 0 < unitsOfBits bits) : ∃ d, fewestDigits? bits = some d ∧ d.bits = bits ∧
      -340 ≤ d.exponent ∧ d.exponent ≤ 381 := by
  have hsome : (fewestDigits? bits).isSome = true := by
    rw [fewestDigits?, List.isSome_findSome?, List.any_eq_true]
    exact ⟨17, by decide, withDigits?_seventeen h pos⟩
  obtain ⟨d, hd⟩ := Option.isSome_iff_exists.mp hsome
  obtain ⟨count, hcount, hfound⟩ := List.exists_of_findSome?_eq_some hd
  obtain ⟨m, k, hm, _, hk, _, hunits⟩ := bits_scaled h
  obtain ⟨hlow, hhigh⟩ := leadingExponent_bounds pos (hunits ▸ scaled_lt_overflow hm hk)
  have hrange := List.mem_range'_1.mp hcount
  have hexponent := withDigits?_exponent hfound
  exact ⟨d, hd, fewestDigits?_eq_some hd, by omega, by omega⟩

/-- The shortest decimal of a double reads back as it. -/
theorem shortest_bits {bits : Nat} (h : bits < 2047 * 2 ^ 52) (pos : 0 < unitsOfBits bits) :
    (shortest bits).bits = bits ∧ -340 ≤ (shortest bits).exponent ∧
      (shortest bits).exponent ≤ 399 := by
  obtain ⟨d, hd, hbits, hlow, hhigh⟩ := fewestDigits?_isSome h pos
  rw [shortest, hd, Option.map_some, Option.getD_some]
  obtain ⟨j, hj, htrim⟩ := d.trim_eq 18
  generalize d.trim 18 = t at htrim
  have hexponent : d.exponent = t.exponent - j := congrArg Scientific.exponent htrim
  refine ⟨?_, by omega, by omega⟩
  rw [← hbits, htrim, Scientific.bits, Scientific.bits,
    bitsOfDecimal_shift _ (by omega) (by omega)]

/-- Only zero is written with no digit but zeros. -/
theorem shortest_digits_ne_zero {bits : Nat} (h : unitsOfBits bits ≠ 0) :
    (shortest bits).digits ≠ 0 := by
  have hbits : bits ≠ 0 := by
    rintro rfl
    exact h (unitsOfBits_subnormal (Nat.two_pow_pos 52))
  rw [shortest]
  cases hd : fewestDigits? bits with
  | none => exact h
  | some d =>
    rw [Option.map_some, Option.getD_some]
    apply Scientific.trim_digits_ne_zero
    apply Scientific.digits_ne_zero
    rwa [fewestDigits?_eq_some hd]

/-- The pattern of a finite double without its sign. -/
theorem bits_of_shape {x : Float} {negative : Bool} {units : Nat}
    (h : shape x = .finite negative units) : x.toBits.toNat % (1 <<< 63) < 2047 * 2 ^ 52 ∧
      unitsOfBits (x.toBits.toNat % (1 <<< 63)) = units := by
  rw [shape, Shape.ofBits_eq] at h
  have hshift : (1 : Nat) <<< 63 = 2 ^ 63 := rfl
  rw [hshift]
  split at h
  · rename_i hfinite
    exact ⟨hfinite, (Shape.finite.inj h).2⟩
  · split at h <;> cases h

end Reaming.Decimal
