import Reaming.Proofs.Decimal.Order

namespace Reaming.Decimal
open Float.Model Float.Model.UnpackedFloat

def apart (m n : Nat) : Nat := (m - n) + (n - m)

theorem roundHalfEven_le {num den k : Nat} (pos : 0 < den) (h : num ≤ k * den) :
    roundHalfEven num den ≤ k := by
  apply Nat.le_of_not_lt
  intro hk
  have hnear := (@roundHalfEven_near num den pos).2
  have hmul := Nat.mul_le_mul_right den hk
  rw [Nat.succ_mul] at hmul
  omega

theorem le_roundHalfEven {num den k : Nat} (pos : 0 < den) (h : k * den ≤ num) :
    k ≤ roundHalfEven num den := by
  apply Nat.le_of_not_lt
  intro hk
  have hnear := (@roundHalfEven_near num den pos).1
  have hmul := Nat.mul_le_mul_right den hk
  rw [Nat.succ_mul] at hmul
  omega

/-- No other multiple is nearer than the rounded one. -/
theorem roundHalfEven_nearest {num den : Nat} (pos : 0 < den) (k : Nat) :
    apart num (roundHalfEven num den * den) ≤ apart num (k * den) := by
  obtain ⟨hlow, hhigh⟩ := @roundHalfEven_near num den pos
  unfold apart
  rcases Nat.lt_trichotomy k (roundHalfEven num den) with h | rfl | h
  · have hmul := Nat.mul_le_mul_right den h
    rw [Nat.succ_mul] at hmul
    omega
  · exact Nat.le_refl _
  · have hmul := Nat.mul_le_mul_right den h
    rw [Nat.succ_mul] at hmul
    omega

/-- What lies half way between two multiples is rounded to the even one. -/
theorem roundHalfEven_half {num den k : Nat} (pos : 0 < den)
    (half : 2 * apart num (k * den) = den) : roundHalfEven num den % 2 = 0 := by
  have hlt : den / 2 < den := Nat.div_lt_self pos (by decide)
  have habove {j : Nat} (hnum : num = den / 2 + j * den) : num % den = den / 2 := by
    rw [hnum, Nat.add_mul_mod_self_right, Nat.mod_eq_of_lt hlt]
  have hrest : num % den = den / 2 := by
    unfold apart at half
    rcases Nat.le_total (k * den) num with hle | hle
    · exact habove (j := k) (by omega)
    · obtain ⟨j, rfl⟩ : ∃ j, k = j + 1 := by
        refine Nat.exists_eq_succ_of_ne_zero fun hk => ?_
        rw [hk, Nat.zero_mul] at hle half
        omega
      have hsucc : (j + 1) * den = j * den + den := Nat.succ_mul j den
      rw [hsucc] at hle half
      exact habove (j := j) (by omega)
  apply roundHalfEven_tie
  unfold apart at half
  omega

/-- What is as near to the rounded number as what was rounded is rounded to it as well. -/
theorem roundHalfEven_of_nearer {num den near : Nat} (pos : 0 < den)
    (h : apart (roundHalfEven num den * den) near ≤ apart (roundHalfEven num den * den) num) :
    roundHalfEven near den = roundHalfEven num den := by
  obtain ⟨hlow, hhigh⟩ := @roundHalfEven_near num den pos
  obtain ⟨hlow', hhigh'⟩ := @roundHalfEven_near near den pos
  have heven (k : Nat) := @roundHalfEven_half num den k pos
  have heven' (k : Nat) := @roundHalfEven_half near den k pos
  generalize roundHalfEven num den = r at *
  generalize roundHalfEven near den = r' at *
  have hstep {k l : Nat} (hlt : k < l) : k * den + den ≤ l * den := by
    rw [← Nat.succ_mul]
    exact Nat.mul_le_mul_right den hlt
  have hsucc {k l : Nat} (hlt : k < l) (hle : l * den ≤ k * den + den) : l = k + 1 := by
    rw [← Nat.succ_mul] at hle
    exact Nat.le_antisymm (Nat.le_of_mul_le_mul_right hle pos) hlt
  unfold apart at *
  /- Rounded to multiples a step apart, both would lie half way, and both multiples be even. -/
  rcases Nat.lt_trichotomy r' r with hlt | heq | hgt
  · have hmul := hstep hlt
    have hr := hsucc hlt (by omega)
    have h₁ := heven r (by omega)
    have h₂ := heven' r' (by omega)
    omega
  · exact heq
  · have hmul := hstep hgt
    have hr := hsucc hgt (by omega)
    have h₁ := heven r (by omega)
    have h₂ := heven' r' (by omega)
    omega

theorem unitsOfBits_step {s m : Nat} (le : m ≤ 2 ^ 53) (full : s = 0 ∨ 2 ^ 52 ≤ m) :
    unitsOfBits (s * 2 ^ 52 + m) = m * 2 ^ s := by
  by_cases hm : m < 2 ^ 52
  · obtain rfl := full.resolve_right (Nat.not_le_of_lt hm)
    rw [Nat.zero_mul, Nat.zero_add, unitsOfBits_subnormal hm, Nat.pow_zero, Nat.mul_one]
  · by_cases hm' : m = 2 ^ 53
    · subst hm'
      have h := unitsOfBits_normal (k := s + 1) (m := 0) (Nat.two_pow_pos 52)
      rw [show s * 2 ^ 52 + 2 ^ 53 = (s + 1 + 1) * 2 ^ 52 + 0 by omega, h, Nat.pow_succ]
      omega
    · have h := unitsOfBits_normal (k := s) (m := m - 2 ^ 52) (by omega)
      rw [show s * 2 ^ 52 + m = (s + 1) * 2 ^ 52 + (m - 2 ^ 52) by omega, h,
        Nat.add_sub_cancel' (Nat.le_of_not_lt hm)]

/-- The mantissa and the exponent that a finite pattern puts together. -/
theorem bits_scaled {bits : Nat} (h : bits < 2047 * 2 ^ 52) :
    ∃ m k, m < 2 ^ 53 ∧ (2 ^ 52 ≤ m ∨ k = 0) ∧ k ≤ 2045 ∧ bits = k * 2 ^ 52 + m ∧
      unitsOfBits bits = m * 2 ^ k := by
  by_cases hsub : bits < 2 ^ 52
  · refine ⟨bits, 0, by omega, .inr rfl, by omega, by omega, ?_⟩
    rw [unitsOfBits_subnormal hsub, Nat.pow_zero, Nat.mul_one]
  · obtain ⟨k, r, hr, rfl⟩ : ∃ k r, r < 2 ^ 52 ∧ bits = (k + 1) * 2 ^ 52 + r :=
      ⟨bits / 2 ^ 52 - 1, bits % 2 ^ 52, by omega, by omega⟩
    exact ⟨2 ^ 52 + r, k, by omega, .inl (by omega), by omega, by omega, unitsOfBits_normal hr⟩

/-- Finite patterns that differ stand for magnitudes that differ. -/
theorem unitsOfBits_inj {a b : Nat} (ha : a < 2047 * 2 ^ 52) (hb : b < 2047 * 2 ^ 52)
    (h : unitsOfBits a = unitsOfBits b) : a = b := by
  obtain ⟨m, k, hm, hmfull, _, rfl, hma⟩ := bits_scaled ha
  obtain ⟨n, j, hn, hnfull, _, rfl, hnb⟩ := bits_scaled hb
  obtain ⟨rfl, rfl⟩ := scaled_injective hm hn hmfull hnfull (hma.symm.trans (h.trans hnb))
  rfl

/-- Doubles lie on every grid, apart from those below the first full mantissa on it. -/
theorem scaled_on_grid {m k : Nat} (small : m < 2 ^ 53) (s : Nat) :
    (∃ j, m * 2 ^ k = j * 2 ^ s) ∨ (0 < s ∧ m * 2 ^ k < 2 ^ 52 * 2 ^ s) := by
  by_cases h : s ≤ k
  · refine .inl ⟨m * 2 ^ (k - s), ?_⟩
    rw [Nat.mul_assoc, ← Nat.pow_add, Nat.sub_add_cancel h]
  · refine .inr ⟨by omega, ?_⟩
    calc m * 2 ^ k < 2 ^ 53 * 2 ^ k := Nat.mul_lt_mul_of_pos_right small (Nat.two_pow_pos k)
      _ = 2 ^ 52 * 2 ^ (k + 1) := by rw [Nat.pow_succ]; omega
      _ ≤ 2 ^ 52 * 2 ^ s := Nat.mul_le_mul_left _ (Nat.pow_le_pow_right (by decide) (by omega))

def stepOf (units den : Nat) : Nat := (units / den).log2 - 52

theorem stepOf_spec (units : Nat) {den : Nat} (pos : 0 < den) :
    units ≤ 2 ^ 53 * (den * 2 ^ stepOf units den) ∧
      (stepOf units den = 0 ∨ 2 ^ 52 * (den * 2 ^ stepOf units den) ≤ units) := by
  have hden : units < (units / den + 1) * den := by
    have hsplit := Nat.div_add_mod units den
    have hrest := Nat.mod_lt units pos
    rw [Nat.succ_mul, Nat.mul_comm]
    omega
  have hlog : units / den + 1 ≤ 2 ^ 53 * 2 ^ stepOf units den := by
    rw [← Nat.pow_add]
    calc units / den + 1 ≤ 2 ^ ((units / den).log2 + 1) := Nat.lt_log2_self
      _ ≤ 2 ^ (53 + stepOf units den) :=
        Nat.pow_le_pow_right (by decide) (by unfold stepOf; omega)
  constructor
  · calc units ≤ (units / den + 1) * den := Nat.le_of_lt hden
      _ ≤ 2 ^ 53 * 2 ^ stepOf units den * den := Nat.mul_le_mul_right den hlog
      _ = 2 ^ 53 * (den * 2 ^ stepOf units den) := by rw [Nat.mul_assoc, Nat.mul_comm _ den]
  · by_cases hs : stepOf units den = 0
    · exact .inl hs
    · refine .inr ?_
      have hstep : 52 + stepOf units den = (units / den).log2 := by
        unfold stepOf at hs ⊢
        omega
      have hne : units / den ≠ 0 := by
        intro h
        rw [stepOf, h] at hs
        exact hs rfl
      calc 2 ^ 52 * (den * 2 ^ stepOf units den) =
          2 ^ 52 * 2 ^ stepOf units den * den := by rw [Nat.mul_assoc, Nat.mul_comm den]
        _ = 2 ^ (units / den).log2 * den := by rw [← Nat.pow_add, hstep]
        _ ≤ units / den * den := Nat.mul_le_mul_right den (Nat.log2_self_le hne)
        _ ≤ units := Nat.div_mul_le_self units den

/-- The magnitude of the double nearest to `units / den` units, if it is not too large for one. -/
def nearest (units den : Nat) : Nat :=
  roundHalfEven units (den * 2 ^ stepOf units den) * 2 ^ stepOf units den

theorem nearest_zero (den : Nat) : nearest 0 den = 0 := by
  simp [nearest, roundHalfEven]

theorem nearest_pos {units den : Nat} (pos : 0 < den) (h : den ≤ units) :
    0 < nearest units den := by
  obtain ⟨_, hfull⟩ := stepOf_spec units pos
  unfold nearest
  generalize stepOf units den = s at *
  have hle : 1 * (den * 2 ^ s) ≤ units := by
    rcases hfull with rfl | hfull
    · rw [Nat.pow_zero, Nat.mul_one, Nat.one_mul]
      exact h
    · omega
  exact Nat.mul_pos (le_roundHalfEven (Nat.mul_pos pos (Nat.two_pow_pos s)) hle)
    (Nat.two_pow_pos s)

theorem roundHalfEven_scale (num den : Nat) {c : Nat} (pos : 0 < c) :
    roundHalfEven (num * c) (den * c) = roundHalfEven num den := by
  have hlt (a b : Nat) : a * c < b * c ↔ a < b := Nat.mul_lt_mul_right pos
  simp only [roundHalfEven, Nat.mul_div_mul_right _ _ pos, Nat.mul_mod_mul_right, ← Nat.mul_assoc,
    hlt]

theorem stepOf_scale (units den : Nat) {c : Nat} (pos : 0 < c) :
    stepOf (units * c) (den * c) = stepOf units den := by
  rw [stepOf, Nat.mul_div_mul_right _ _ pos, stepOf]

theorem nearest_scale (units den : Nat) {c : Nat} (pos : 0 < c) :
    nearest (units * c) (den * c) = nearest units den := by
  rw [nearest, stepOf_scale units den pos, Nat.mul_right_comm, roundHalfEven_scale _ _ pos, nearest]

/-- Equal ratios round alike. -/
theorem nearest_congr {u d u' d' : Nat} (pos : 0 < d) (pos' : 0 < d') (h : u * d' = u' * d) :
    nearest u d = nearest u' d' := by
  rw [← nearest_scale u d pos', h, Nat.mul_comm d d', nearest_scale u' d' pos]

/-- No double is nearer. -/
theorem nearest_le {units den m k : Nat} (pos : 0 < den) (small : m < 2 ^ 53) :
    apart units (nearest units den * den) ≤ apart units (m * 2 ^ k * den) := by
  obtain ⟨_, hfull⟩ := stepOf_spec units pos
  have hgrid := scaled_on_grid (k := k) small (stepOf units den)
  unfold nearest
  generalize stepOf units den = s at *
  have hpos : 0 < den * 2 ^ s := Nat.mul_pos pos (Nat.two_pow_pos s)
  have hswap (j : Nat) : j * 2 ^ s * den = j * (den * 2 ^ s) := by
    rw [Nat.mul_assoc, Nat.mul_comm den]
  rw [hswap]
  rcases hgrid with ⟨j, hj⟩ | ⟨hs, hlt⟩
  · rw [hj, hswap]
    exact roundHalfEven_nearest hpos j
  · -- a double below the grid has the first full mantissa between it and the ratio
    have hge := hfull.resolve_left (Nat.pos_iff_ne_zero.mp hs)
    have hmul := Nat.mul_lt_mul_of_pos_right hlt pos
    rw [hswap] at hmul
    have hfirst := @roundHalfEven_nearest units _ hpos (2 ^ 52)
    unfold apart at hfirst ⊢
    omega

/-- A magnitude that a double has is nearest to itself. -/
theorem nearest_self {den m k : Nat} (pos : 0 < den) (small : m < 2 ^ 53) :
    nearest (m * 2 ^ k * den) den = m * 2 ^ k := by
  have hle := @nearest_le (m * 2 ^ k * den) den m k pos small
  unfold apart at hle
  exact Nat.eq_of_mul_eq_mul_right pos (by omega)

/-- No double up to the ratio is above the nearest. -/
theorem le_nearest {units den m k : Nat} (pos : 0 < den) (small : m < 2 ^ 53)
    (h : m * 2 ^ k * den ≤ units) : m * 2 ^ k ≤ nearest units den := by
  have hnear := @nearest_le units den m k pos small
  unfold apart at hnear
  apply Nat.le_of_mul_le_mul_right _ pos
  omega

theorem nearest_le_of_le {units den m k : Nat} (pos : 0 < den) (small : m < 2 ^ 53)
    (h : units ≤ m * 2 ^ k * den) : nearest units den ≤ m * 2 ^ k := by
  have hnear := @nearest_le units den m k pos small
  unfold apart at hnear
  apply Nat.le_of_mul_le_mul_right _ pos
  omega

theorem nearest_scaled (units : Nat) {den : Nat} (pos : 0 < den) :
    ∃ m k, m < 2 ^ 53 ∧ nearest units den = m * 2 ^ k := by
  obtain ⟨hle, _⟩ := stepOf_spec units pos
  have hround := roundHalfEven_le (Nat.mul_pos pos (Nat.two_pow_pos _)) hle
  unfold nearest
  rcases Nat.lt_or_eq_of_le hround with hlt | heq
  · exact ⟨_, _, hlt, rfl⟩
  · -- a mantissa rounded up to one bit too many
    refine ⟨2 ^ 52, stepOf units den + 1, by decide, ?_⟩
    rw [heq, ← Nat.pow_add, ← Nat.pow_add, Nat.add_left_comm, Nat.add_comm 53]

/-- Rounding keeps ratios in order. -/
theorem nearest_mono {u v den : Nat} (pos : 0 < den) (h : u ≤ v) :
    nearest u den ≤ nearest v den := by
  apply Nat.le_of_not_lt
  intro hlt
  obtain ⟨m, k, small, hm⟩ := nearest_scaled u pos
  obtain ⟨n, j, small', hn⟩ := nearest_scaled v pos
  have hu : apart u (nearest u den * den) ≤ apart u (nearest v den * den) := by
    rw [hn]
    exact nearest_le pos small'
  have hv : apart v (nearest v den * den) ≤ apart v (nearest u den * den) := by
    rw [hm]
    exact nearest_le pos small
  have hmul := Nat.mul_lt_mul_of_pos_right hlt pos
  -- both ratios would have to lie halfway between the two doubles, and so be one
  obtain rfl : u = v := by
    unfold apart at hu hv
    omega
  exact Nat.lt_irrefl _ hlt

/-- Two doubles differ by more than the lesser of them divided by `2 ^ 53`. -/
theorem scaled_apart {m k n j : Nat} (small : m < 2 ^ 53) (small' : n < 2 ^ 53)
    (h : m * 2 ^ k < n * 2 ^ j) : (2 ^ 53 + 1) * (m * 2 ^ k) < 2 ^ 53 * (n * 2 ^ j) := by
  generalize hc : min k j = c
  have hgrid {l a : Nat} (hl : c ≤ l) : a * 2 ^ l = a * 2 ^ (l - c) * 2 ^ c := by
    rw [Nat.mul_assoc, ← Nat.pow_add, Nat.sub_add_cancel hl]
  have hk : m * 2 ^ k = m * 2 ^ (k - c) * 2 ^ c := hgrid (hc ▸ Nat.min_le_left k j)
  have hj : n * 2 ^ j = n * 2 ^ (j - c) * 2 ^ c := hgrid (hc ▸ Nat.min_le_right k j)
  have hgap : m * 2 ^ k + 2 ^ c ≤ n * 2 ^ j := by
    rw [hk, hj] at h
    have hlt := Nat.lt_of_mul_lt_mul_right h
    rw [hk, hj, ← Nat.succ_mul]
    exact Nat.mul_le_mul_right _ hlt
  have hbound : m * 2 ^ k < 2 ^ 53 * 2 ^ c := by
    rcases Nat.le_total k j with hle | hle
    · rw [← hc, Nat.min_eq_left hle]
      exact Nat.mul_lt_mul_of_pos_right small (Nat.two_pow_pos k)
    · rw [← hc, Nat.min_eq_right hle]
      exact Nat.lt_trans h (Nat.mul_lt_mul_of_pos_right small' (Nat.two_pow_pos j))
  omega

/-- Seventeen digits are enough: what misses a double by no more than this rounds to it. -/
theorem nearest_of_close {units den m k : Nat} (pos : 0 < den) (small : m < 2 ^ 53)
    (close : 2 * 10 ^ 16 * apart units (m * 2 ^ k * den) ≤ m * 2 ^ k * den) :
    nearest units den = m * 2 ^ k := by
  obtain ⟨n, j, small', hn⟩ := nearest_scaled units pos
  have hnear := @nearest_le units den m k pos small
  rw [hn] at hnear ⊢
  have hscale {a b : Nat} (h : (2 ^ 53 + 1) * a < 2 ^ 53 * b) :
      (2 ^ 53 + 1) * (a * den) < 2 ^ 53 * (b * den) := by
    rw [← Nat.mul_assoc, ← Nat.mul_assoc]
    exact Nat.mul_lt_mul_of_pos_right h pos
  unfold apart at close hnear
  rcases Nat.lt_trichotomy (n * 2 ^ j) (m * 2 ^ k) with hlt | heq | hgt
  · have hgap := hscale (scaled_apart small' small hlt)
    omega
  · exact heq
  · have hgap := hscale (scaled_apart small small' hgt)
    omega

theorem overflow_le_scaled {m s : Nat} (le : m ≤ 2 ^ 53) (full : s = 0 ∨ 2 ^ 52 ≤ m)
    (h : 2047 * 2 ^ 52 ≤ s * 2 ^ 52 + m) : overflow ≤ m * 2 ^ s := by
  have hfull : 2 ^ 52 ≤ m := full.resolve_left (by omega)
  by_cases hs : s = 2045
  · have hm : 2 ^ 53 ≤ m := by omega
    calc overflow ≤ 2 ^ (53 + s) :=
          Nat.pow_le_pow_right (by decide) (by rw [pastExponent_eq]; omega)
      _ = 2 ^ 53 * 2 ^ s := Nat.pow_add 2 53 s
      _ ≤ m * 2 ^ s := Nat.mul_le_mul_right _ hm
  · calc overflow ≤ 2 ^ (52 + s) :=
          Nat.pow_le_pow_right (by decide) (by rw [pastExponent_eq]; omega)
      _ = 2 ^ 52 * 2 ^ s := Nat.pow_add 2 52 s
      _ ≤ m * 2 ^ s := Nat.mul_le_mul_right _ hfull

theorem bitsOfRatio_def (num den : Nat) :
    bitsOfRatio num den = min (stepOf (num * one) den * 2 ^ 52 +
      roundHalfEven (num * one) (den * 2 ^ stepOf (num * one) den)) (2047 * 2 ^ 52) := by
  rw [bitsOfRatio, shiftLeft_units]
  simp only [stepOf, Nat.shiftLeft_eq]

theorem bitsOfRatio_scale (num den : Nat) {c : Nat} (pos : 0 < c) :
    bitsOfRatio (num * c) (den * c) = bitsOfRatio num den := by
  rw [bitsOfRatio_def, Nat.mul_right_comm, stepOf_scale _ _ pos, Nat.mul_right_comm den,
    roundHalfEven_scale _ _ pos, bitsOfRatio_def]

theorem bitsOfRatio_congr {n d n' d' : Nat} (pos : 0 < d) (pos' : 0 < d') (h : n * d' = n' * d) :
    bitsOfRatio n d = bitsOfRatio n' d' := by
  rw [← bitsOfRatio_scale n d pos', h, Nat.mul_comm d d', bitsOfRatio_scale n' d' pos]

theorem bitsOfRatio_eq {num den : Nat} (pos : 0 < den)
    (below : nearest (num * one) den < overflow) :
    bitsOfRatio num den < 2047 * 2 ^ 52 ∧
      unitsOfBits (bitsOfRatio num den) = nearest (num * one) den := by
  obtain ⟨hle, hfull⟩ := stepOf_spec (num * one) pos
  unfold nearest at below ⊢
  rw [bitsOfRatio_def]
  generalize num * one = units at *
  generalize stepOf units den = s at *
  have hpos : 0 < den * 2 ^ s := Nat.mul_pos pos (Nat.two_pow_pos s)
  have hm : roundHalfEven units (den * 2 ^ s) ≤ 2 ^ 53 := roundHalfEven_le hpos hle
  have hm' : s = 0 ∨ 2 ^ 52 ≤ roundHalfEven units (den * 2 ^ s) :=
    hfull.imp_right (le_roundHalfEven hpos)
  have hbelow : s * 2 ^ 52 + roundHalfEven units (den * 2 ^ s) < 2047 * 2 ^ 52 := by
    apply Nat.lt_of_not_le
    intro h
    exact Nat.not_le_of_lt below (overflow_le_scaled hm hm' h)
  rw [Nat.min_eq_left (Nat.le_of_lt hbelow)]
  exact ⟨hbelow, unitsOfBits_step hm hm'⟩

theorem shape_ofMagnitudeBits (negative : Bool) {bits : Nat} (h : bits < 2047 * 2 ^ 52) :
    shape (ofMagnitudeBits negative bits) = .finite negative (unitsOfBits bits) := by
  have hsign (n : Nat) (hn : n < 2 ^ 64) : shape (Float.ofBits (UInt64.ofNat n)) = .ofBits n := by
    rw [shape_ofBits, UInt64.toNat_ofNat_of_lt' hn]
  unfold ofMagnitudeBits
  cases negative with
  | false =>
    rw [if_neg Bool.false_ne_true, hsign bits (by omega)]
    rw [Shape.ofBits_eq, show bits % 2 ^ 63 = bits by omega, if_pos h, decide_eq_false (by omega)]
  | true =>
    rw [if_pos rfl, Nat.shiftLeft_eq, Nat.one_mul, hsign (2 ^ 63 + bits) (by omega),
      Shape.ofBits_eq, show (2 ^ 63 + bits) % 2 ^ 63 = bits by omega, if_pos h,
      decide_eq_true (by omega)]

/-- A ratio that does not overflow reads as the nearest double. -/
theorem shape_ofRatio (negative : Bool) {num den : Nat} (pos : 0 < den)
    (below : nearest (num * one) den < overflow) :
    shape (ofRatio negative num den) = .finite negative (nearest (num * one) den) := by
  obtain ⟨hbits, hunits⟩ := bitsOfRatio_eq pos below
  rw [ofRatio, shape_ofMagnitudeBits negative hbits, hunits]

/-- A whole number that has a mantissa of 53 bits is a double. -/
theorem shape_ofWhole {m k : Nat} (small : m < 2 ^ 53) (bound : k ≤ 971) :
    shape (ofRatio false (m * 2 ^ k) 1) = .finite false (m * 2 ^ k * one) := by
  have hself := @nearest_self 1 m (k + unitExponent) Nat.one_pos small
  rw [Nat.mul_one, Nat.pow_add, ← Nat.mul_assoc] at hself
  have hbelow := @scaled_lt_overflow m (k + unitExponent) small (by rw [unitExponent_eq]; omega)
  rw [Nat.pow_add, ← Nat.mul_assoc] at hbelow
  rw [shape_ofRatio false Nat.one_pos (by rw [one, hself]; exact hbelow), one, hself]

/-- The magnitude of a double is a mantissa of 53 bits, scaled. -/
theorem scaled_of_shape {x : Float} {negative : Bool} {units : Nat}
    (h : shape x = .finite negative units) :
    ∃ m k, m < 2 ^ 53 ∧ k ≤ 2045 ∧ units = m * 2 ^ k := by
  have hx := agrees_shape x
  rw [h] at hx
  generalize x.toModel.unpack = u at hx
  cases hx with
  | zero s => exact ⟨0, 0, Nat.two_pow_pos 53, Nat.zero_le _, rfl⟩
  | finite s m k pos small full bound => exact ⟨m, k, small, bound, rfl⟩

end Reaming.Decimal
