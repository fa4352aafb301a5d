import Reaming.Proofs.Decimal.Thousandths

namespace Reaming.Decimal

theorem roundHalfEven_mono {n m den : Nat} (pos : 0 < den) (h : n ≤ m) :
    roundHalfEven n den ≤ roundHalfEven m den := by
  apply Nat.le_of_not_lt
  intro hlt
  obtain ⟨_, hn⟩ := @roundHalfEven_near n den pos
  obtain ⟨hm, _⟩ := @roundHalfEven_near m den pos
  have hmul := Nat.mul_le_mul_right den hlt
  rw [Nat.succ_mul] at hmul
  -- both numbers would have to be the tie between the two multiples, and so be one
  obtain rfl : n = m := by omega
  exact Nat.lt_irrefl _ hlt

theorem thousandths_mono {u v : Nat} (h : u ≤ v) : thousandths u ≤ thousandths v :=
  roundHalfEven_mono one_pos (Nat.mul_le_mul_right 1000 h)

theorem thousandths_zero : thousandths 0 = 0 := by
  simp [thousandths, roundHalfEven]

theorem signed_thousandths_mono {n m : Bool} {u v : Nat} (h : signed n u ≤ signed m v) :
    signed n (thousandths u) ≤ signed m (thousandths v) := by
  have hzero := thousandths_zero
  unfold signed at *
  cases n <;> cases m <;> simp only [Bool.false_eq_true, ↓reduceIte] at h ⊢
  · exact Int.ofNat_le.mpr (thousandths_mono (Int.ofNat_le.mp h))
  · obtain rfl : u = 0 := by omega
    obtain rfl : v = 0 := by omega
    rw [hzero]
    exact Int.le_refl 0
  · omega
  · have := thousandths_mono (show v ≤ u by omega)
    omega

def Thousandths.le : Thousandths → Thousandths → Bool
  | .whole a, .whole b => decide (a ≤ b)
  | .whole _, .infinite negative => !negative
  | .infinite negative, .whole _ => negative
  | .infinite a, .infinite b => a || !b
  | .nan, _ | _, .nan => false

instance : LE Thousandths := ⟨fun a b => a.le b = true⟩

instance (a b : Thousandths) : Decidable (a ≤ b) :=
  inferInstanceAs (Decidable (a.le b = true))

theorem Thousandths.le_self_of_le {a b : Thousandths} (h : a ≤ b) : b ≤ b := by
  cases b with
  | whole count => exact decide_eq_true (Int.le_refl count)
  | infinite negative => cases negative <;> rfl
  | nan => cases a <;> cases h

theorem signed_within {n : Bool} {u : Nat} (h : u < overflow) :
    -(overflow : Int) < signed n u ∧ signed n u < overflow := by
  cases n <;> simp only [signed, Bool.false_eq_true, ↓reduceIte] <;> omega

theorem ofShape_mono {v w : Shape} {i j : Int} (hv : v.position? = some i)
    (hw : w.position? = some j) (h : i ≤ j)
    (bounded : ∀ n u, v = .finite n u ∨ w = .finite n u → u < overflow) :
    Thousandths.ofShape v ≤ Thousandths.ofShape w := by
  have hpast := overflow_pos
  cases v with
  | nan => cases hv
  | infinite n =>
    cases hv
    cases n with
    | true =>
      cases w with
      | nan => cases hw
      | infinite m | finite m u => rfl
    | false =>
      -- nothing is above plus infinity but itself
      cases w with
      | nan => cases hw
      | infinite m =>
        cases hw
        cases m with
        | false => rfl
        | true =>
          simp only [signed, Bool.false_eq_true, ↓reduceIte] at h
          omega
      | finite m u =>
        cases hw
        have hu := (signed_within (n := m) (bounded m u (.inr rfl))).2
        simp only [signed, Bool.false_eq_true, ↓reduceIte] at h hu
        omega
  | finite n u =>
    cases hv
    cases w with
    | nan => cases hw
    | infinite m =>
      cases hw
      cases m with
      | false => rfl
      | true =>
        have hu := (signed_within (n := n) (bounded n u (.inl rfl))).1
        rw [signed.eq_def true, if_pos rfl] at h
        omega
    | finite m u' =>
      cases hw
      rw [ofShape_finite, ofShape_finite]
      exact decide_eq_true (signed_thousandths_mono h)

/-- Rounding to three places keeps doubles in order. -/
theorem ofFloat_mono {x y : Float} (h : x ≤ y) :
    Thousandths.ofFloat x ≤ Thousandths.ofFloat y := by
  obtain ⟨i, hi, j, hj, hij⟩ := (float_le_iff x y).mp h
  apply ofShape_mono hi hj hij
  rintro n u (hs | hs)
  · obtain ⟨m, k, small, bound, rfl⟩ := scaled_of_shape hs
    exact scaled_lt_overflow small bound
  · obtain ⟨m, k, small, bound, rfl⟩ := scaled_of_shape hs
    exact scaled_lt_overflow small bound

end Reaming.Decimal
