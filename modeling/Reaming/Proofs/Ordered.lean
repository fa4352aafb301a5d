import Reaming.Geometry.Plane
import Reaming.Proofs.Decimal.Order

namespace Reaming
open Decimal

/-- What the order of scalars promises. A scalar that stands for no number compares with nothing,
itself included; all others are in line. -/
class Scalar.Ordered (α : Type) [Scalar α] : Prop where
  le_trans : ∀ {a b c : α}, a ≤ b → b ≤ c → a ≤ c
  le_total : ∀ {a b : α}, a ≤ a → b ≤ b → a ≤ b ∨ b ≤ a
  refl_of_le : ∀ {a b : α}, a ≤ b → a ≤ a ∧ b ≤ b
  lt_iff : ∀ {a b : α}, a < b ↔ a ≤ b ∧ ¬ b ≤ a
  beq_iff : ∀ {a b : α}, (a == b) = true ↔ a ≤ b ∧ b ≤ a

theorem float_le_self_iff {a : Float} : a ≤ a ↔ ∃ i, i ∈ position? a := by
  refine (float_le_iff a a).trans ⟨?_, ?_⟩
  · rintro ⟨i, hi, _⟩
    exact ⟨i, hi⟩
  · rintro ⟨i, hi⟩
    exact ⟨i, hi, i, hi, Int.le_refl i⟩

/-- Among doubles that have positions, the order is that of the positions. -/
theorem float_le_iff_of_mem {a b : Float} {i j : Int} (hi : i ∈ position? a)
    (hj : j ∈ position? b) : a ≤ b ↔ i ≤ j := by
  refine (float_le_iff a b).trans ⟨?_, ?_⟩
  · rintro ⟨i', hi', j', hj', h⟩
    obtain rfl : i = i' := Option.mem_unique hi hi'
    obtain rfl : j = j' := Option.mem_unique hj hj'
    exact h
  · intro h
    exact ⟨i, hi, j, hj, h⟩

instance : Scalar.Ordered Float where
  le_trans := by
    intro a b c hab hbc
    obtain ⟨i, hi, j, hj, hij⟩ := (float_le_iff a b).mp hab
    obtain ⟨_, _, k, hk, _⟩ := (float_le_iff b c).mp hbc
    exact (float_le_iff_of_mem hi hk).mpr
      (Int.le_trans hij ((float_le_iff_of_mem hj hk).mp hbc))
  le_total := by
    intro a b ha hb
    obtain ⟨i, hi⟩ := float_le_self_iff.mp ha
    obtain ⟨j, hj⟩ := float_le_self_iff.mp hb
    rcases Int.le_total i j with h | h
    · exact .inl ((float_le_iff_of_mem hi hj).mpr h)
    · exact .inr ((float_le_iff_of_mem hj hi).mpr h)
  refl_of_le := by
    intro a b h
    obtain ⟨i, hi, j, hj, _⟩ := (float_le_iff a b).mp h
    exact ⟨float_le_self_iff.mpr ⟨i, hi⟩, float_le_self_iff.mpr ⟨j, hj⟩⟩
  lt_iff := by
    intro a b
    constructor
    · intro h
      obtain ⟨i, hi, j, hj, hlt⟩ := (float_lt_iff a b).mp h
      rw [float_le_iff_of_mem hi hj, float_le_iff_of_mem hj hi]
      exact ⟨Int.le_of_lt hlt, Int.not_le.mpr hlt⟩
    · rintro ⟨hle, hnot⟩
      obtain ⟨i, hi, j, hj, _⟩ := (float_le_iff a b).mp hle
      rw [float_le_iff_of_mem hj hi] at hnot
      exact (float_lt_iff a b).mpr ⟨i, hi, j, hj, Int.not_le.mp hnot⟩
  beq_iff := by
    intro a b
    constructor
    · intro h
      obtain ⟨i, hi, hj⟩ := (float_beq_iff a b).mp h
      exact ⟨(float_le_iff_of_mem hi hj).mpr (Int.le_refl i),
        (float_le_iff_of_mem hj hi).mpr (Int.le_refl i)⟩
    · rintro ⟨hab, hba⟩
      obtain ⟨i, hi, j, hj, hij⟩ := (float_le_iff a b).mp hab
      obtain rfl : i = j := Int.le_antisymm hij ((float_le_iff_of_mem hj hi).mp hba)
      exact (float_beq_iff a b).mpr ⟨i, hi, hj⟩

namespace Bounds

variable {α : Type} [Scalar α]

theorem encloses_iff {a b : Bounds α} :
    a.encloses b = true ↔ a.x0 ≤ b.x0 ∧ a.y0 ≤ b.y0 ∧ b.x1 ≤ a.x1 ∧ b.y1 ≤ a.y1 := by
  simp [encloses, and_assoc]

theorem beq_iff {a b : Bounds α} :
    (a == b) = true ↔
      (a.x0 == b.x0) = true ∧ (a.y0 == b.y0) = true ∧
        (a.x1 == b.x1) = true ∧ (a.y1 == b.y1) = true := by
  change (_ && _ && _ && _) = true ↔ _
  simp [and_assoc]

variable [Scalar.Ordered α]

theorem encloses_trans {a b c : Bounds α} (hab : a.encloses b = true)
    (hbc : b.encloses c = true) : a.encloses c = true := by
  obtain ⟨h₁, h₂, h₃, h₄⟩ := encloses_iff.mp hab
  obtain ⟨k₁, k₂, k₃, k₄⟩ := encloses_iff.mp hbc
  exact encloses_iff.mpr ⟨Scalar.Ordered.le_trans h₁ k₁, Scalar.Ordered.le_trans h₂ k₂,
    Scalar.Ordered.le_trans k₃ h₃, Scalar.Ordered.le_trans k₄ h₄⟩

/-- Boxes that enclose each other are equal. -/
theorem beq_iff_encloses {a b : Bounds α} :
    (a == b) = true ↔ a.encloses b = true ∧ b.encloses a = true := by
  simp only [beq_iff, encloses_iff, Scalar.Ordered.beq_iff]
  constructor
  · rintro ⟨⟨h₁, k₁⟩, ⟨h₂, k₂⟩, ⟨h₃, k₃⟩, h₄, k₄⟩
    exact ⟨⟨h₁, h₂, k₃, k₄⟩, k₁, k₂, h₃, h₄⟩
  · rintro ⟨⟨h₁, h₂, k₃, k₄⟩, k₁, k₂, h₃, h₄⟩
    exact ⟨⟨h₁, k₁⟩, ⟨h₂, k₂⟩, ⟨h₃, k₃⟩, h₄, k₄⟩

end Bounds

end Reaming
