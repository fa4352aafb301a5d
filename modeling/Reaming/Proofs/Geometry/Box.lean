import Reaming.Proofs.Ordered
import Reaming.Geometry.Path

namespace Reaming

variable {α : Type} [Scalar α] [Scalar.Ordered α]

namespace Scalar

theorem isNaN_iff {a : α} : isNaN a = false ↔ a ≤ a := by
  rw [isNaN, Bool.not_eq_false', Ordered.beq_iff, and_self]

theorem le_of_not_lt {a b : α} (ha : a ≤ a) (hb : b ≤ b) (h : ¬ b < a) : a ≤ b := by
  rcases Ordered.le_total ha hb with hab | hba
  · exact hab
  · apply Classical.byContradiction
    intro hn
    exact h (Ordered.lt_iff.mpr ⟨hba, hn⟩)

theorem min_le_left {a : α} (b : α) (h : a ≤ a) : min a b ≤ a := by
  rw [min, isNaN_iff.mpr h, if_neg Bool.false_ne_true]
  split
  · rename_i hlt
    exact (Ordered.lt_iff.mp hlt).1
  · exact h

theorem min_le_right (a : α) {b : α} (h : b ≤ b) : min a b ≤ b := by
  rw [min]
  split
  · exact h
  · rename_i ha
    split
    · exact h
    · rename_i hlt
      exact le_of_not_lt (isNaN_iff.mp (Bool.not_eq_true _ ▸ ha)) h hlt

theorem le_max_left {a : α} (b : α) (h : a ≤ a) : a ≤ max a b := by
  rw [max, isNaN_iff.mpr h, if_neg Bool.false_ne_true]
  split
  · rename_i hlt
    exact (Ordered.lt_iff.mp hlt).1
  · exact h

theorem le_max_right (a : α) {b : α} (h : b ≤ b) : b ≤ max a b := by
  rw [max]
  split
  · exact h
  · rename_i ha
    split
    · exact h
    · rename_i hlt
      exact le_of_not_lt h (isNaN_iff.mp (Bool.not_eq_true _ ▸ ha)) hlt

end Scalar

open Scalar

namespace Bounds

/-- Every side of `a` that is a number is no further out than that of `b`. -/
structure Grows (a b : Bounds α) : Prop where
  x0 : a.x0 ≤ a.x0 → b.x0 ≤ a.x0
  y0 : a.y0 ≤ a.y0 → b.y0 ≤ a.y0
  x1 : a.x1 ≤ a.x1 → a.x1 ≤ b.x1
  y1 : a.y1 ≤ a.y1 → a.y1 ≤ b.y1

theorem grows_extend (b : Bounds α) (p : Point α) : b.Grows (b.extend p) :=
  ⟨min_le_left p.x, min_le_left p.y, le_max_left p.x, le_max_left p.y⟩

theorem grows_union_left (a b : Bounds α) : a.Grows (a.union b) :=
  ⟨min_le_left b.x0, min_le_left b.y0, le_max_left b.x1, le_max_left b.y1⟩

theorem grows_union_right (a b : Bounds α) : b.Grows (a.union b) :=
  ⟨min_le_right a.x0, min_le_right a.y0, le_max_right a.x1, le_max_right a.y1⟩

/-- Every coordinate of the point that is a number lies between the sides of the box. -/
structure Covers (b : Bounds α) (p : Point α) : Prop where
  x : p.x ≤ p.x → b.x0 ≤ p.x ∧ p.x ≤ b.x1
  y : p.y ≤ p.y → b.y0 ≤ p.y ∧ p.y ≤ b.y1

theorem Covers.grows {a b : Bounds α} {p : Point α} (h : a.Covers p) (g : a.Grows b) :
    b.Covers p := by
  constructor
  · intro hp
    obtain ⟨h₀, h₁⟩ := h.x hp
    exact ⟨Ordered.le_trans (g.x0 (Ordered.refl_of_le h₀).1) h₀,
      Ordered.le_trans h₁ (g.x1 (Ordered.refl_of_le h₁).2)⟩
  · intro hp
    obtain ⟨h₀, h₁⟩ := h.y hp
    exact ⟨Ordered.le_trans (g.y0 (Ordered.refl_of_le h₀).1) h₀,
      Ordered.le_trans h₁ (g.y1 (Ordered.refl_of_le h₁).2)⟩

omit [Ordered α] in
theorem covers_ofPoint (p : Point α) : (ofPoint p).Covers p :=
  ⟨fun h => ⟨h, h⟩, fun h => ⟨h, h⟩⟩

theorem covers_extend (b : Bounds α) (p : Point α) : (b.extend p).Covers p :=
  ⟨fun h => ⟨min_le_right _ h, le_max_right _ h⟩, fun h => ⟨min_le_right _ h, le_max_right _ h⟩⟩

/-- A box that only grows covers what it covered at first, and what it has been shown. -/
theorem foldl_covers {β : Type} {step : Bounds α → β → Bounds α}
    (grows : ∀ (b : Bounds α) (x : β), b.Grows (step b x)) {p : Point α} (shown : β → Prop)
    (covers : ∀ (b : Bounds α) (x : β), shown x → (step b x).Covers p) (xs : List β) {b : Bounds α}
    (h : b.Covers p ∨ ∃ x ∈ xs, shown x) : (xs.foldl step b).Covers p := by
  induction xs generalizing b with
  | nil =>
    rcases h with h | ⟨x, hx, _⟩
    · exact h
    · cases hx
  | cons y xs ih =>
    apply ih
    rcases h with h | ⟨x, hx, h⟩
    · exact .inl (h.grows (grows b y))
    · rcases List.mem_cons.mp hx with rfl | hx
      · exact .inl (covers b x h)
      · exact .inr ⟨x, hx, h⟩

theorem covers_ofPoints {ps : List (Point α)} {p : Point α} (h : p ∈ ps) :
    (ofPoints ps).Covers p := by
  cases ps with
  | nil => cases h
  | cons q ps =>
    refine foldl_covers grows_extend (· = p) ?_ ps ?_
    · rintro b _ rfl
      exact covers_extend b _
    · rcases List.mem_cons.mp h with rfl | h
      · exact .inl (covers_ofPoint p)
      · exact .inr ⟨p, h, rfl⟩

theorem covers_unions {bs : List (Bounds α)} {b : Bounds α} {p : Point α} (hb : b ∈ bs)
    (h : b.Covers p) : (unions bs).Covers p := by
  cases bs with
  | nil => cases hb
  | cons c bs =>
    refine foldl_covers grows_union_left (·.Covers p) ?_ bs ?_
    · intro a d hd
      exact hd.grows (grows_union_right a d)
    · rcases List.mem_cons.mp hb with rfl | hb
      · exact .inl h
      · exact .inr ⟨b, hb, h⟩

structure Upright (b : Bounds α) : Prop where
  x : b.x0 ≤ b.x1
  y : b.y0 ≤ b.y1

theorem Upright.grows {a b : Bounds α} (h : a.Upright) (g : a.Grows b) : b.Upright :=
  ⟨Ordered.le_trans (g.x0 (Ordered.refl_of_le h.x).1)
      (Ordered.le_trans h.x (g.x1 (Ordered.refl_of_le h.x).2)),
    Ordered.le_trans (g.y0 (Ordered.refl_of_le h.y).1)
      (Ordered.le_trans h.y (g.y1 (Ordered.refl_of_le h.y).2))⟩

theorem Upright.foldl {β : Type} {step : Bounds α → β → Bounds α}
    (grows : ∀ (b : Bounds α) (x : β), b.Grows (step b x)) (xs : List β) {b : Bounds α} (h : b.Upright) :
    (xs.foldl step b).Upright := by
  induction xs generalizing b with
  | nil => exact h
  | cons x xs ih => exact ih (h.grows (grows b x))

end Bounds

theorem Path.covers_polyline {p : Path α} {q : Point α} (h : q ∈ p.polyline) :
    p.bounds.Covers q := by
  obtain ⟨s, hs, hq⟩ := List.mem_flatMap.mp h
  exact Bounds.covers_unions (List.mem_map_of_mem hs)
    (Bounds.covers_ofPoints (List.mem_of_mem_tail hq))

end Reaming
