import Reaming.Proofs.Decimal.Difference
import Reaming.Proofs.Geometry.Box
import Reaming.Proofs.Geometry.Scaling
import Reaming.Proofs.PathData.RoundTrip

namespace Reaming

variable {α : Type} [Scalar α]

/-- The first among the least numbers of a list. All others are numbers too. -/
def FirstLeast (m : α) : List α → Prop
  | [] => False
  | x :: xs => (x = m ∧ ∀ y ∈ m :: xs, m ≤ y) ∨ (m < x ∧ FirstLeast m xs)

namespace FirstLeast
open Scalar

theorem singleton {m : α} (h : m ≤ m) : FirstLeast m [m] :=
  .inl ⟨rfl, List.forall_mem_singleton.mpr h⟩

theorem append_left {m : α} {xs ys : List α} (h : FirstLeast m xs) (le : ∀ y ∈ ys, m ≤ y) :
    FirstLeast m (xs ++ ys) := by
  induction xs with
  | nil => exact h.elim
  | cons x xs ih =>
    rcases h with ⟨rfl, hle⟩ | ⟨hlt, h⟩
    · exact .inl ⟨rfl, List.forall_mem_append.mpr ⟨hle, le⟩⟩
    · exact .inr ⟨hlt, ih h⟩

theorem append_right {m : α} {xs ys : List α} (h : FirstLeast m ys) (lt : ∀ x ∈ xs, m < x) :
    FirstLeast m (xs ++ ys) := by
  induction xs with
  | nil => exact h
  | cons x xs ih =>
    obtain ⟨hx, hxs⟩ := List.forall_mem_cons.mp lt
    exact .inr ⟨hx, ih hxs⟩

theorem map {f : α → α} {m : α} {xs : List α} (h : FirstLeast m xs)
    (mono : ∀ x ∈ xs, f m ≤ f x ∧ (m < x → f m < f x)) : FirstLeast (f m) (xs.map f) := by
  induction xs with
  | nil => exact h.elim
  | cons x xs ih =>
    obtain ⟨hx, hxs⟩ := List.forall_mem_cons.mp mono
    rcases h with ⟨rfl, _⟩ | ⟨hlt, h⟩
    · refine .inl ⟨rfl, List.forall_mem_cons.mpr ⟨hx.1, ?_⟩⟩
      exact List.forall_mem_map.mpr fun y hy => (hxs y hy).1
    · exact .inr ⟨hx.2 hlt, ih h hxs⟩

variable [Scalar.Ordered α]

theorem mem_le {m : α} {xs : List α} (h : FirstLeast m xs) : m ∈ xs ∧ ∀ y ∈ xs, m ≤ y := by
  induction xs with
  | nil => exact h.elim
  | cons x xs ih =>
    rcases h with ⟨rfl, hle⟩ | ⟨hlt, h⟩
    · exact ⟨List.mem_cons_self, hle⟩
    · obtain ⟨hmem, hle⟩ := ih h
      exact ⟨List.mem_cons_of_mem x hmem,
        List.forall_mem_cons.mpr ⟨(Ordered.lt_iff.mp hlt).1, hle⟩⟩

theorem unique {m n : α} {xs : List α} (h : FirstLeast m xs) (h' : FirstLeast n xs) : m = n := by
  induction xs with
  | nil => exact h.elim
  | cons x xs ih =>
    rcases h with ⟨rfl, hle⟩ | ⟨hlt, h⟩
    · rcases h' with ⟨rfl, _⟩ | ⟨hlt, h'⟩
      · rfl
      · exact absurd (hle n (List.mem_cons_of_mem x h'.mem_le.1)) (Ordered.lt_iff.mp hlt).2
    · rcases h' with ⟨rfl, hle⟩ | ⟨_, h'⟩
      · exact absurd (hle m (List.mem_cons_of_mem x h.mem_le.1)) (Ordered.lt_iff.mp hlt).2
      · exact ih h h'

/-- The lesser of two keeps the first when they are equal. -/
theorem min {a b : α} {xs ys : List α} (ha : FirstLeast a xs) (hb : FirstLeast b ys) :
    FirstLeast (Scalar.min a b) (xs ++ ys) := by
  obtain ⟨hamem, hale⟩ := ha.mem_le
  obtain ⟨hbmem, hble⟩ := hb.mem_le
  have haa := hale a hamem
  rw [Scalar.min, isNaN_iff.mpr haa, if_neg Bool.false_ne_true]
  split
  · rename_i hlt
    obtain ⟨hle, hnot⟩ := Ordered.lt_iff.mp hlt
    refine hb.append_right fun x hx => Ordered.lt_iff.mpr ⟨Ordered.le_trans hle (hale x hx), ?_⟩
    exact fun hxb => hnot (Ordered.le_trans (hale x hx) hxb)
  · rename_i hlt
    have hab := le_of_not_lt haa (hble b hbmem) hlt
    exact ha.append_left fun y hy => Ordered.le_trans hab (hble y hy)

/-- What the least of all comes to when the list is gone through piece by piece. -/
theorem foldl {β : Type} {least : β → α} {pieces : β → List α} {bs : List β}
    (h : ∀ b ∈ bs, FirstLeast (least b) (pieces b)) {m : α} {xs : List α} (start : FirstLeast m xs) :
    FirstLeast (bs.foldl (fun m b => Scalar.min m (least b)) m) (xs ++ bs.flatMap pieces) := by
  induction bs generalizing m xs with
  | nil => rwa [List.flatMap_nil, List.append_nil]
  | cons b bs ih =>
    obtain ⟨hb, hbs⟩ := List.forall_mem_cons.mp h
    rw [List.flatMap_cons, ← List.append_assoc]
    exact ih hbs (start.min hb)

end FirstLeast

/-- A lower side of a box, and the coordinate that it bounds. -/
structure LowSide (side : Bounds α → α) (coordinate : Point α → α) : Prop where
  ofPoint : ∀ p, side (.ofPoint p) = coordinate p
  extend : ∀ b p, side (b.extend p) = Scalar.min (side b) (coordinate p)
  union : ∀ a b : Bounds α, side (a.union b) = Scalar.min (side a) (side b)

theorem lowSide_x : LowSide (α := α) Bounds.x0 Point.x :=
  ⟨fun _ => rfl, fun _ _ => rfl, fun _ _ => rfl⟩

theorem lowSide_y : LowSide (α := α) Bounds.y0 Point.y :=
  ⟨fun _ => rfl, fun _ _ => rfl, fun _ _ => rfl⟩

theorem Curve.samples_ne_nil (c : Curve α) : c.samples ≠ [] := by
  cases c with
  | line => exact List.cons_ne_nil _ _
  | quadratic | cubic => exact List.append_ne_nil_of_right_ne_nil _ (List.cons_ne_nil _ _)

def Path.sampleValues (coordinate : Point α → α) (p : Path α) : List α :=
  p.segments.flatMap fun s => s.polyline.map coordinate

namespace LowSide

variable [Scalar.Ordered α] {side : Bounds α → α} {coordinate : Point α → α}

theorem firstLeast_ofPoints (h : LowSide side coordinate) {ps : List (Point α)} (ne : ps ≠ [])
    (numbers : ∀ p ∈ ps, coordinate p ≤ coordinate p) :
    FirstLeast (side (.ofPoints ps)) (ps.map coordinate) := by
  cases ps with
  | nil => exact absurd rfl ne
  | cons p ps =>
    obtain ⟨hp, hps⟩ := List.forall_mem_cons.mp numbers
    have hside : side (.ofPoints (p :: ps)) =
        ps.foldl (fun m q => Scalar.min m (coordinate q)) (coordinate p) := by
      rw [← h.ofPoint p]
      exact (List.foldl_hom side fun b q => (h.extend b q).symm).symm
    rw [hside, List.map_cons, List.map_eq_flatMap]
    exact FirstLeast.foldl (fun q hq => .singleton (hps q hq)) (.singleton hp)

theorem firstLeast_unions (h : LowSide side coordinate) {β : Type} {box : β → Bounds α}
    {pieces : β → List α} {bs : List β} (ne : bs ≠ [])
    (boxes : ∀ b ∈ bs, FirstLeast (side (box b)) (pieces b)) :
    FirstLeast (side (.unions (bs.map box))) (bs.flatMap pieces) := by
  cases bs with
  | nil => exact absurd rfl ne
  | cons b bs =>
    obtain ⟨hb, hbs⟩ := List.forall_mem_cons.mp boxes
    have hside : side (.unions ((b :: bs).map box)) =
        bs.foldl (fun m c => Scalar.min m (side (box c))) (side (box b)) := by
      rw [List.map_cons, Bounds.unions, List.foldl_map]
      exact (List.foldl_hom side fun a c => (h.union a (box c)).symm).symm
    rw [hside]
    exact FirstLeast.foldl hbs hb

/-- A path reaches as far as the first of its least samples. -/
theorem firstLeast_bounds (h : LowSide side coordinate) {p : Path α} (coherent : p.Coherent)
    (ne : p.segments ≠ []) (numbers : ∀ a ∈ p.sampleValues coordinate, a ≤ a) :
    FirstLeast (side p.bounds) (p.sampleValues coordinate) := by
  refine h.firstLeast_unions ne fun s hs => h.firstLeast_ofPoints ?_ fun q hq => ?_
  · rw [(coherent s hs).polyline]
    exact s.curve.samples_ne_nil
  · exact numbers _ (List.mem_flatMap.mpr ⟨s, hs, List.mem_map_of_mem hq⟩)

end LowSide

/-- What taking one number off another promises, for the numbers of which `s` holds. -/
structure Subtracts (s : α → Prop) : Prop where
  number : ∀ a, s a → a ≤ a
  cancel : ∀ a, s a → a + -a = 0.0
  nonneg : ∀ a b, s a → s b → b ≤ a → 0.0 ≤ a + -b ∧ (b < a → 0.0 < a + -b)
  keep : ∀ a : α, a + -0.0 = a

namespace Path

variable [Scalar.Ordered α]

omit [Scalar.Ordered α] in
theorem sampleValues_translate {p : Path α} {d : Point α} {coordinate : Point α → α} {shift : α}
    (moves : ∀ s ∈ p.segments, (s.translate d).polyline = s.polyline.map (· + d))
    (shifts : ∀ q : Point α, coordinate (q + d) = coordinate q + shift) :
    (p.translate d).sampleValues coordinate = (p.sampleValues coordinate).map (· + shift) := by
  rw [sampleValues, sampleValues, translate, List.flatMap_map, List.map_flatMap]
  refine List.flatMap_congr fun s hs => ?_
  rw [moves s hs, List.map_map, List.map_map]
  exact List.map_congr_left fun q _ => shifts q

/-- Taking its lower side off every sample of a path leaves the lower side at zero. -/
theorem lowSide_translate {side : Bounds α → α} {coordinate : Point α → α}
    (h : LowSide side coordinate) {s : α → Prop} (hs : Subtracts s) {p : Path α} {d : Point α}
    (coherent : p.Coherent) (ne : p.segments ≠ [])
    (moves : ∀ t ∈ p.segments, (t.translate d).polyline = t.polyline.map (· + d))
    (shifts : ∀ q : Point α, coordinate (q + d) = coordinate q + -side p.bounds)
    (values : ∀ t ∈ p.segments, ∀ q ∈ t.polyline, s (coordinate q)) :
    side (p.translate d).bounds = 0.0 := by
  have hvalues : ∀ a ∈ p.sampleValues coordinate, s a := by
    intro a ha
    obtain ⟨t, ht, ha⟩ := List.mem_flatMap.mp ha
    obtain ⟨q, hq, rfl⟩ := List.mem_map.mp ha
    exact values t ht q hq
  have hleast := h.firstLeast_bounds coherent ne fun a ha => hs.number a (hvalues a ha)
  obtain ⟨hmem, hle⟩ := hleast.mem_le
  have hside := hvalues _ hmem
  have hmoved : FirstLeast 0.0 ((p.translate d).sampleValues coordinate) := by
    rw [sampleValues_translate moves shifts, ← hs.cancel _ hside]
    refine hleast.map (f := (· + -side p.bounds)) fun a ha => ?_
    rw [hs.cancel _ hside]
    exact hs.nonneg a _ (hvalues a ha) hside (hle a ha)
  refine (h.firstLeast_bounds (coherent_map _ p) ?_ ?_).unique hmoved
  · exact fun hnil => ne (List.map_eq_nil_iff.mp hnil)
  · intro a ha
    obtain ⟨_, hzero⟩ := hmoved.mem_le
    exact (Scalar.Ordered.refl_of_le (hzero a ha)).2

structure AtOrigin (p : Path α) : Prop where
  x0 : p.bounds.x0 = 0.0
  y0 : p.bounds.y0 = 0.0
  settled : p.toOrigin = p

omit [Scalar.Ordered α] in
theorem translate_translate (p : Path α) {d e : Point α} (h : ∀ q : Point α, q + e = q) :
    (p.translate d).translate e = p.translate d := by
  have hcurve (c : Curve α) : c.map (· + e) = c := by
    cases c <;> simp only [Curve.map, h]
  have hsegment (s : Segment α) : (s.translate d).translate e = s.translate d :=
    congrArg Segment.ofCurve (hcurve _)
  exact congrArg (Path.mk · p.closed)
    (List.map_map.trans (List.map_congr_left fun s _ => hsegment s))

/-- A path whose samples move with its points comes to rest at the origin. -/
theorem atOrigin_toOrigin {s : α → Prop} (hs : Subtracts s) {p : Path α} (coherent : p.Coherent)
    (moves : ∀ d, ∀ s ∈ p.segments, (s.translate d).polyline = s.polyline.map (· + d))
    (values : ∀ t ∈ p.segments, ∀ q ∈ t.polyline, s q.x ∧ s q.y) : p.toOrigin.AtOrigin := by
  obtain ⟨hx, hy⟩ : p.toOrigin.bounds.x0 = 0.0 ∧ p.toOrigin.bounds.y0 = 0.0 := by
    by_cases ne : p.segments = []
    · have hbounds : p.toOrigin.bounds = .zero := by
        simp only [toOrigin, translate, bounds, ne, List.map_nil, Bounds.unions]
      rw [hbounds]
      exact ⟨rfl, rfl⟩
    · constructor
      · exact lowSide_translate lowSide_x hs coherent ne (moves _) (fun _ => rfl)
          fun t ht q hq => (values t ht q hq).1
      · exact lowSide_translate lowSide_y hs coherent ne (moves _) (fun _ => rfl)
          fun t ht q hq => (values t ht q hq).2
  refine ⟨hx, hy, ?_⟩
  rw [toOrigin, hx, hy]
  exact p.translate_translate fun q => congrArg₂ Point.mk (hs.keep q.x) (hs.keep q.y)

end Path

open Decimal

theorem subtracts_float : Subtracts fun a : Float => (value? a).isSome = true where
  number _ ha := (Scalar.Ordered.beq_iff.mp (beq_self ha)).1
  cancel _ ha := add_neg_self ha
  nonneg _ _ ha hb h := add_neg_nonneg ha hb h
  keep := add_neg_zero

theorem Curve.samples_of_isLine {α : Type} [Scalar α] {c : Curve α} (h : c.isLine = true) :
    c.samples = c.points := by
  cases c with
  | line => rfl
  | quadratic | cubic => cases h

/-- A path of lines between finite points comes to rest at the origin exactly, although it moves
there with rounding. -/
theorem Path.atOrigin_lines {p : Path Float} (coherent : p.Coherent) (finite : p.Finite)
    (lines : ∀ s ∈ p.segments, s.curve.isLine = true) : p.toOrigin.AtOrigin := by
  refine atOrigin_toOrigin subtracts_float coherent (fun d s hs => ?_) fun s hs q hq => ?_
  · have hline := lines s hs
    rw [(coherent s hs).polyline]
    obtain ⟨c, cache⟩ := s
    cases c with
    | line => rfl
    | quadratic | cubic => cases hline
  · rw [(coherent s hs).polyline, Curve.samples_of_isLine (lines s hs)] at hq
    exact finite s hs q hq

section exact
variable {K : Type} [Field K] [LinearOrder K] [IsStrictOrderedRing K] [Root K]

theorem subtracts_exact : Subtracts fun _ : K => True where
  number a _ := le_refl a
  cancel a _ := by rw [add_neg_cancel, zero_decimal]
  nonneg a b _ _ h := by
    rw [zero_decimal, ← sub_eq_add_neg]
    exact ⟨sub_nonneg.mpr h, sub_pos.mpr⟩
  keep a := by rw [zero_decimal, neg_zero, add_zero]

theorem Path.atOrigin_exact {p : Path K} (coherent : p.Coherent) : p.toOrigin.AtOrigin :=
  atOrigin_toOrigin subtracts_exact coherent
    (fun d s hs => Segment.polyline_map (Point.straight_add d) (coherent s hs))
    fun _ _ _ _ => ⟨trivial, trivial⟩

end exact

end Reaming
