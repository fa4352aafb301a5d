import Mathlib.Algebra.Order.Ring.Abs
import Reaming.Proofs.Geometry.Cache
import Reaming.Proofs.Geometry.Flat

namespace Reaming

section straight
variable {α : Type} [Scalar α]

/-- Maps of the plane that keep the points between two points between them. -/
def Point.Straight (f : Point α → Point α) : Prop :=
  ∀ p q t, f (p.lerp q t) = (f p).lerp (f q) t

variable {f : Point α → Point α}

theorem Curve.pointAt_map (hf : Point.Straight f) (c : Curve α) (t : α) :
    (c.map f).pointAt t = f (c.pointAt t) := by
  cases c <;> simp only [map, pointAt, hf _ _ _]

theorem Curve.samples_map (hf : Point.Straight f) (c : Curve α) :
    (c.map f).samples = c.samples.map f := by
  have hpoints (n : Nat) : (List.range n).map (fun i => (c.map f).pointAt (sampleParameter i)) =
      ((List.range n).map fun i => c.pointAt (sampleParameter i)).map f := by
    rw [List.map_map]
    exact List.map_congr_left fun i _ => c.pointAt_map hf (sampleParameter i)
  have hstop : [(c.map f).stop] = [c.stop].map f := congrArg ([·]) (c.stop_map f)
  cases c with
  | line => rfl
  | quadratic | cubic =>
    exact (congrArg₂ (· ++ ·) (hpoints sampleCount) hstop).trans List.map_append.symm

theorem Segment.polyline_map (hf : Point.Straight f) {s : Segment α} (h : s.Coherent) :
    (s.map f).polyline = s.polyline.map f := by
  rw [h.polyline, ← Curve.samples_map hf]
  rfl

theorem Path.polyline_map (hf : Point.Straight f) {p : Path α} (h : p.Coherent) :
    (p.map f).polyline = p.polyline.map f := by
  rw [polyline, polyline, map, List.flatMap_map, List.map_flatMap]
  refine List.flatMap_congr fun s hs => ?_
  rw [Segment.polyline_map hf (h s hs), List.map_tail]

theorem Path.coherent_map (f : Point α → Point α) (p : Path α) : (p.map f).Coherent := by
  intro s hs
  obtain ⟨t, _, rfl⟩ := List.mem_map.mp hs
  exact Segment.coherent_ofCurve _

omit [Scalar α] in
theorem ringEdges_map (f : Point α → Point α) (ps : List (Point α)) :
    ringEdges (ps.map f) = (ringEdges ps).map (Prod.map f f) := by
  have hnext : (ps.map f).tail ++ (ps.map f).head?.toList = (ps.tail ++ ps.head?.toList).map f := by
    cases ps with
    | nil => rfl
    | cons p ps => simp
  rw [ringEdges, hnext, List.zip_map]
  rfl

end straight

variable {K : Type} [Field K] [LinearOrder K] [IsStrictOrderedRing K] [Root K]

omit [IsStrictOrderedRing K] in
theorem Point.straight_scale (k : K) : Straight (Point.scale k) := by
  intro p q t
  change (⟨(p.x + (q.x - p.x) * t) * k, (p.y + (q.y - p.y) * t) * k⟩ : Point K) =
    ⟨p.x * k + (q.x * k - p.x * k) * t, p.y * k + (q.y * k - p.y * k) * t⟩
  congr 1 <;> ring

omit [IsStrictOrderedRing K] in
theorem Point.straight_add (d : Point K) : Straight (· + d) := by
  intro p q t
  change (⟨p.x + (q.x - p.x) * t + d.x, p.y + (q.y - p.y) * t + d.y⟩ : Point K) =
    ⟨p.x + d.x + (q.x + d.x - (p.x + d.x)) * t, p.y + d.y + (q.y + d.y - (p.y + d.y)) * t⟩
  congr 1 <;> ring

theorem signedArea_scale (k : K) (ps : List (Point K)) :
    signedArea (ps.map (Point.scale k)) = signedArea ps * (k * k) := by
  rw [signedArea_exact, signedArea_exact, ringEdges_map, List.map_map, ← List.sum_map_mul_right]
  refine congrArg List.sum (List.map_congr_left fun e _ => ?_)
  change (e.1.y * k + e.2.y * k) * (e.1.x * k - e.2.x * k) * 0.5 =
    (e.1.y + e.2.y) * (e.1.x - e.2.x) * 0.5 * (k * k)
  ring

/-- A ring that is moved keeps its area: what every edge gains is a multiple of its step. -/
theorem signedArea_add (d : Point K) (ps : List (Point K)) :
    signedArea (ps.map (· + d)) = signedArea ps := by
  have hterms : ((ringEdges ps).map (Prod.map (· + d) (· + d))).map
        (fun e => shoelaceTerm e.1 e.2) =
      (ringEdges ps).map fun e => shoelaceTerm e.1 e.2 + d.y * (e.1.x - e.2.x) := by
    rw [List.map_map]
    refine List.map_congr_left fun e _ => ?_
    change (e.1.y + d.y + (e.2.y + d.y)) * (e.1.x + d.x - (e.2.x + d.x)) * 0.5 =
      (e.1.y + e.2.y) * (e.1.x - e.2.x) * 0.5 + d.y * (e.1.x - e.2.x)
    ring
  rw [signedArea_exact, signedArea_exact, ringEdges_map, hterms, List.sum_map_add,
    List.sum_map_mul_left, ringEdges_steps, mul_zero, add_zero]

namespace Path

theorem area_scale {p : Path K} (h : p.Coherent) (k : K) :
    (p.scale k).area = p.area * (k * k) := by
  have hpolyline : (p.scale k).polyline = p.polyline.map (Point.scale k) :=
    polyline_map (Point.straight_scale k) h
  have hclosed : (p.scale k).closed = p.closed := rfl
  rw [area, area, hpolyline, hclosed, signedArea_scale]
  split
  · exact (abs_mul _ _).trans (congrArg (_ * ·) (abs_mul_self k))
  · rw [zero_decimal, zero_mul]

theorem area_translate {p : Path K} (h : p.Coherent) (d : Point K) :
    (p.translate d).area = p.area := by
  have hpolyline : (p.translate d).polyline = p.polyline.map (· + d) :=
    polyline_map (Point.straight_add d) h
  have hclosed : (p.translate d).closed = p.closed := rfl
  rw [area, area, hpolyline, hclosed, signedArea_add]

theorem area_toOrigin {p : Path K} (h : p.Coherent) : p.toOrigin.area = p.area :=
  area_translate h _

end Path

namespace Scalar

omit [IsStrictOrderedRing K] in
theorem min_exact (a b : K) : Scalar.min a b = Min.min a b := by
  rw [Scalar.min, isNaN_exact, if_neg Bool.false_ne_true]
  split
  · rename_i h
    exact (min_eq_right (le_of_lt h)).symm
  · rename_i h
    exact (min_eq_left (not_lt.mp h)).symm

omit [IsStrictOrderedRing K] in
theorem max_exact (a b : K) : Scalar.max a b = Max.max a b := by
  rw [Scalar.max, isNaN_exact, if_neg Bool.false_ne_true]
  split
  · rename_i h
    exact (max_eq_right (le_of_lt h)).symm
  · rename_i h
    exact (max_eq_left (not_lt.mp h)).symm

end Scalar

namespace Bounds

/-- The box around the scaled points. A negative factor swaps the corners. -/
def scale (k : K) (b : Bounds K) : Bounds K :=
  if 0 ≤ k then ⟨b.x0 * k, b.y0 * k, b.x1 * k, b.y1 * k⟩
  else ⟨b.x1 * k, b.y1 * k, b.x0 * k, b.y0 * k⟩

omit [IsStrictOrderedRing K] in
theorem ofPoint_scale (k : K) (p : Point K) : ofPoint (p.scale k) = (ofPoint p).scale k := by
  rw [scale]
  split <;> rfl

theorem zero_scale (k : K) : (zero : Bounds K).scale k = zero := by
  simp [scale, zero]

theorem union_scale (k : K) (a b : Bounds K) :
    (a.union b).scale k = (a.scale k).union (b.scale k) := by
  simp only [scale]
  split
  · rename_i hk
    have hmono : Monotone fun a : K => a * k := fun a b h => mul_le_mul_of_nonneg_right h hk
    simp only [union, Scalar.min_exact, Scalar.max_exact, hmono.map_min, hmono.map_max]
  · rename_i hk
    have hanti : Antitone fun a : K => a * k := fun a b h =>
      mul_le_mul_of_nonpos_right h (le_of_not_ge hk)
    simp only [union, Scalar.min_exact, Scalar.max_exact, hanti.map_min, hanti.map_max]

theorem foldl_union_scale {β : Type} (k : K) (box scaled : β → Bounds K)
    (h : ∀ x, scaled x = (box x).scale k) (xs : List β) (b : Bounds K) :
    xs.foldl (fun b x => b.union (scaled x)) (b.scale k) =
      (xs.foldl (fun b x => b.union (box x)) b).scale k := by
  induction xs generalizing b with
  | nil => rfl
  | cons x xs ih => rw [List.foldl_cons, List.foldl_cons, h, ← union_scale, ih]

theorem ofPoints_scale (k : K) (ps : List (Point K)) :
    ofPoints (ps.map (Point.scale k)) = (ofPoints ps).scale k := by
  cases ps with
  | nil => exact (zero_scale k).symm
  | cons p ps =>
    rw [List.map_cons, ofPoints, ofPoints, ofPoint_scale, List.foldl_map]
    exact foldl_union_scale k ofPoint (fun p => ofPoint (p.scale k)) (ofPoint_scale k) ps _

theorem unions_scale (k : K) (bs : List (Bounds K)) :
    unions (bs.map (scale k)) = (unions bs).scale k := by
  cases bs with
  | nil => exact (zero_scale k).symm
  | cons b bs =>
    rw [List.map_cons, unions, unions, List.foldl_map]
    exact foldl_union_scale k id (scale k) (fun _ => rfl) bs b

theorem encloses_scale {k : K} (hk : k ≠ 0) (a b : Bounds K) :
    (a.scale k).encloses (b.scale k) = a.encloses b := by
  rw [Bool.eq_iff_iff, encloses_iff, encloses_iff, scale, scale]
  rcases lt_or_gt_of_ne hk with hneg | hpos
  · have hswap (u v : K) : u * k ≤ v * k ↔ v ≤ u := mul_le_mul_right_of_neg hneg
    rw [if_neg (not_le.mpr hneg), if_neg (not_le.mpr hneg)]
    constructor
    · rintro ⟨h₁, h₂, h₃, h₄⟩
      exact ⟨(hswap _ _).mp h₃, (hswap _ _).mp h₄, (hswap _ _).mp h₁, (hswap _ _).mp h₂⟩
    · rintro ⟨h₁, h₂, h₃, h₄⟩
      exact ⟨(hswap _ _).mpr h₃, (hswap _ _).mpr h₄, (hswap _ _).mpr h₁, (hswap _ _).mpr h₂⟩
  · have hkeep (u v : K) : u * k ≤ v * k ↔ u ≤ v := mul_le_mul_iff_left₀ hpos
    rw [if_pos (le_of_lt hpos), if_pos (le_of_lt hpos)]
    exact and_congr (hkeep _ _) (and_congr (hkeep _ _) (and_congr (hkeep _ _) (hkeep _ _)))

theorem beq_scale {k : K} (hk : k ≠ 0) (a b : Bounds K) :
    (a.scale k == b.scale k) = (a == b) := by
  rw [Bool.eq_iff_iff, beq_iff_encloses, beq_iff_encloses, encloses_scale hk, encloses_scale hk]

omit [IsStrictOrderedRing K] in
theorem area_scale (k : K) (b : Bounds K) : (b.scale k).area = b.area * (k * k) := by
  rw [scale]
  split
  · change (b.x1 * k - b.x0 * k) * (b.y1 * k - b.y0 * k) = (b.x1 - b.x0) * (b.y1 - b.y0) * (k * k)
    ring
  · change (b.x0 * k - b.x1 * k) * (b.y0 * k - b.y1 * k) = (b.x1 - b.x0) * (b.y1 - b.y0) * (k * k)
    ring

theorem area_lt_scale {k : K} (hk : k ≠ 0) (a b : Bounds K) :
    (a.scale k).area < (b.scale k).area ↔ a.area < b.area := by
  rw [area_scale, area_scale]
  exact mul_lt_mul_iff_left₀ (mul_self_pos.mpr hk)

end Bounds

theorem Path.bounds_scale {p : Path K} (h : p.Coherent) (k : K) :
    (p.scale k).bounds = p.bounds.scale k := by
  have hsegments : (p.scale k).segments.map Segment.bounds =
      (p.segments.map Segment.bounds).map (Bounds.scale k) := by
    rw [List.map_map]
    refine (List.map_map).trans (List.map_congr_left fun s hs => ?_)
    have hpolyline : (s.scale k).polyline = s.polyline.map (Point.scale k) :=
      Segment.polyline_map (Point.straight_scale k) (h s hs)
    exact (congrArg Bounds.ofPoints hpolyline).trans (Bounds.ofPoints_scale k _)
  rw [bounds, bounds, hsegments, Bounds.unions_scale]

end Reaming
