import Mathlib.Data.List.Rotate
import Reaming.Proofs.Decimal.EqualDoubles
import Reaming.Proofs.Geometry.Scaling
import Reaming.Proofs.PathData.Coherent
import Reaming.Proofs.PathData.RoundTrip
import Reaming.Proofs.PathData.Unsigned

namespace Reaming

section lists
variable {β : Type}

def edges (xs : List β) : List (β × β) := xs.zip xs.tail

/-- What is cut at an entry has the edges of both pieces, the entry belonging to both. -/
theorem edges_append (xs : List β) (m : β) (ys : List β) :
    edges (xs ++ m :: ys) = edges (xs ++ [m]) ++ edges (m :: ys) := by
  induction xs with
  | nil => rfl
  | cons x xs ih =>
    cases xs with
    | nil => rfl
    | cons y xs => exact congrArg ((x, y) :: ·) ih

theorem edges_map {γ : Type} (f : β → γ) (xs : List β) :
    edges (xs.map f) = (edges xs).map (Prod.map f f) := by
  rw [edges, edges, ← List.map_tail, List.zip_map]

end lists

section ring
variable {α : Type}

/-- Round a ring each point is followed by the one at the next place, and the last by the first. -/
theorem ringEdges_eq_zip (ps : List (Point α)) : ringEdges ps = ps.zip (ps.rotate 1) := by
  cases ps with
  | nil => rfl
  | cons p ps =>
    rw [ringEdges, List.rotate_cons_succ, List.rotate_zero]
    rfl

/-- A ring that ends at a point has the edges of the line that comes from there, the first of them
last. -/
theorem ringEdges_eq_rotate {ps : List (Point α)} {a : Point α} (h : ps.getLast? = some a) :
    ringEdges ps = (edges (a :: ps)).rotate 1 := by
  obtain ⟨qs, rfl⟩ := List.getLast?_eq_some_iff.mp h
  have hline : edges (a :: (qs ++ [a])) = (a :: qs).zip (qs ++ [a]) := by
    have h : ((a :: qs) ++ [a]).zip ((qs ++ [a]) ++ []) = _ := List.zip_append (by simp)
    rwa [List.zip_nil_right, List.append_nil, List.append_nil] at h
  rw [hline, List.zip, List.zipWith_rotate_distrib _ _ _ _ (by simp), List.rotate_cons_succ,
    List.rotate_zero, ringEdges_eq_zip, List.zip]

end ring

section samples
variable {α : Type} [Scalar α]

/-- The samples of a curve lead from its point at parameter zero, or from its very start, to its
very end. -/
theorem Curve.samples_eq (c : Curve α) : ∃ first between,
    c.samples = first :: (between ++ [c.stop]) ∧
      (first = c.start ∨ first = c.pointAt (sampleParameter 0)) := by
  have hrange : List.range sampleCount = 0 :: (List.range (sampleCount - 1)).map Nat.succ :=
    List.range_succ_eq_map
  have hcurve (h : c.samples = (List.range sampleCount).map
      (fun i => c.pointAt (sampleParameter i)) ++ [c.stop]) : ∃ first between,
      c.samples = first :: (between ++ [c.stop]) ∧
        (first = c.start ∨ first = c.pointAt (sampleParameter 0)) := by
    rw [hrange] at h
    exact ⟨_, _, h, .inr rfl⟩
  cases c with
  | line a b => exact ⟨a, [], rfl, .inl rfl⟩
  | quadratic | cubic => exact hcurve rfl

theorem Path.getLast?_polyline {p : Path α} (coherent : p.Coherent) {last : Segment α}
    (h : p.segments.getLast? = some last) : p.polyline.getLast? = some last.stop := by
  obtain ⟨ss, hss⟩ := List.getLast?_eq_some_iff.mp h
  obtain ⟨first, between, hsamples, _⟩ := last.curve.samples_eq
  have hlast := (coherent last (List.mem_of_getLast? h)).polyline.trans hsamples
  rw [polyline, hss, List.flatMap_append, List.flatMap_singleton, hlast, List.tail_cons,
    ← List.append_assoc]
  exact List.getLast?_concat

def Path.edges (p : Path α) : List (Point α × Point α) :=
  p.segments.flatMap fun s => Reaming.edges s.polyline

variable {f : Point α → Point α}

/-- Segments that lead on from each other have the edges of one line: every inner end of a segment
is on it once. -/
theorem Trail.edges {a b : Point α} {ss : List (Segment α)} (trail : Trail a ss b)
    (coherent : ∀ s ∈ ss, s.Coherent)
    (starts : ∀ s ∈ ss, f (s.curve.pointAt (Curve.sampleParameter 0)) = f s.start) :
    Reaming.edges ((a :: ss.flatMap fun s => s.polyline.tail).map f) =
      (ss.flatMap fun s => Reaming.edges s.polyline).map (Prod.map f f) := by
  induction ss generalizing a with
  | nil => rfl
  | cons s ss ih =>
    obtain ⟨rfl, trail⟩ := trail
    rw [List.forall_mem_cons] at coherent starts
    obtain ⟨first, between, hsamples, hfirst⟩ := s.curve.samples_eq
    have hpolyline : s.polyline = first :: (between ++ [s.stop]) :=
      coherent.1.polyline.trans hsamples
    have hstart : f first = f s.start := by
      rcases hfirst with rfl | rfl
      · rfl
      · exact starts.1
    have hhead : (f s.start :: (between.map f ++ [f s.stop])) = s.polyline.map f := by
      rw [hpolyline, ← hstart, List.map_cons, List.map_append, List.map_singleton]
    have hrest := ih trail coherent.2 starts.2
    rw [List.map_cons] at hrest
    calc Reaming.edges ((s.start :: (s :: ss).flatMap fun s => s.polyline.tail).map f)
        = Reaming.edges ((f s.start :: between.map f) ++
            f s.stop :: (ss.flatMap fun s => s.polyline.tail).map f) := by
          rw [List.flatMap_cons, hpolyline]
          simp
      _ = Reaming.edges (s.polyline.map f) ++
            (ss.flatMap fun s => Reaming.edges s.polyline).map (Prod.map f f) := by
          rw [edges_append, hrest, ← hhead, List.cons_append]
      _ = _ := by rw [edges_map, List.flatMap_cons, List.map_append]

/-- The ring of a closed path goes once along the samples of its segments, beginning behind the
first edge, as far as `f` tells points apart. -/
theorem Path.Chained.ringEdges {p : Path α} (chained : p.Chained) (coherent : p.Coherent)
    (closed : p.closed = true)
    (starts : ∀ s ∈ p.segments, f (s.curve.pointAt (Curve.sampleParameter 0)) = f s.start) :
    (Reaming.ringEdges p.polyline).map (Prod.map f f) =
      (p.edges.map (Prod.map f f)).rotate 1 := by
  obtain ⟨first, rest, hsegments⟩ := List.exists_cons_of_ne_nil chained.nonempty
  obtain ⟨last, hlast, trail⟩ := trail_of_isChain (hsegments ▸ chained.linked)
  rw [← hsegments] at hlast trail
  have hreturns : last.stop = first.start :=
    chained.returns closed first last (congrArg List.head? hsegments) hlast
  have hend := getLast?_polyline coherent hlast
  rw [hreturns] at hend trail
  rw [← ringEdges_map, Path.edges, ← trail.edges coherent starts, List.map_cons]
  apply ringEdges_eq_rotate
  rw [List.getLast?_map]
  exact congrArg (Option.map f) hend

end samples

section doubles
open Decimal

namespace Point

theorem unsign_sub (p q : Point Float) : (p.unsign - q.unsign).unsign = (p - q).unsign :=
  congrArg₂ Point.mk (Decimal.unsign_sub p.x q.x) (Decimal.unsign_sub p.y q.y)

theorem finite_unsign (p : Point Float) : p.unsign.Finite ↔ p.Finite := by
  rw [Finite, unsign, isSome_value?_unsign, isSome_value?_unsign, Finite]

/-- Whether a step is finite does not hang on the signs of zeros. -/
theorem finite_sub_congr {p q a b : Point Float} (hp : p.unsign = a.unsign)
    (hq : q.unsign = b.unsign) : (p - q).Finite ↔ (a - b).Finite := by
  rw [← finite_unsign, ← unsign_sub, hp, hq, unsign_sub, finite_unsign]

/-- At parameter zero the point between two points is the first one, unless they are too far
apart. -/
theorem unsign_lerp_zero {p q : Point Float} (h : (q - p).Finite) :
    (p.lerp q 0.0).unsign = p.unsign := by
  have hterm (x : Float) {y : Float} (hy : (value? y).isSome = true) :
      Decimal.unsign (x + y * 0.0) = Decimal.unsign x := by
    rw [← unsign_add, unsign_mul_plus_zero hy, add_zero_eq_unsign, unsign_unsign, unsign_unsign]
  exact congrArg₂ Point.mk (hterm p.x h.1) (hterm p.y h.2)

end Point

/-- No step from a point of a curve to its next one is too long for a double. -/
def Curve.FiniteSteps (c : Curve Float) : Prop := ∀ e ∈ edges c.points, (e.2 - e.1).Finite

instance (c : Curve Float) : Decidable c.FiniteSteps :=
  inferInstanceAs (Decidable (∀ e ∈ edges c.points, (e.2 - e.1).Finite))

/-- The first sample of a curve is its start, but for the signs of zeros. -/
theorem Curve.unsign_pointAt_zero {c : Curve Float} (h : c.FiniteSteps) :
    (c.pointAt (sampleParameter 0)).unsign = c.start.unsign := by
  have hzero : (sampleParameter 0 : Float) = 0.0 := by decide +kernel
  rw [hzero]
  /- Points that stand close to the starts of neighbouring steps are again joined at the first. -/
  have hlerp {p q a b : Point Float} (hp : p.unsign = a.unsign) (hq : q.unsign = b.unsign)
      (hab : (b - a).Finite) : (p.lerp q 0.0).unsign = a.unsign :=
    (Point.unsign_lerp_zero ((Point.finite_sub_congr hq hp).mpr hab)).trans hp
  cases c with
  | line a b =>
    have hab : (b - a).Finite := h (a, b) (by simp [edges, points])
    exact Point.unsign_lerp_zero hab
  | quadratic a b c =>
    have hab : (b - a).Finite := h (a, b) (by simp [edges, points])
    have hbc : (c - b).Finite := h (b, c) (by simp [edges, points])
    exact hlerp (Point.unsign_lerp_zero hab) (Point.unsign_lerp_zero hbc) hab
  | cubic a b c d =>
    have hab : (b - a).Finite := h (a, b) (by simp [edges, points])
    have hbc : (c - b).Finite := h (b, c) (by simp [edges, points])
    have hcd : (d - c).Finite := h (c, d) (by simp [edges, points])
    have hfirst := Point.unsign_lerp_zero hab
    have hsecond := Point.unsign_lerp_zero hbc
    have hthird := Point.unsign_lerp_zero hcd
    exact hlerp (hlerp hfirst hsecond hab) (hlerp hsecond hthird hbc) hab

def Path.FiniteSteps (p : Path Float) : Prop := ∀ s ∈ p.segments, s.curve.FiniteSteps

instance (p : Path Float) : Decidable p.FiniteSteps :=
  inferInstanceAs (Decidable (∀ s ∈ p.segments, s.curve.FiniteSteps))

/-- What an edge adds to an area does not hang on the signs of zeros, its own apart. -/
theorem unsign_shoelaceTerm (a b : Point Float) :
    Decimal.unsign (shoelaceTerm a.unsign b.unsign) = Decimal.unsign (shoelaceTerm a b) := by
  have hsum := unsign_add a.y b.y
  have hstep := Decimal.unsign_sub a.x b.x
  change Decimal.unsign ((Decimal.unsign a.y + Decimal.unsign b.y) *
    (Decimal.unsign a.x - Decimal.unsign b.x) * 0.5) =
    Decimal.unsign ((a.y + b.y) * (a.x - b.x) * 0.5)
  rw [← unsign_mul, ← unsign_mul (_ + _), hsum, hstep, unsign_mul (_ + _), unsign_mul]

end doubles

section exact
variable {K : Type} [Field K] [LinearOrder K] [IsStrictOrderedRing K] [Root K]

omit [IsStrictOrderedRing K] in
theorem Curve.pointAt_zero (c : Curve K) : c.pointAt (sampleParameter 0) = c.start := by
  have hzero : (sampleParameter 0 : K) = 0 := by
    change ((0 : Nat) : K) / ((sampleCount : Nat) : K) = 0
    rw [Nat.cast_zero, zero_div]
  have hlerp (p q : Point K) : p.lerp q 0 = p := by
    change (⟨p.x + (q.x - p.x) * 0, p.y + (q.y - p.y) * 0⟩ : Point K) = p
    rw [mul_zero, mul_zero, add_zero, add_zero]
  rw [hzero]
  cases c <;> simp only [pointAt, hlerp, start]

end exact

variable {K : Type} [Field K] [LinearOrder K] [IsStrictOrderedRing K] [Root K]

/-- The ring of a closed path that was read goes once along the samples of its segments, one segment
after the other, and begins behind the first edge. Doubles may differ in the signs of zeros, as long
as no step along a curve is too long for one; what the edges add to the area then agrees as well. In
exact arithmetic the area is that of the segments' edges, and moving the path does not change it. -/
theorem read_ring {text : String} :
    (∀ ps : List (Path Float), PathData.read text = .ok ps →
      ∀ p ∈ ps, p.closed = true → p.FiniteSteps →
        ringEdges p.polyline = p.polyline.zip (p.polyline.rotate 1) ∧
        (ringEdges p.polyline).map (Prod.map Point.unsign Point.unsign) =
          (p.edges.map (Prod.map Point.unsign Point.unsign)).rotate 1 ∧
        ((ringEdges p.polyline).map fun e => Decimal.unsign (shoelaceTerm e.1 e.2)) =
          (p.edges.map fun e => Decimal.unsign (shoelaceTerm e.1 e.2)).rotate 1) ∧
    ∀ ps : List (Path K), PathData.read text = .ok ps → ∀ p ∈ ps, p.closed = true →
      ringEdges p.polyline = p.edges.rotate 1 ∧
      p.area = |(p.edges.map fun e => shoelaceTerm e.1 e.2).sum| ∧
      ∀ d, (p.translated d).area = p.area := by
  constructor
  · intro ps read p mem closed finite
    have hedges := (PathData.read_chained read p mem).ringEdges (PathData.read_coherent read p mem)
      closed fun s hs => Curve.unsign_pointAt_zero (finite s hs)
    refine ⟨ringEdges_eq_zip _, hedges, ?_⟩
    have hterms (es : List (Point Float × Point Float)) :
        (es.map fun e => Decimal.unsign (shoelaceTerm e.1 e.2)) =
          (es.map (Prod.map Point.unsign Point.unsign)).map fun e =>
            Decimal.unsign (shoelaceTerm e.1 e.2) := by
      rw [List.map_map]
      exact List.map_congr_left fun e _ => (unsign_shoelaceTerm e.1 e.2).symm
    rw [hterms, hedges, List.map_rotate, ← hterms]
  · intro ps read p mem closed
    have coherent := PathData.read_coherent read p mem
    have hedges := (PathData.read_chained read p mem).ringEdges coherent closed (f := id)
      fun s _ => Curve.pointAt_zero s.curve
    rw [Prod.map_id, List.map_id, List.map_id] at hedges
    refine ⟨hedges, ?_, Path.area_translate coherent⟩
    rw [Path.area, if_pos closed, signedArea_exact, hedges, List.map_rotate,
      (List.rotate_perm _ 1).sum_eq]
    rfl

/-- An arch over a line, and in exact arithmetic a triangle, wherever it lies. -/
theorem read_ring_arch :
    (∃ p : Path Float, PathData.read "M0 0Q5 10 10 0Z" = .ok [p] ∧ p.closed = true ∧
      p.FiniteSteps ∧ p.segments.length = 2 ∧
      (ringEdges p.polyline).map (Prod.map Point.unsign Point.unsign) =
        (p.edges.map (Prod.map Point.unsign Point.unsign)).rotate 1) ∧
    ∃ p : Path ℚ, PathData.read "M0 0H4V3Z" = .ok [p] ∧ p.closed = true ∧
      |(p.edges.map fun e => shoelaceTerm e.1 e.2).sum| = 6 ∧ ∀ d, (p.translated d).area = 6 := by
  constructor
  · have hview : (PathData.read "M0 0Q5 10 10 0Z").map (List.map fun p : Path Float =>
        (p.closed, decide p.FiniteSteps, p.segments.length)) = .ok [(true, true, 2)] := by
      decide +kernel
    obtain ⟨p, hread, hp⟩ := exists_read_singleton hview
    obtain ⟨hclosed, hfinite, hsegments⟩ := Prod.mk.inj hp |>.imp_right Prod.mk.inj
    have hfinite := of_decide_eq_true hfinite
    obtain ⟨_, hedges, _⟩ := (read_ring (K := ℚ)).1 [p] hread p (List.mem_singleton_self p) hclosed
      hfinite
    exact ⟨p, hread, hclosed, hfinite, hsegments, hedges⟩
  · have hview : (PathData.read "M0 0H4V3Z").map (List.map fun p : Path ℚ =>
        (p.closed, p.area)) = .ok [(true, 6)] := by
      decide +kernel
    obtain ⟨p, hread, hp⟩ := exists_read_singleton hview
    obtain ⟨hclosed, harea⟩ := Prod.mk.inj hp
    obtain ⟨_, hsum, hmoved⟩ := read_ring.2 [p] hread p (List.mem_singleton_self p) hclosed
    rw [harea] at hsum hmoved
    exact ⟨p, hread, hclosed, hsum.symm, hmoved⟩

end Reaming
