import Reaming.Proofs.Geometry.Corner
import Reaming.Proofs.Geometry.Edges

namespace Reaming

variable {α : Type} [Scalar α]

/-- One of the values, and in order before all of them that are numbers. It is no number only if
none of them is. -/
structure Extreme (le : α → α → Prop) (m : α) (xs : List α) : Prop where
  mem : m ∈ xs
  first : ∀ x ∈ xs, Scalar.isNaN x = false → le m x
  number : Scalar.isNaN m = true → ∀ x ∈ xs, Scalar.isNaN x = true

/-- What choosing one of two values promises: one that no number of the two precedes. The order is
one of numbers. -/
structure Chooses (choose : α → α → α) (le : α → α → Prop) : Prop where
  either : ∀ a b, choose a b = a ∨ choose a b = b
  left : ∀ {a} b, Scalar.isNaN a = false → le (choose a b) a
  right : ∀ a {b}, Scalar.isNaN b = false → le (choose a b) b
  trans : ∀ {a b c}, le a b → le b c → le a c
  antisymm : ∀ {a b}, le a b → le b a → (a == b) = true
  number : ∀ {a b}, le a b → Scalar.isNaN a = false ∧ Scalar.isNaN b = false

theorem either_of_ite {β : Type} (p q : Prop) [Decidable p] [Decidable q] (a b : β) :
    (if p then b else if q then b else a) = a ∨ (if p then b else if q then b else a) = b := by
  split
  · exact .inr rfl
  · split
    · exact .inr rfl
    · exact .inl rfl

section choose
variable [Scalar.Ordered α]

theorem chooses_min : Chooses (α := α) Scalar.min (· ≤ ·) where
  either a b := either_of_ite _ _ a b
  left b ha := Scalar.min_le_left b (Scalar.isNaN_iff.mp ha)
  right a _ hb := Scalar.min_le_right a (Scalar.isNaN_iff.mp hb)
  trans := Scalar.Ordered.le_trans
  antisymm hab hba := Scalar.Ordered.beq_iff.mpr ⟨hab, hba⟩
  number h := (Scalar.Ordered.refl_of_le h).imp Scalar.isNaN_iff.mpr Scalar.isNaN_iff.mpr

theorem chooses_max : Chooses (α := α) Scalar.max (· ≥ ·) where
  either a b := either_of_ite _ _ a b
  left b ha := Scalar.le_max_left b (Scalar.isNaN_iff.mp ha)
  right a _ hb := Scalar.le_max_right a (Scalar.isNaN_iff.mp hb)
  trans hab hbc := Scalar.Ordered.le_trans hbc hab
  antisymm hab hba := Scalar.Ordered.beq_iff.mpr ⟨hba, hab⟩
  number h := (Scalar.Ordered.refl_of_le h).symm.imp Scalar.isNaN_iff.mpr Scalar.isNaN_iff.mpr

end choose

namespace Extreme

variable {choose : α → α → α} {le : α → α → Prop} {m n : α} {xs ys : List α}

theorem of_first (hc : Chooses choose le) (mem : m ∈ xs)
    (first : ∀ x ∈ xs, Scalar.isNaN x = false → le m x) : Extreme le m xs := by
  refine ⟨mem, first, fun hm x hx => ?_⟩
  by_contra hnumber
  rw [(hc.number (first x hx (Bool.eq_false_iff.mpr hnumber))).1] at hm
  cases hm

theorem singleton [Scalar.Ordered α] (hc : Chooses choose le) (m : α) : Extreme le m [m] := by
  refine of_first hc List.mem_cons_self fun x hx hnumber => ?_
  obtain rfl := List.mem_singleton.mp hx
  have hle := hc.left x hnumber
  rwa [(hc.either x x).elim id id] at hle

theorem append (hc : Chooses choose le) (hm : Extreme le m xs) (hn : Extreme le n ys) :
    Extreme le (choose m n) (xs ++ ys) := by
  refine of_first hc ?_ fun x hx hnumber => ?_
  · rcases hc.either m n with h | h
    · rw [h]
      exact List.mem_append_left _ hm.mem
    · rw [h]
      exact List.mem_append_right _ hn.mem
  · rcases List.mem_append.mp hx with hx | hx
    · have hle := hm.first x hx hnumber
      exact hc.trans (hc.left n (hc.number hle).1) hle
    · have hle := hn.first x hx hnumber
      exact hc.trans (hc.right m (hc.number hle).1) hle

/-- The extreme value depends only on which values there are, but for the signs of zeros. -/
theorem alike (hc : Chooses choose le) (hm : Extreme le m xs) (hn : Extreme le n ys)
    (same : ∀ x, x ∈ xs ↔ x ∈ ys) : Scalar.Alike m n := by
  have hmys := (same m).mp hm.mem
  have hnxs := (same n).mpr hn.mem
  cases hmn : Scalar.isNaN m with
  | true => exact .inr ⟨hmn, hm.number hmn n hnxs⟩
  | false =>
    cases hnn : Scalar.isNaN n with
    | true => exact absurd (hn.number hnn m hmys) (Bool.eq_false_iff.mp hmn)
    | false => exact .inl (hc.antisymm (hm.first n hnxs hnn) (hn.first m hmys hmn))

end Extreme

namespace Bounds

/-- The sides of the box are the least and the greatest coordinates of the points, as far as these
are numbers. -/
structure Tight (b : Bounds α) (ps : List (Point α)) : Prop where
  x0 : Extreme (· ≤ ·) b.x0 (ps.map Point.x)
  y0 : Extreme (· ≤ ·) b.y0 (ps.map Point.y)
  x1 : Extreme (· ≥ ·) b.x1 (ps.map Point.x)
  y1 : Extreme (· ≥ ·) b.y1 (ps.map Point.y)

structure Alike (a b : Bounds α) : Prop where
  x0 : Scalar.Alike a.x0 b.x0
  y0 : Scalar.Alike a.y0 b.y0
  x1 : Scalar.Alike a.x1 b.x1
  y1 : Scalar.Alike a.y1 b.y1

variable [Scalar.Ordered α]

theorem tight_ofPoint (p : Point α) : (ofPoint p).Tight [p] :=
  ⟨.singleton chooses_min p.x, .singleton chooses_min p.y, .singleton chooses_max p.x,
    .singleton chooses_max p.y⟩

theorem Tight.union {a b : Bounds α} {ps qs : List (Point α)} (ha : a.Tight ps) (hb : b.Tight qs) :
    (a.union b).Tight (ps ++ qs) := by
  constructor <;> rw [List.map_append]
  · exact ha.x0.append chooses_min hb.x0
  · exact ha.y0.append chooses_min hb.y0
  · exact ha.x1.append chooses_max hb.x1
  · exact ha.y1.append chooses_max hb.y1

/-- Boxes put together one after the other are tight about all their points. -/
theorem Tight.foldl {β : Type} {box : β → Bounds α} {points : β → List (Point α)} {xs : List β}
    (h : ∀ x ∈ xs, (box x).Tight (points x)) {b : Bounds α} {ps : List (Point α)}
    (start : b.Tight ps) :
    (xs.foldl (fun b x => b.union (box x)) b).Tight (ps ++ xs.flatMap points) := by
  induction xs generalizing b ps with
  | nil => rwa [List.flatMap_nil, List.append_nil]
  | cons x xs ih =>
    obtain ⟨hx, hxs⟩ := List.forall_mem_cons.mp h
    rw [List.flatMap_cons, ← List.append_assoc]
    exact ih hxs (start.union hx)

theorem tight_ofPoints {ps : List (Point α)} (ne : ps ≠ []) : (ofPoints ps).Tight ps := by
  obtain ⟨p, ps, rfl⟩ := List.exists_cons_of_ne_nil ne
  have hpoints : ∀ q ∈ ps, (ofPoint q).Tight [q] := fun q _ => tight_ofPoint q
  have h := Tight.foldl hpoints (tight_ofPoint p)
  rwa [List.flatMap_singleton', List.singleton_append] at h

theorem tight_unions {β : Type} {box : β → Bounds α} {points : β → List (Point α)} {xs : List β}
    (ne : xs ≠ []) (h : ∀ x ∈ xs, (box x).Tight (points x)) :
    (unions (xs.map box)).Tight (xs.flatMap points) := by
  obtain ⟨x, xs, rfl⟩ := List.exists_cons_of_ne_nil ne
  obtain ⟨hx, hxs⟩ := List.forall_mem_cons.mp h
  rw [List.map_cons, unions, List.foldl_map, List.flatMap_cons]
  exact .foldl hxs hx

theorem Tight.covers {b : Bounds α} {ps : List (Point α)} (h : b.Tight ps) {p : Point α}
    (hp : p ∈ ps) : b.Covers p := by
  have hx := List.mem_map_of_mem (f := Point.x) hp
  have hy := List.mem_map_of_mem (f := Point.y) hp
  refine ⟨fun hnumber => ?_, fun hnumber => ?_⟩
  · rw [← Scalar.isNaN_iff] at hnumber
    exact ⟨h.x0.first _ hx hnumber, h.x1.first _ hx hnumber⟩
  · rw [← Scalar.isNaN_iff] at hnumber
    exact ⟨h.y0.first _ hy hnumber, h.y1.first _ hy hnumber⟩

theorem Tight.alike {a b : Bounds α} {ps qs : List (Point α)} (ha : a.Tight ps) (hb : b.Tight qs)
    (same : ∀ p, p ∈ ps ↔ p ∈ qs) : a.Alike b := by
  have hmap (f : Point α → α) (x : α) : x ∈ ps.map f ↔ x ∈ qs.map f := by
    simp only [List.mem_map, same]
  exact ⟨ha.x0.alike chooses_min hb.x0 (hmap _), ha.y0.alike chooses_min hb.y0 (hmap _),
    ha.x1.alike chooses_max hb.x1 (hmap _), ha.y1.alike chooses_max hb.y1 (hmap _)⟩

end Bounds

namespace Path

def samples (p : Path α) : List (Point α) := p.segments.flatMap Segment.polyline

theorem coherent_ofCurves (cs : List (Curve α)) (closed : Bool) :
    Coherent ⟨cs.map Segment.ofCurve, closed⟩ :=
  List.forall_mem_map.mpr fun c _ => Segment.coherent_ofCurve c

theorem Coherent.samples_eq {p : Path α} (h : p.Coherent) :
    p.samples = p.segments.flatMap fun s => s.curve.samples :=
  List.flatMap_congr fun s hs => (h s hs).polyline

variable [Scalar.Ordered α]

theorem tight_bounds {p : Path α} (coherent : p.Coherent) (ne : p.segments ≠ []) :
    p.bounds.Tight p.samples := by
  refine Bounds.tight_unions ne fun s hs => Bounds.tight_ofPoints ?_
  rw [(coherent s hs).polyline]
  exact s.curve.samples_ne_nil

theorem alike_bounds {p q : Path α} (coherent : p.Coherent) (ne : p.segments ≠ [])
    (perm : q.segments.Perm p.segments) : q.bounds.Alike p.bounds := by
  have hcoherent : q.Coherent := fun s hs => coherent s (perm.mem_iff.mp hs)
  have hne : q.segments ≠ [] := fun hnil => ne (List.nil_perm.mp (hnil ▸ perm))
  refine (tight_bounds hcoherent hne).alike (tight_bounds coherent ne) fun x => ?_
  exact (perm.flatMap_right Segment.polyline).mem_iff

end Path

section exact
variable {K : Type} [Field K] [LinearOrder K] [IsStrictOrderedRing K] [Root K]

namespace Bounds

omit [IsStrictOrderedRing K] in
theorem covers_exact {b : Bounds K} {p : Point K} :
    b.Covers p ↔ (b.x0 ≤ p.x ∧ p.x ≤ b.x1) ∧ b.y0 ≤ p.y ∧ p.y ≤ b.y1 :=
  ⟨fun h => ⟨h.x (le_refl _), h.y (le_refl _)⟩, fun h => ⟨fun _ => h.1, fun _ => h.2⟩⟩

/-- A box holds what lies between two points that it holds. -/
theorem Covers.lerp {b : Bounds K} {p q : Point K} (hp : b.Covers p) (hq : b.Covers q) {t : K}
    (h₀ : 0 ≤ t) (h₁ : t ≤ 1) : b.Covers (p.lerp q t) := by
  have hbetween {lo hi x y : K} (hx : lo ≤ x ∧ x ≤ hi) (hy : lo ≤ y ∧ y ≤ hi) :
      lo ≤ x + (y - x) * t ∧ x + (y - x) * t ≤ hi := by
    have hshare : x + (y - x) * t = (1 - t) * x + t * y := by ring
    have hwhole (c : K) : c = (1 - t) * c + t * c := by ring
    rw [hshare, hwhole lo, hwhole hi]
    have h₁ := sub_nonneg.mpr h₁
    exact ⟨add_le_add (mul_le_mul_of_nonneg_left hx.1 h₁) (mul_le_mul_of_nonneg_left hy.1 h₀),
      add_le_add (mul_le_mul_of_nonneg_left hx.2 h₁) (mul_le_mul_of_nonneg_left hy.2 h₀)⟩
  rw [covers_exact] at *
  exact ⟨hbetween hp.1 hq.1, hbetween hp.2 hq.2⟩

omit [IsStrictOrderedRing K] in
theorem Alike.eq {a b : Bounds K} (h : a.Alike b) : a = b := by
  have hside {x y : K} (h : Scalar.Alike x y) : x = y := by
    simpa [Scalar.Alike] using h
  cases a
  cases b
  exact congr (congr (congrArg₂ Bounds.mk (hside h.x0) (hside h.y0)) (hside h.x1)) (hside h.y1)

omit [IsStrictOrderedRing K] in
/-- What holds all points holds the box that is tight about them. -/
theorem Tight.enclosed {a b : Bounds K} {ps : List (Point K)} (h : b.Tight ps)
    (covers : ∀ p ∈ ps, a.Covers p) : a.encloses b = true := by
  have hside {side : K} {f : Point K → K} (hmem : side ∈ ps.map f) :
      ∃ p, a.Covers p ∧ f p = side := by
    obtain ⟨p, hp, hside⟩ := List.mem_map.mp hmem
    exact ⟨p, covers p hp, hside⟩
  obtain ⟨p₀, hp₀, hx₀⟩ := hside h.x0.mem
  obtain ⟨q₀, hq₀, hy₀⟩ := hside h.y0.mem
  obtain ⟨p₁, hp₁, hx₁⟩ := hside h.x1.mem
  obtain ⟨q₁, hq₁, hy₁⟩ := hside h.y1.mem
  rw [covers_exact] at hp₀ hq₀ hp₁ hq₁
  rw [encloses_iff, ← hx₀, ← hy₀, ← hx₁, ← hy₁]
  exact ⟨hp₀.1.1, hq₀.2.1, hp₁.1.2, hq₁.2.2⟩

end Bounds

namespace Curve

variable {c : Curve K} {b : Bounds K}

/-- Repeated interpolation does not leave a box that holds the points of the curve. -/
theorem covers_pointAt (h : ∀ p ∈ c.points, b.Covers p) {t : K} (h₀ : 0 ≤ t) (h₁ : t ≤ 1) :
    b.Covers (c.pointAt t) := by
  have hlerp {p q : Point K} (hp : b.Covers p) (hq : b.Covers q) := hp.lerp hq h₀ h₁
  cases c with
  | line p q =>
    have hp := h p (by simp [points])
    have hq := h q (by simp [points])
    exact hlerp hp hq
  | quadratic p q r =>
    have hp := h p (by simp [points])
    have hq := h q (by simp [points])
    have hr := h r (by simp [points])
    exact hlerp (hlerp hp hq) (hlerp hq hr)
  | cubic p q r s =>
    have hp := h p (by simp [points])
    have hq := h q (by simp [points])
    have hr := h r (by simp [points])
    have hs := h s (by simp [points])
    have hmiddle := hlerp hq hr
    exact hlerp (hlerp (hlerp hp hq) hmiddle) (hlerp hmiddle (hlerp hr hs))

theorem sampleParameter_mem {i : Nat} (h : i < sampleCount) :
    0 ≤ (sampleParameter i : K) ∧ (sampleParameter i : K) ≤ 1 := by
  have hle : (i : K) ≤ (sampleCount : K) := Nat.cast_le.mpr (Nat.le_of_lt h)
  exact ⟨div_nonneg (Nat.cast_nonneg i) (Nat.cast_nonneg _),
    div_le_one_of_le₀ hle (Nat.cast_nonneg _)⟩

theorem covers_samples (h : ∀ p ∈ c.points, b.Covers p) : ∀ p ∈ c.samples, b.Covers p := by
  intro p hp
  have hcurve (hp : p ∈ (List.range sampleCount).map (fun i => c.pointAt (sampleParameter i)) ++
      [c.stop]) : b.Covers p := by
    rcases List.mem_append.mp hp with hp | hp
    · obtain ⟨i, hi, rfl⟩ := List.mem_map.mp hp
      obtain ⟨h₀, h₁⟩ := sampleParameter_mem (K := K) (List.mem_range.mp hi)
      exact covers_pointAt h h₀ h₁
    · rw [List.mem_singleton.mp hp]
      exact h _ c.stop_mem_points
  cases c with
  | line => exact h p hp
  | quadratic | cubic => exact hcurve hp

omit [IsStrictOrderedRing K] in
/-- In exact arithmetic both ends of a curve are samples. -/
theorem ends_mem_samples (c : Curve K) : c.start ∈ c.samples ∧ c.stop ∈ c.samples := by
  obtain ⟨first, between, hsamples, hfirst⟩ := c.samples_eq
  have hstart : first = c.start := hfirst.elim id (·.trans c.pointAt_zero)
  rw [hsamples, hstart]
  simp

end Curve

namespace Path

def points {α : Type} (p : Path α) : List (Point α) :=
  p.segments.flatMap fun s => s.curve.points

variable {p : Path K}

omit [IsStrictOrderedRing K] in
theorem covers_ends (coherent : p.Coherent) {s : Segment K} (hs : s ∈ p.segments) :
    p.bounds.Covers s.start ∧ p.bounds.Covers s.stop := by
  have htight := tight_bounds coherent (List.ne_nil_of_mem hs)
  have hmem {q : Point K} (hq : q ∈ s.curve.samples) : q ∈ p.samples := by
    rw [coherent.samples_eq]
    exact List.mem_flatMap.mpr ⟨s, hs, hq⟩
  obtain ⟨hstart, hstop⟩ := s.curve.ends_mem_samples
  exact ⟨htight.covers (hmem hstart), htight.covers (hmem hstop)⟩

theorem encloses_bounds (coherent : p.Coherent) (ne : p.segments ≠ []) :
    (Bounds.ofPoints p.points).encloses p.bounds = true := by
  refine (tight_bounds coherent ne).enclosed ?_
  rw [coherent.samples_eq]
  refine List.forall_mem_flatMap.mpr fun s hs => Curve.covers_samples fun q hq => ?_
  exact Bounds.covers_ofPoints (List.mem_flatMap.mpr ⟨s, hs, hq⟩)

omit [IsStrictOrderedRing K] in
theorem bounds_lines (coherent : p.Coherent) (ne : p.segments ≠ [])
    (lines : ∀ s ∈ p.segments, s.curve.isLine = true) : p.bounds = .ofPoints p.points := by
  have hpoints : p.samples = p.points :=
    coherent.samples_eq.trans (List.flatMap_congr fun s hs => Curve.samples_of_isLine (lines s hs))
  have htight := tight_bounds coherent ne
  rw [hpoints] at htight
  have hne : p.points ≠ [] := by
    intro hnil
    have hx := htight.x0.mem
    rw [hnil] at hx
    cases hx
  exact (htight.alike (Bounds.tight_ofPoints hne) fun _ => Iff.rfl).eq

end Path

/-- The box of a path is tight about the samples of all its segments: each side is the least or the
greatest coordinate that is a number, and no number only if there is none. It does not depend on the
order of the segments. In exact arithmetic the box holds both ends of every segment and lies in the
box about all ends and control points, which it equals for a path made of lines. -/
theorem bounds_tight :
    (∀ p : Path Float, p.Coherent → p.segments ≠ [] →
      p.bounds.Tight p.samples ∧
      ∀ q : Path Float, q.segments.Perm p.segments → q.bounds.Alike p.bounds) ∧
    ∀ p : Path K, p.Coherent → p.segments ≠ [] →
      (∀ s ∈ p.segments, p.bounds.Covers s.start ∧ p.bounds.Covers s.stop) ∧
      (Bounds.ofPoints p.points).encloses p.bounds = true ∧
      ((∀ s ∈ p.segments, s.curve.isLine = true) → p.bounds = .ofPoints p.points) := by
  constructor
  · intro p coherent ne
    exact ⟨Path.tight_bounds coherent ne, fun _ => Path.alike_bounds coherent ne⟩
  · intro p coherent ne
    exact ⟨fun _ => Path.covers_ends coherent, Path.encloses_bounds coherent ne,
      Path.bounds_lines coherent ne⟩

/-- Lines of which some coordinates are no numbers, and in exact arithmetic a corner made of two
lines and the arch over it. -/
theorem bounds_tight_mixed :
    (∃ p : Path Float, p.Coherent ∧ p.segments ≠ [] ∧
      p.samples.map (fun q => (Scalar.isNaN q.x, Scalar.isNaN q.y)) =
        [(true, true), (false, true), (false, true), (false, true)] ∧
      Scalar.isNaN p.bounds.x0 = false ∧ (p.bounds.x1 == 1.0 / 0.0) = true ∧
      Scalar.isNaN p.bounds.y0 = true ∧ p.bounds.Tight p.samples ∧
      (Path.mk p.segments.reverse true).bounds.Alike p.bounds) ∧
    ∃ p : Path ℚ, p.Coherent ∧ p.segments ≠ [] ∧ p.points.length = 7 ∧
      (∀ s ∈ p.segments, p.bounds.Covers s.start ∧ p.bounds.Covers s.stop) ∧
      (Bounds.ofPoints p.points).encloses p.bounds = true ∧
      (Path.mk (p.segments.take 2) false).bounds = ⟨0, 0, 4, 3⟩ := by
  constructor
  · let p : Path Float := ⟨[.line ⟨0.0 / 0.0, 0.0 / 0.0⟩ ⟨-3.0, 0.0 / 0.0⟩,
      .line ⟨-3.0, 0.0 / 0.0⟩ ⟨1.0 / 0.0, 0.0 / 0.0⟩].map .ofCurve, false⟩
    have hcoherent : p.Coherent := Path.coherent_ofCurves _ _
    have hne : p.segments ≠ [] := List.cons_ne_nil _ _
    obtain ⟨htight, halike⟩ := (bounds_tight (K := ℚ)).1 p hcoherent hne
    exact ⟨p, hcoherent, hne, by decide +kernel, by decide +kernel, by decide +kernel,
      by decide +kernel, htight, halike _ p.segments.reverse_perm⟩
  · let corner : List (Curve ℚ) := [.line ⟨0, 3⟩ ⟨0, 0⟩, .line ⟨0, 0⟩ ⟨4, 0⟩]
    let arch : Curve ℚ := .quadratic ⟨4, 0⟩ ⟨2, 10⟩ ⟨0, 3⟩
    have hcorner := Path.coherent_ofCurves corner false
    have hcoherent := Path.coherent_ofCurves (corner ++ [arch]) true
    obtain ⟨hends, hinside, _⟩ := bounds_tight.2 _ hcoherent (List.cons_ne_nil _ _)
    obtain ⟨_, _, hlines⟩ := bounds_tight.2 _ hcorner (List.cons_ne_nil _ _)
    have hbox := hlines (by simp [corner, Segment.ofCurve, Curve.isLine])
    exact ⟨_, hcoherent, List.cons_ne_nil _ _, rfl, hends, hinside, hbox.trans (by decide +kernel)⟩

end exact

end Reaming
