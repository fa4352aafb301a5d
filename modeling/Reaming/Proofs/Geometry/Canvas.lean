import Reaming.Proofs.Drawing.Reload
import Reaming.Proofs.Geometry.Tight
import Reaming.Proofs.Toolpath.Ring
import Reaming.Preview

namespace Reaming

section drawn
variable {α : Type}
open PathData

/-- A letter with the operands of one group behind it. -/
theorem PathData.Run.items_of_group {run : Run α} {g : Group α}
    (h : Group.of? run.command.verb run.values = some g) :
    run.items = [.letter run.command, .group run.command g] := by
  obtain ⟨hclose, _, hlength⟩ := Group.of?_eq_some h
  have htake : run.values.take run.command.verb.arity = run.values :=
    List.take_of_length_le (Nat.le_of_eq hlength)
  have hdrop : run.values.drop run.command.verb.arity = [] :=
    List.drop_of_length_le (Nat.le_of_eq hlength)
  have hnone : Group.of? run.command.verb.next ([] : List α) = none := by
    rw [← Option.not_isSome_iff_eq_none, Group.of?_isSome_iff, Verb.arity_next]
    exact fun h => Nat.ne_of_lt (Verb.arity_pos hclose) h.2.2
  rw [← htake] at h
  rw [Run.items, Run.groups, groups_of_some h, hdrop, groups_of_none (by rwa [List.take_nil])]
  rfl

variable [Scalar α]

/-- Where the pen stands after each of some runs. -/
def PathData.Sketch.stops (s : Sketch α) : List (Run α) → List (Point α)
  | [] => []
  | run :: rs => (s.after run.items).pen :: (s.after run.items).stops rs

def Marker.runs (m : Marker α) : List (Run α) :=
  [⟨⟨.moveTo, false⟩, [m.corner.x, m.corner.y]⟩, ⟨⟨.horizontalTo, true⟩, [m.side]⟩,
    ⟨⟨.verticalTo, true⟩, [m.side]⟩, ⟨⟨.horizontalTo, true⟩, [-m.side]⟩, ⟨⟨.closePath, true⟩, []⟩]

def Marker.outline (m : Marker α) : List (Point α) := Sketch.blank.stops m.runs

theorem Marker.outline_eq (m : Marker α) :
    let a := Point.origin + m.corner
    let b := a + ⟨m.side, 0.0⟩
    let c := b + ⟨0.0, m.side⟩
    m.outline = [a, b, c, c + ⟨-m.side, 0.0⟩, a] := by
  have hmove (p : Point α) : Run.items (⟨⟨.moveTo, false⟩, [p.x, p.y]⟩ : Run α) =
      [.letter ⟨.moveTo, false⟩, .group ⟨.moveTo, false⟩ (.moveTo p)] :=
    Run.items_of_group rfl
  have hacross (x : α) : Run.items (⟨⟨.horizontalTo, true⟩, [x]⟩ : Run α) =
      [.letter ⟨.horizontalTo, true⟩, .group ⟨.horizontalTo, true⟩ (.horizontalTo x)] :=
    Run.items_of_group rfl
  have hup (y : α) : Run.items (⟨⟨.verticalTo, true⟩, [y]⟩ : Run α) =
      [.letter ⟨.verticalTo, true⟩, .group ⟨.verticalTo, true⟩ (.verticalTo y)] :=
    Run.items_of_group rfl
  have hclose : Run.items (⟨⟨.closePath, true⟩, []⟩ : Run α) = [.letter ⟨.closePath, true⟩] := by
    rw [Run.items, Run.groups, groups_of_none rfl]
    rfl
  simp only [outline, runs, Sketch.stops, hmove, hacross, hup, hclose]
  rfl

def PathData.Run.text (run : Run Float) : List String :=
  String.singleton run.command.letter :: run.values.map Decimal.fixed3

/-- The path data of a marker is its outline with the numbers rounded. -/
theorem Marker.data_eq (m : Marker Float) : m.data = " ".intercalate (m.runs.flatMap Run.text) := by
  apply String.toList_injective
  simp [data, runs, Run.text, Command.letter, Verb.letter, ToString.toString]

def Point.square (q : Point α) (reach : α) : List (Point α) :=
  [⟨q.x - reach, q.y - reach⟩, ⟨q.x + reach, q.y - reach⟩, ⟨q.x + reach, q.y + reach⟩,
    ⟨q.x - reach, q.y + reach⟩, ⟨q.x - reach, q.y - reach⟩]

namespace Preview

def place (v : Preview α) (q : Point α) : Point α := q.scale v.scale + ⟨margin, margin⟩

def reach (v : Preview α) (w : Vertex α) : α :=
  if w.isEnd then v.pointSize * 0.5 else v.pointSize

theorem shown_eq (v : Preview α) (p : Path α) : v.shown p = p.map v.place := by
  have hcurve (c : Curve α) : (c.map (Point.scale v.scale)).map (· + ⟨margin, margin⟩) =
      c.map v.place := by
    cases c <;> rfl
  refine congrArg (Path.mk · p.closed) (List.map_map.trans (List.map_congr_left fun s _ => ?_))
  exact congrArg Segment.ofCurve (hcurve s.curve)

end Preview

theorem map_position_segmentVertices (ss : List (Segment α)) :
    (segmentVertices ss).map Vertex.position = ss.map Segment.stop := by
  induction ss with
  | nil => rfl
  | cons s ss ih => exact congrArg (s.stop :: ·) ih

end drawn

section exact
variable {K : Type} [Field K] [LinearOrder K] [IsStrictOrderedRing K] [Root K]

omit [IsStrictOrderedRing K] in
/-- A map that keeps the order takes an extreme value to an extreme value. -/
theorem Extreme.map {le : K → K → Prop} {f : K → K} (mono : ∀ {a b}, le a b → le (f a) (f b))
    {m : K} {xs : List K} (h : Extreme le m xs) : Extreme le (f m) (xs.map f) where
  mem := List.mem_map_of_mem h.mem
  first := List.forall_mem_map.mpr fun x hx _ => mono (h.first x hx (Scalar.isNaN_exact x))
  number := fun hm => absurd hm (Bool.eq_false_iff.mp (Scalar.isNaN_exact _))

namespace Preview

variable {v : Preview K} {p : Path K}

theorem margin_exact : (margin : K) = 2 := by
  norm_num [margin]

theorem extent_exact : (extent : K) = 200 := by
  norm_num [extent]

omit [IsStrictOrderedRing K] in
theorem straight_place (v : Preview K) : Point.Straight v.place := by
  intro q r t
  rw [place, Point.straight_scale v.scale q r t]
  exact Point.straight_add _ _ _ t

/-- The box of what is shown is the box of the path, shown. -/
theorem bounds_shown (coherent : p.Coherent) (ne : p.segments ≠ []) (pos : 0 ≤ v.scale) :
    (v.shown p).bounds =
      ⟨p.bounds.x0 * v.scale + 2, p.bounds.y0 * v.scale + 2, p.bounds.x1 * v.scale + 2,
        p.bounds.y1 * v.scale + 2⟩ := by
  have hsamples : (p.map v.place).samples = p.samples.map v.place := by
    rw [Path.samples, Path.samples, Path.map, List.flatMap_map, List.map_flatMap]
    exact List.flatMap_congr fun s hs => Segment.polyline_map v.straight_place (coherent s hs)
  have hmono {a b : K} (h : a ≤ b) : a * v.scale + 2 ≤ b * v.scale + 2 :=
    add_le_add_left (mul_le_mul_of_nonneg_right h pos) 2
  have hx : (p.samples.map v.place).map Point.x =
      (p.samples.map Point.x).map fun a => a * v.scale + 2 := by
    rw [List.map_map, List.map_map, ← margin_exact]
    rfl
  have hy : (p.samples.map v.place).map Point.y =
      (p.samples.map Point.y).map fun a => a * v.scale + 2 := by
    rw [List.map_map, List.map_map, ← margin_exact]
    rfl
  have htight := Path.tight_bounds coherent ne
  have hshown : Bounds.Tight ⟨p.bounds.x0 * v.scale + 2, p.bounds.y0 * v.scale + 2,
      p.bounds.x1 * v.scale + 2, p.bounds.y1 * v.scale + 2⟩ (p.samples.map v.place) := by
    constructor
    · rw [hx]
      exact htight.x0.map hmono
    · rw [hy]
      exact htight.y0.map hmono
    · rw [hx]
      exact htight.x1.map hmono
    · rw [hy]
      exact htight.y1.map hmono
  have hne : (p.map v.place).segments ≠ [] := fun hnil => ne (List.map_eq_nil_iff.mp hnil)
  have hbounds := Path.tight_bounds (Path.coherent_map v.place p) hne
  rw [hsamples] at hbounds
  rw [shown_eq]
  exact (hbounds.alike hshown fun _ => Iff.rfl).eq

theorem scale_fit (pos : 0 < max p.bounds.width p.bounds.height) :
    (v.fit p).scale = 200 / max p.bounds.width p.bounds.height := by
  have hpos : (0.0 : K) < max p.bounds.width p.bounds.height := by rwa [zero_decimal]
  rw [fit, fitScale, Scalar.max_exact, if_pos hpos, extent_exact]

/-- A path at the origin that is fitted fills the canvas along its longer side. -/
theorem bounds_fit (coherent : p.Coherent) (ne : p.segments ≠ []) (x0 : p.bounds.x0 = 0)
    (y0 : p.bounds.y0 = 0) (pos : 0 < max p.bounds.width p.bounds.height) {b : Bounds K}
    (hb : ((v.fit p).shown p).bounds = b) :
    b.x0 = 2 ∧ b.y0 = 2 ∧ max b.width b.height = 200 ∧
      Bounds.encloses ⟨2, 2, 202, 202⟩ b = true := by
  have hscale : 0 < (v.fit p).scale := by
    rw [scale_fit pos]
    exact div_pos (by norm_num) pos
  have hfill : max p.bounds.width p.bounds.height * (v.fit p).scale = 200 := by
    rw [scale_fit pos]
    exact mul_div_cancel₀ 200 (ne_of_gt pos)
  have hwidth : p.bounds.width = p.bounds.x1 := by rw [Bounds.width, x0, sub_zero]
  have hheight : p.bounds.height = p.bounds.y1 := by rw [Bounds.height, y0, sub_zero]
  rw [bounds_shown coherent ne hscale.le, x0, y0, zero_mul, zero_add] at hb
  rw [hwidth, hheight, max_mul_of_nonneg _ _ hscale.le] at hfill
  have hx := hfill ▸ le_max_left (p.bounds.x1 * (v.fit p).scale) (p.bounds.y1 * (v.fit p).scale)
  have hy := hfill ▸ le_max_right (p.bounds.x1 * (v.fit p).scale) (p.bounds.y1 * (v.fit p).scale)
  subst hb
  refine ⟨rfl, rfl, ?_, Bounds.encloses_iff.mpr ⟨le_refl _, le_refl _, ?_, ?_⟩⟩
  · change max (_ + 2 - 2) (_ + 2 - 2) = _
    rw [add_sub_cancel_right, add_sub_cancel_right, hfill]
  · change _ + 2 ≤ _
    linarith
  · change _ + 2 ≤ _
    linarith

/-- A marker is the square around the place where its vertex is shown. -/
theorem outline_marker (w : Vertex K) :
    (v.marker w).outline = (v.place w.position).square (v.reach w) := by
  have hside : (v.marker w).side = v.reach w * 2 := congrArg (v.reach w * ·) margin_exact
  have hcorner : Point.origin + (v.marker w).corner =
      ⟨(v.place w.position).x - v.reach w, (v.place w.position).y - v.reach w⟩ := by
    have hshift (a : K) : 0.0 + (a - v.reach w + margin) = a + margin - v.reach w := by
      rw [zero_decimal]
      ring
    exact congrArg₂ Point.mk (hshift _) (hshift _)
  have hadd (a b c d : K) : (⟨a, b⟩ : Point K) + ⟨c, d⟩ = ⟨a + c, b + d⟩ := rfl
  have hforth (a : K) : a - v.reach w + v.reach w * 2 = a + v.reach w := by ring
  have hback (a : K) : a + v.reach w + -(v.reach w * 2) = a - v.reach w := by ring
  rw [Marker.outline_eq, hcorner, hside]
  simp only [hadd, zero_decimal, add_zero, hforth, hback, Point.square]

end Preview

omit [IsStrictOrderedRing K] in
/-- The places where the vertices of a path are shown are the start of the path that is shown and
the ends of its segments. -/
theorem place_vertices {v : Preview K} {p : Path K} (ne : p.segments ≠ []) :
    ∃ start, (v.shown p).start? = some start ∧
      p.vertices.map (fun w => v.place w.position) =
        start :: (v.shown p).segments.map Segment.stop := by
  obtain ⟨s, ss, hs⟩ := List.exists_cons_of_ne_nil ne
  have hstops : (segmentVertices p.segments).map (fun w => v.place w.position) =
      (p.map v.place).segments.map Segment.stop := by
    rw [Path.map, List.map_map, ← Function.comp_def v.place, ← List.map_map,
      map_position_segmentVertices, List.map_map]
    exact List.map_congr_left fun t _ => (Segment.stop_map v.place t).symm
  refine ⟨v.place s.start, ?_, ?_⟩
  · rw [v.shown_eq, Path.start?, Path.map, hs]
    exact congrArg some (Segment.start_map v.place s)
  · rw [v.shown_eq, Path.vertices_eq hs, List.map_cons, hstops]

/-- Every path of a document that has been loaded lies at the origin. -/
theorem loaded_at_origin {d doc : Document K} {policy : AreaPolicy} {text : Markup.Bytes}
    (h : d.load policy text = (doc, none)) :
    ∀ p ∈ doc.paths, p.Coherent ∧ p.segments ≠ [] ∧ p.bounds.x0 = 0 ∧ p.bounds.y0 = 0 := by
  obtain ⟨scan, size, paths, _, hpaths, rfl⟩ := load_cases h
  refine List.forall_mem_map.mpr fun p hp => ?_
  have hchained := readPaths_forall PathData.read_chained hpaths p hp
  have horigin := Path.atOrigin_exact (Path.coherent_map (Point.scale size.scale) p)
  exact ⟨Path.coherent_map _ _, (hchained.stored size.scale).chained.nonempty,
    horigin.x0.trans zero_decimal, horigin.y0.trans zero_decimal⟩

/-- A path at the origin, as every path of a loaded document is, fills the canvas when it is fitted
and shown: its longer side is that of the canvas, and it keeps the margin all around. Every marker is
the square around the point at which its vertex is shown: the start of the path, then the end of each
segment. What is printed of a marker is that square with its numbers rounded. -/
theorem preview_fits :
    (∀ (v : Preview K) (p : Path K), p.Coherent → p.segments ≠ [] → p.bounds.x0 = 0 →
      p.bounds.y0 = 0 → 0 < max p.bounds.width p.bounds.height →
      let shown := (v.fit p).shown p
      (shown.bounds.x0 = 2 ∧ shown.bounds.y0 = 2 ∧
        max shown.bounds.width shown.bounds.height = 200 ∧
        Bounds.encloses ⟨2, 2, 202, 202⟩ shown.bounds = true) ∧
      ∃ start, shown.start? = some start ∧
        List.Forall₂ (fun w q => ((v.fit p).marker w).outline = q.square ((v.fit p).reach w))
          p.vertices (start :: shown.segments.map Segment.stop)) ∧
    (∀ (d doc : Document K) (policy : AreaPolicy) (text : Markup.Bytes),
      d.load policy text = (doc, none) →
      ∀ p ∈ doc.paths, p.Coherent ∧ p.segments ≠ [] ∧ p.bounds.x0 = 0 ∧ p.bounds.y0 = 0) ∧
    ∀ m : Marker Float, m.data = " ".intercalate (m.runs.flatMap PathData.Run.text) := by
  refine ⟨fun v p coherent ne x0 y0 pos => ?_, fun _ _ _ _ => loaded_at_origin, Marker.data_eq⟩
  obtain ⟨start, hstart, hplaces⟩ := place_vertices (v := v.fit p) ne
  refine ⟨Preview.bounds_fit coherent ne x0 y0 pos rfl, start, hstart, ?_⟩
  rw [← hplaces, List.forall₂_map_right_iff]
  exact List.forall₂_same.mpr fun w _ => Preview.outline_marker w

/-- An arch that is moved to the origin, with a large marker at its start and a half one at its
end. -/
theorem preview_fits_arch : ∃ p : Path ℚ, p.segments.map (·.curve.degree) = [2] ∧
    p.bounds.x0 = 0 ∧ p.bounds.y0 = 0 ∧ 0 < max p.bounds.width p.bounds.height ∧
    let view := (Preview.ofPointSize 30).fit p
    max (view.shown p).bounds.width (view.shown p).bounds.height = 200 ∧
      ∃ start stop : Point ℚ, (view.shown p).start? = some start ∧
        p.vertices.map (fun w => (view.marker w).outline) = [start.square 30, stop.square 15] := by
  let p : Path ℚ := (farArch.scale 0.3).toOrigin
  have hcoherent : p.Coherent := Path.coherent_map _ _
  have horigin : p.AtOrigin := Path.atOrigin_exact (Path.coherent_map _ _)
  have hne : p.segments ≠ [] := List.cons_ne_nil _ _
  have hwidth : 0 < p.bounds.width := by
    obtain ⟨s, hs, hstep⟩ : ∃ s ∈ p.segments, s.start.x < s.stop.x := by
      refine ⟨_, List.mem_singleton.mpr rfl, ?_⟩
      change -3.0 * 0.3 + _ < 5.0 * 0.3 + _
      norm_num
    obtain ⟨hstart, hstop⟩ := Path.covers_ends hcoherent hs
    rw [Bounds.covers_exact] at hstart hstop
    rw [Bounds.width]
    linarith [hstart.1.1, hstop.1.2]
  have hpos := lt_of_lt_of_le hwidth (le_max_left p.bounds.width p.bounds.height)
  have hx := horigin.x0.trans zero_decimal
  have hy := horigin.y0.trans zero_decimal
  obtain ⟨⟨_, _, hfill, _⟩, start, hstart, hmarkers⟩ :=
    preview_fits.1 (Preview.ofPointSize 30) p hcoherent hne hx hy hpos
  obtain ⟨w, w', hvertices, hw, hw'⟩ :
      ∃ w w', p.vertices = [w, w'] ∧ w.isEnd = false ∧ w'.isEnd = true := ⟨_, _, rfl, rfl, rfl⟩
  obtain ⟨stop, hstop⟩ : ∃ stop, ((Preview.ofPointSize 30).fit p |>.shown p).segments.map
      Segment.stop = [stop] := ⟨_, rfl⟩
  rw [hvertices, hstop, List.forall₂_cons, List.forall₂_cons] at hmarkers
  obtain ⟨hfirst, hlast, _⟩ := hmarkers
  refine ⟨p, rfl, hx, hy, hpos, hfill, start, stop, hstart, ?_⟩
  rw [hvertices, List.map_cons, List.map_singleton, hfirst, hlast, Preview.reach, Preview.reach, hw,
    hw']
  norm_num [Preview.fit, Preview.ofPointSize]

end exact

end Reaming
