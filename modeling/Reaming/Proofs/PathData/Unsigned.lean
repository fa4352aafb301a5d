import Reaming.Proofs.Decimal.Zero
import Reaming.Proofs.PathData.Sketch

namespace Reaming

def Point.unsign (p : Point Float) : Point Float := ⟨Decimal.unsign p.x, Decimal.unsign p.y⟩

theorem Point.origin_add (p : Point Float) : Point.origin + p = p.unsign :=
  congrArg₂ Point.mk (Decimal.zero_add_eq_unsign p.x) (Decimal.zero_add_eq_unsign p.y)

theorem Point.near_unsign (p q : Point Float) : p.unsign.near q.unsign = p.near q := by
  have hx := Decimal.abs_sub_unsign p.x q.x
  have hy := Decimal.abs_sub_unsign p.y q.y
  change (decide ((Decimal.unsign p.x - Decimal.unsign q.x).abs < 0.1) &&
    decide ((Decimal.unsign p.y - Decimal.unsign q.y).abs < 0.1)) = _
  rw [hx, hy]
  rfl

def Stroke.map {α : Type} (f : Point α → Point α) : Stroke α → Stroke α
  | .moveTo p => .moveTo (f p)
  | .lineTo p => .lineTo (f p)
  | .quadraticTo a p => .quadraticTo (f a) (f p)
  | .cubicTo a b p => .cubicTo (f a) (f b) (f p)
  | .close => .close

theorem Path.map_push {α : Type} (f : Point α → Point α) (p : Path α) (c : Curve α) :
    (p.push (.ofCurve c)).map f = (p.map f).push (.ofCurve (c.map f)) := by
  simp [Path.map, Path.push, Segment.map, Segment.ofCurve]

theorem Path.start?_map {α : Type} (f : Point α → Point α) (p : Path α) :
    (p.map f).start? = p.start?.map f := by
  cases hs : p.segments with
  | nil => simp [Path.start?, Path.map, hs]
  | cons s ss => simp [Path.start?, Path.map, hs, Segment.start, Segment.map, Segment.ofCurve]

theorem Path.map_snapTo {α : Type} (f : Point α → Point α) (p : Path α) (q : Point α) :
    (p.snapTo q).map f = (p.map f).snapTo (f q) := by
  have hstop (c : Curve α) : (c.withStop q).map f = (c.map f).withStop (f q) := by
    cases c <;> rfl
  cases hs : p.segments.getLast? with
  | none => simp [Path.snapTo, Path.map, hs, List.map_dropLast]
  | some s =>
    simp [Path.snapTo, Path.map, hs, List.map_dropLast, Segment.withStop, Segment.map,
      Segment.ofCurve, hstop]

theorem Path.close_unsign (p : Path Float) (pen : Point Float) :
    (p.close pen).map Point.unsign = (p.map Point.unsign).close pen.unsign := by
  unfold Path.close
  rw [Path.start?_map]
  cases p.start? with
  | none => rfl
  | some first =>
    simp only [Option.map_some, Point.near_unsign]
    split
    · exact congrArg (fun q : Path Float => { q with closed := true }) (p.map_snapTo _ first)
    · exact congrArg (fun q : Path Float => { q with closed := true }) (p.map_push _ _)

namespace PathData

def Verb.plain : Verb → Verb
  | .horizontalTo | .verticalTo => .lineTo
  | .smoothCubicTo => .cubicTo
  | .smoothQuadraticTo => .quadraticTo
  | v => v

theorem plain_eq_moveTo {v : Verb} (h : v.plain = .moveTo) : v = .moveTo := by
  cases v
  case moveTo => rfl
  all_goals cases h

def Command.plain (c : Command) : Command := ⟨c.verb.plain, false⟩

def Subpath.unsign (q : Subpath Float) : Subpath Float :=
  ⟨q.home.unsign, q.path.map Point.unsign⟩

namespace Sketch

def unsign (s : Sketch Float) : Sketch Float :=
  ⟨s.done.map Subpath.unsign, s.current.map Subpath.unsign, s.pen.unsign⟩

theorem unsign_onPath {s : Sketch Float} {f g : Path Float → Path Float} (pen : Point Float)
    (h : ∀ p : Path Float, (f p).map Point.unsign = g (p.map Point.unsign)) :
    unsign { s with current := s.onPath f, pen := pen } =
      { s.unsign with current := s.unsign.onPath g, pen := pen.unsign } := by
  obtain ⟨done, current, _⟩ := s
  cases current with
  | none => rfl
  | some q => simp [unsign, onPath, Subpath.unsign, h]

theorem unsign_draw (s : Sketch Float) (c : Curve Float) :
    (s.draw c).unsign = s.unsign.draw (c.map Point.unsign) := by
  have h := @unsign_onPath s (·.push (.ofCurve c)) (·.push (.ofCurve (c.map Point.unsign))) c.stop
    fun p => p.map_push Point.unsign c
  rw [← Curve.stop_map Point.unsign c] at h
  exact h

/-- Zeros lose their signs before a stroke as well as after it. -/
theorem unsign_put (s : Sketch Float) (k : Stroke Float) :
    (s.put k).unsign = s.unsign.put (k.map Point.unsign) := by
  cases k with
  | moveTo p =>
    obtain ⟨done, current, pen⟩ := s
    cases current <;> simp [put, unsign, Stroke.map, subpaths, Subpath.unsign, Path.map, Path.empty]
  | lineTo | quadraticTo | cubicTo => exact s.unsign_draw _
  | close =>
    have h := @unsign_onPath s (·.close s.pen) (·.close s.pen.unsign)
      ((s.current.map Subpath.home).getD s.pen) fun p => p.close_unsign s.pen
    obtain ⟨done, current, pen⟩ := s
    cases current <;> exact h

theorem unsign_letter (s : Sketch Float) (c : Command) :
    (s.letter c.verb).unsign = s.unsign.letter c.plain.verb := by
  obtain ⟨v, relative⟩ := c
  cases v
  case moveTo | arcTo => rfl
  case closePath => exact s.unsign_put .close
  all_goals exact unsign_onPath s.pen fun _ => rfl

theorem unsign_paths (s : Sketch Float) : s.unsign.paths = s.paths.map (Path.map Point.unsign) := by
  have hempty (p : Path Float) : (p.map Point.unsign).isEmpty = p.isEmpty := List.isEmpty_map
  have hsubpaths : s.unsign.subpaths = s.subpaths.map Subpath.unsign := by
    rw [subpaths, subpaths, List.map_append, unsign]
    cases s.current <;> rfl
  rw [paths, paths, hsubpaths]
  induction s.subpaths with
  | nil => rfl
  | cons q qs ih =>
    simp only [List.map_cons, List.filter_cons]
    rw [Subpath.unsign, hempty]
    split
    · exact congrArg (q.path.map Point.unsign :: ·) ih
    · exact ih

theorem isSome_unsign (s : Sketch Float) : s.unsign.current.isSome = s.current.isSome :=
  Option.isSome_map

end Sketch

end PathData

end Reaming
