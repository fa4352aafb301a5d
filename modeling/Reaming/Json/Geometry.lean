import Reaming.Geometry.Path
import Reaming.Json.Decode

namespace Reaming

open Json

namespace Point

def toJson (p : Point Float) : Json := record [("x", ofFloat p.x), ("y", ofFloat p.y)]

def ofJson? (v : Json) : Option (Point Float) := do
  match ← fields? ["x", "y"] v with
  | [x, y] => return ⟨← required? float? x, ← required? float? y⟩
  | _ => none

end Point

namespace Curve

def toJson : Curve Float → Json
  | .line a b => tagged "Line" (record [("start", a.toJson), ("end", b.toJson)])
  | .quadratic a b c =>
    tagged "Quadratic" (record [("start", a.toJson), ("control", b.toJson), ("end", c.toJson)])
  | .cubic a b c d =>
    tagged "Cubic"
      (record [("start", a.toJson), ("control1", b.toJson), ("control2", c.toJson),
        ("end", d.toJson)])

def pointsOfJson? (names : List String) (v : Json) : Option (List (Point Float)) := do
  (← fields? names v).mapM (required? Point.ofJson?)

def ofJson? (v : Json) : Option (Curve Float) := do
  match ← choice? v with
  | ("Line", some v) =>
    match ← pointsOfJson? ["start", "end"] v with
    | [a, b] => some (.line a b)
    | _ => none
  | ("Quadratic", some v) =>
    match ← pointsOfJson? ["start", "control", "end"] v with
    | [a, b, c] => some (.quadratic a b c)
    | _ => none
  | ("Cubic", some v) =>
    match ← pointsOfJson? ["start", "control1", "control2", "end"] v with
    | [a, b, c, d] => some (.cubic a b c d)
    | _ => none
  | _ => none

end Curve

namespace Segment

/-- What a segment remembers is not written. -/
def toJson (s : Segment Float) : Json := record [("kind", s.curve.toJson)]

def ofJson? (v : Json) : Option (Segment Float) := do
  match ← fields? ["kind"] v with
  | [kind] => return .ofCurve (← required? Curve.ofJson? kind)
  | _ => none

end Segment

namespace Path

def toJson (p : Path Float) : Json :=
  record [("segments", .array (p.segments.map Segment.toJson)), ("closed", .bool p.closed)]

def ofJson? (v : Json) : Option (Path Float) := do
  match ← fields? ["segments", "closed"] v with
  | [segments, closed] =>
    return ⟨← required? (list? Segment.ofJson?) segments, ← required? bool? closed⟩
  | _ => none

end Path

end Reaming
