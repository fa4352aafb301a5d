import Reaming.Geometry.Segment

namespace Reaming

/-- A chain of segments, each starting where the one before ends. A closed path ends where it
starts. -/
structure Path (α : Type) where
  segments : List (Segment α)
  closed : Bool
  deriving Repr

namespace Path

variable {α : Type}

def empty : Path α := ⟨[], false⟩

def isEmpty (p : Path α) : Bool := p.segments.isEmpty

def start? (p : Path α) : Option (Point α) := p.segments.head?.map Segment.start

def push (p : Path α) (s : Segment α) : Path α := { p with segments := p.segments ++ [s] }

def map (f : Point α → Point α) (p : Path α) : Path α :=
  { p with segments := p.segments.map (Segment.map f) }

variable [Scalar α]

def sampled (p : Path α) : Path α := { p with segments := p.segments.map Segment.sampled }

def length (p : Path α) : α := Scalar.sum (p.segments.map Segment.length)

def bounds (p : Path α) : Bounds α := .unions (p.segments.map Segment.bounds)

/-- The samples of all segments, each without its first point, which ends the segment before. In
a closed path the ring comes back to the start by itself. -/
def polyline (p : Path α) : List (Point α) := p.segments.flatMap fun s => s.polyline.tail

end Path

def ringEdges {α : Type} (ps : List (Point α)) : List (Point α × Point α) :=
  ps.zip (ps.tail ++ ps.head?.toList)

@[inline] def shoelaceTerm {α : Type} [Scalar α] (a b : Point α) : α :=
  (a.y + b.y) * (a.x - b.x) * 0.5

@[specialize] def signedArea {α : Type} [Scalar α] (ps : List (Point α)) : α :=
  (ringEdges ps).foldl (fun sum e => sum + shoelaceTerm e.1 e.2) 0.0

namespace Path

variable {α : Type} [Scalar α]

/-- The area inside the ring of samples, without a sign. An open path encloses nothing. -/
def area (p : Path α) : α :=
  if p.closed then Scalar.abs (signedArea p.polyline) else 0.0

def scale (k : α) (p : Path α) : Path α :=
  { p with segments := p.segments.map (Segment.scale k) }

def translate (d : Point α) (p : Path α) : Path α :=
  { p with segments := p.segments.map (Segment.translate d) }

def scaled (k : α) (p : Path α) : Path α :=
  { p with segments := p.segments.map (Segment.scaled k) }

def translated (d : Point α) (p : Path α) : Path α :=
  { p with segments := p.segments.map (Segment.translated d) }

def toOrigin (p : Path α) : Path α :=
  let b := p.bounds
  p.translate ⟨-b.x0, -b.y0⟩

end Path

inductive PathLook where
  | polyline
  | length
  | bounds
  | area
  deriving DecidableEq, Repr

/-- The path after it has been looked at: every segment has been looked at in the same way. The
area of an open path needs no look at its segments. -/
def Path.after {α : Type} [Scalar α] (p : Path α) : PathLook → Path α
  | .polyline | .bounds => p.sampled
  | .length => { p with segments := p.segments.map (·.after .length) }
  | .area => if p.closed then p.sampled else p

end Reaming
