import Reaming.Geometry.Plane
import Reaming.Geometry.Curve

namespace Reaming

/-- A curve that remembers its samples once they have been worked out. -/
structure Segment (α : Type) where
  curve : Curve α
  cache : Option (List (Point α)) := none
  deriving Repr

@[specialize] def polylineLength {α : Type} [Scalar α] (ps : List (Point α)) : α :=
  Scalar.sum (List.zipWith Point.distance ps ps.tail)

namespace Segment

variable {α : Type}

def ofCurve (c : Curve α) : Segment α := ⟨c, none⟩

def line (a b : Point α) : Segment α := ofCurve (.line a b)

def start (s : Segment α) : Point α := s.curve.start

def stop (s : Segment α) : Point α := s.curve.stop

/-- Moves the end; the remembered samples are dropped. -/
def withStop (s : Segment α) (p : Point α) : Segment α := ofCurve (s.curve.withStop p)

def map (f : Point α → Point α) (s : Segment α) : Segment α := ofCurve (s.curve.map f)

def isSampled (s : Segment α) : Bool := s.cache.isSome

variable [Scalar α]

/-- What a segment remembers plays no part in comparing it. -/
instance : BEq (Segment α) where
  beq s t := s.curve == t.curve

def pointAt (s : Segment α) (t : α) : Point α := s.curve.pointAt t

/-- The samples of the segment: those remembered, or else worked out afresh. -/
@[specialize] def polyline (s : Segment α) : List (Point α) :=
  match s.cache with
  | some ps => ps
  | none => s.curve.samples

@[specialize] def sampled (s : Segment α) : Segment α :=
  { s with cache := some s.polyline }

@[specialize] def length (s : Segment α) : α :=
  match s.curve with
  | .line a b => a.distance b
  | _ => polylineLength s.polyline

@[specialize] def bounds (s : Segment α) : Bounds α :=
  .ofPoints s.polyline

def scale (k : α) (s : Segment α) : Segment α := s.map (Point.scale k)

def translate (d : Point α) (s : Segment α) : Segment α := s.map (· + d)

/-- A scaled copy, built anew from the points. -/
def scaled (k : α) (s : Segment α) : Segment α := (ofCurve s.curve).scale k

def translated (d : Point α) (s : Segment α) : Segment α := (ofCurve s.curve).translate d

end Segment

inductive Look where
  | polyline
  | length
  | bounds
  | isSampled
  deriving DecidableEq, Repr

/-- The segment after it has been looked at: the polyline and the bounds leave the samples
remembered, and so does the length of a Bézier curve. -/
def Segment.after {α : Type} [Scalar α] (s : Segment α) : Look → Segment α
  | .polyline | .bounds => s.sampled
  | .length => if s.curve.isLine then s else s.sampled
  | .isSampled => s

end Reaming
