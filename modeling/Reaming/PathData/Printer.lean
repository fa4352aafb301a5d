import Reaming.Decimal.Printer
import Reaming.Geometry.Path

namespace Reaming

/-- One movement of a pen, between absolute points. -/
inductive Stroke (α : Type) where
  | moveTo (p : Point α)
  | lineTo (p : Point α)
  | quadraticTo (control p : Point α)
  | cubicTo (control₁ control₂ p : Point α)
  | close
  deriving DecidableEq, Repr

variable {α : Type}

def Curve.stroke : Curve α → Stroke α
  | .line _ p => .lineTo p
  | .quadratic _ a p => .quadraticTo a p
  | .cubic _ a b p => .cubicTo a b p

/-- The strokes that draw a path: to its start, along its curves, and back if it is closed. -/
def Path.strokes (p : Path α) : List (Stroke α) :=
  (p.start?.map Stroke.moveTo).toList ++ p.segments.map (fun s => s.curve.stroke) ++
    if p.closed then [.close] else []

end Reaming

namespace Reaming.PathData

def pointWords (p : Point Float) : List String :=
  [Decimal.fixed3 p.x, Decimal.fixed3 p.y]

/-- A stroke as an absolute command. -/
def strokeWords : Stroke Float → List String
  | .moveTo p => "M" :: pointWords p
  | .lineTo p => "L" :: pointWords p
  | .quadraticTo a p => "Q" :: (pointWords a ++ pointWords p)
  | .cubicTo a b p => "C" :: (pointWords a ++ pointWords b ++ pointWords p)
  | .close => ["Z"]

/-- The words of a path; one without segments has none, closed or not. -/
def pathWords (p : Path Float) : List String :=
  if p.isEmpty then [] else p.strokes.flatMap strokeWords

/-- A path as absolute path data with three decimals. -/
def write (p : Path Float) : String :=
  String.intercalate " " (pathWords p)

end Reaming.PathData
