import Reaming.Decimal.Printer
import Reaming.Toolpath.Ring

namespace Reaming

/-- The frame in which a path is shown: how large its markers are, and how many canvas units make
one drawing unit. -/
structure Preview (α : Type) where
  pointSize : α
  scale : α
  deriving Repr

structure Marker (α : Type) where
  corner : Point α
  side : α
  deriving DecidableEq, Repr

namespace Preview

variable {α : Type} [Scalar α]

def extent : α := 200.0

def margin : α := 2.0

def ofPointSize (pointSize : α) : Preview α := ⟨pointSize, 1.0⟩

instance : Inhabited (Preview α) := ⟨ofPointSize 2.0⟩

def markerThickness (v : Preview α) : α := v.pointSize * 0.1

/-- The scale at which the longer side of a path fills the canvas; one for a path without
extent. -/
def fitScale (p : Path α) : α :=
  let b := p.bounds
  let longer := Scalar.max b.width b.height
  if (0.0 : α) < longer then extent / longer else 1.0

def fit (v : Preview α) (p : Path α) : Preview α := { v with scale := fitScale p }

def shown (v : Preview α) (p : Path α) : Path α :=
  (p.scale v.scale).translate ⟨margin, margin⟩

/-- The marker around a vertex; at the path end it has half the size. -/
def marker (v : Preview α) (vertex : Vertex α) : Marker α :=
  let half := if vertex.isEnd then v.pointSize * 0.5 else v.pointSize
  { corner :=
      ⟨vertex.position.x * v.scale - half + margin, vertex.position.y * v.scale - half + margin⟩
    side := half * 2.0 }

end Preview

def Marker.data (m : Marker Float) : String :=
  let x := Decimal.fixed3 m.corner.x
  let y := Decimal.fixed3 m.corner.y
  let side := Decimal.fixed3 m.side
  let back := Decimal.fixed3 (-m.side)
  s!"M {x} {y} h {side} v {side} h {back} z"

end Reaming
