import Reaming.Geometry.Path

namespace Reaming

structure Vertex (α : Type) where
  position : Point α
  /-- The length of the segment that ends here; zero at the path start. -/
  arcLength : α
  isStart : Bool
  isEnd : Bool
  selected : Bool
  deriving DecidableEq, Repr

variable {α : Type}

namespace Vertex

/-- The ends of a path count as selected whatever their mark. -/
def counts (v : Vertex α) : Bool := v.selected || v.isStart || v.isEnd

/-- Marks the vertex; the ends of a path keep their mark. -/
def select (v : Vertex α) (selected : Bool) : Vertex α :=
  if v.isStart || v.isEnd then v else { v with selected }

end Vertex

def selectAt (vs : List (Vertex α)) (i : Nat) (selected : Bool) : List (Vertex α) :=
  vs.modify i (·.select selected)

section vertices

variable [Scalar α]

def segmentVertices : List (Segment α) → List (Vertex α)
  | [] => []
  | s :: ss => ⟨s.stop, s.length, false, ss.isEmpty, true⟩ :: segmentVertices ss

def Path.vertices (p : Path α) : List (Vertex α) :=
  match p.start? with
  | none => []
  | some start => ⟨start, 0.0, true, false, true⟩ :: segmentVertices p.segments

end vertices

inductive StartError where
  | openPath
  | noSuchVertex (index : Nat)
  | boundsPath (index : Nat)
  deriving DecidableEq, Repr

def StartError.message : StartError → String
  | .openPath => "starting vertex can only be moved on a closed path"
  | .noSuchVertex i => s!"invalid vertex index {i}"
  | .boundsPath i => s!"vertex {i} already bounds the path"

def markEnd : List (Vertex α) → List (Vertex α)
  | [] => []
  | v :: vs => { v with isEnd := vs.isEmpty } :: markEnd vs

/-- Turns the ring so that the vertex after place `i` comes first behind the start vertex, which
moves to the position of the chosen one. -/
def turn (start : Vertex α) (vs : List (Vertex α)) (i : Nat) (chosen : Vertex α) :
    List (Vertex α) :=
  let ring := vs.drop i ++ vs.take i
  let first := { start with position := chosen.position }
  if ring.isEmpty then [{ first with isEnd := true }] else first :: markEnd ring

def setStart (vs : List (Vertex α)) (i : Nat) (closed : Bool) :
    Except StartError (List (Vertex α)) :=
  if !closed then .error .openPath
  else match vs, vs[i]? with
    | start :: rest, some chosen =>
      if chosen.isStart || chosen.isEnd then .error (.boundsPath i)
      else .ok (turn start rest i chosen)
    | _, _ => .error (.noSuchVertex i)

end Reaming
