import Reaming.Geometry.Path
import Reaming.PathData.Token
import Reaming.PathData.Command

namespace Reaming

variable {α : Type} [Scalar α]

/-- Two points less than a tenth of a unit apart on both axes. -/
def Point.near (p q : Point α) : Bool :=
  decide (Scalar.abs (p.x - q.x) < 0.1) && decide (Scalar.abs (p.y - q.y) < 0.1)

def Path.snapTo (p : Path α) (q : Point α) : Path α :=
  { p with segments := p.segments.dropLast ++ (p.segments.getLast?.map (·.withStop q)).toList }

/-- Closes a path on its start: a pen near the start is snapped onto it, any other is joined to
it by a line. A path without segments stays as it is. -/
def Path.close (p : Path α) (pen : Point α) : Path α :=
  match p.start? with
  | none => p
  | some first =>
    let joined := if pen.near first then p.snapTo first else p.push (.line pen first)
    { joined with closed := true }

namespace PathData

structure Reader (α : Type) where
  /-- The subpaths that are finished, in order. -/
  finished : List (Path α)
  /-- The subpath being drawn, from its moveto on. -/
  current : Option (Path α)
  pen : Point α
  /-- Where the current subpath began, and where a close-path takes the pen. -/
  home : Point α
  command : Command
  /-- The operands of the group being collected, in order. -/
  operands : List α

namespace Reader

/-- Numbers before the first letter count as a moveto. -/
def initial : Reader α :=
  { finished := []
    current := none
    pen := .origin
    home := .origin
    command := ⟨.moveTo, false⟩
    operands := [] }

/-- All subpaths so far. One on which nothing was drawn is left out. -/
def paths (r : Reader α) : List (Path α) :=
  r.finished ++ (r.current.filter fun p => !p.isEmpty).toList

/-- A letter or the end of the data has to come between two groups. -/
def checkComplete (r : Reader α) : Except Error Unit :=
  if r.operands.isEmpty then .ok ()
  else .error (.incompleteOperands r.command r.operands.length)

def closePath (r : Reader α) : Except Error (Reader α) :=
  match r.current with
  | none => .error (.missingMoveTo r.command)
  | some p => .ok { r with current := some (p.close r.pen), pen := r.home }

/-- Drawing on after a close-path opens the subpath again. -/
def reopen (r : Reader α) : Except Error (Reader α) :=
  match r.current with
  | none => .error (.missingMoveTo r.command)
  | some p => .ok { r with current := some { p with closed := false } }

def begin (r : Reader α) (c : Command) : Except Error (Reader α) := do
  r.checkComplete
  let r := { r with command := c }
  match c.verb with
  | .arcTo => .error (.unsupportedCommand c)
  | .moveTo => .ok r
  | .closePath => r.closePath
  | _ => r.reopen

def locate (r : Reader α) (p : Point α) : Point α :=
  (if r.command.relative then r.pen else .origin) + p

def previous? (r : Reader α) : Option (Curve α) :=
  r.current.bind fun p => p.segments.getLast?.map Segment.curve

def predecessor (r : Reader α) : Predecessor :=
  match r.previous? with
  | none => .subpathStart
  | some (.line ..) => .line
  | some (.quadratic ..) => .quadratic
  | some (.cubic ..) => .cubic

/-- Ends the current subpath and begins one at `p`. More pairs after a moveto draw lines. -/
def moveTo (r : Reader α) (p : Point α) : Reader α :=
  { r with
    finished := r.paths
    current := some .empty
    pen := p
    home := p
    command := ⟨.lineTo, r.command.relative⟩ }

def draw (r : Reader α) (c : Curve α) : Except Error (Reader α) :=
  match r.current with
  | none => .error (.missingMoveTo r.command)
  | some p => .ok { r with current := some (p.push (.ofCurve c)), pen := c.stop }

def perform (r : Reader α) : Group α → Except Error (Reader α)
  | .moveTo p => .ok (r.moveTo (r.locate p))
  | .lineTo p => r.draw (.line r.pen (r.locate p))
  | .horizontalTo x =>
    r.draw (.line r.pen (if r.command.relative then r.pen + ⟨x, 0.0⟩ else ⟨x, r.pen.y⟩))
  | .verticalTo y =>
    r.draw (.line r.pen (if r.command.relative then r.pen + ⟨0.0, y⟩ else ⟨r.pen.x, y⟩))
  | .cubicTo a b p => r.draw (.cubic r.pen (r.locate a) (r.locate b) (r.locate p))
  | .smoothCubicTo b p =>
    match r.previous? with
    | some (.cubic _ _ c _) =>
      r.draw (.cubic r.pen (c.reflect r.pen) (r.locate b) (r.locate p))
    | _ => .error (.invalidShorthand r.command r.predecessor)
  | .quadraticTo a p => r.draw (.quadratic r.pen (r.locate a) (r.locate p))
  | .smoothQuadraticTo p =>
    match r.previous? with
    | some (.quadratic _ c _) => r.draw (.quadratic r.pen (c.reflect r.pen) (r.locate p))
    | _ => .error (.invalidShorthand r.command r.predecessor)

/-- Takes one more operand, and carries out the group that it completes. -/
def operand (r : Reader α) (text : List Char) (value : α) : Except Error (Reader α) :=
  if r.command.verb = .closePath then .error (.unexpectedOperand text)
  else
    let operands := r.operands ++ [value]
    match Group.of? r.command.verb operands with
    | none => .ok { r with operands }
    | some g => { r with operands := [] }.perform g

def feed (r : Reader α) : Token → Except Error (Reader α)
  | .command c => r.begin c
  | .number text =>
    match Scalar.read? text with
    | none => .error (.malformedNumber text)
    | some value => r.operand text value

def finish (r : Reader α) : Except Error (List (Path α)) := do
  r.checkComplete
  return r.paths

end Reader

def readTokens (ts : List Token) : Except Error (List (Path α)) := do
  (← ts.foldlM Reader.feed Reader.initial).finish

def read (text : String) : Except Error (List (Path α)) :=
  readTokens (tokens text.toList)

end PathData

end Reaming
