import Reaming.Decimal.Printer
import Reaming.Text.Lines
import Reaming.Toolpath.Ring

namespace Reaming

/-- How the work is held, which settles where Z is zero. -/
inductive CutBehavior where
  /-- Zero is the top of the line. -/
  | line
  /-- Zero is the table. -/
  | table
  deriving DecidableEq, Repr

/-- The machine parameters of a reaming pass between two rails. -/
structure Config where
  safeZ : Float
  lineHeight : Float
  lineWidth : Float
  /-- How deep the pass cuts. -/
  cutHeight : Float
  /-- How far the tool goes past each side of the line. -/
  widthOffset : Float
  cutBehavior : CutBehavior
  cutAtEnd : Bool
  prologue : String
  epilogue : String

instance : Inhabited Config where
  default :=
    { safeZ := 5.0
      lineHeight := 2.0
      lineWidth := 10.0
      cutHeight := 1.0
      widthOffset := 2.0
      cutBehavior := .line
      cutAtEnd := true
      prologue := "G90\nG21"
      epilogue := "M30" }

namespace Config

def leftRail (c : Config) : Float := -c.widthOffset

def rightRail (c : Config) : Float := c.lineWidth + c.widthOffset

def bottomZ (c : Config) : Float :=
  match c.cutBehavior with
  | .line => -c.cutHeight
  | .table => c.lineHeight - c.cutHeight

def endCutZ (c : Config) : Float :=
  match c.cutBehavior with
  | .line => -c.lineHeight
  | .table => 0.0

end Config

open Decimal (Thousandths)

/-- One move of the tool. An axis without a word stays where it is. -/
structure Move where
  /-- Rapid moves are not controlled on their way. -/
  rapid : Bool
  x : Option Thousandths := none
  y : Option Thousandths := none
  z : Option Thousandths := none
  deriving DecidableEq, Repr

def Move.line (m : Move) : String :=
  let word (axis : String) (value : Option Thousandths) : String :=
    match value with
    | none => ""
    | some v => " " ++ axis ++ v.text
  (if m.rapid then "G0" else "G1") ++ word "X" m.x ++ word "Y" m.y ++ word "Z" m.z

inductive Rail where
  | left
  | right
  deriving DecidableEq, Repr

def Rail.opposite : Rail → Rail
  | .left => .right
  | .right => .left

structure Frame where
  left : Thousandths
  right : Thousandths
  safe : Thousandths
  bottom : Thousandths
  endCut : Thousandths
  deriving DecidableEq, Repr

def Config.frame (c : Config) : Frame :=
  { left := .ofFloat c.leftRail
    right := .ofFloat c.rightRail
    safe := .ofFloat c.safeZ
    bottom := .ofFloat c.bottomZ
    endCut := .ofFloat c.endCutZ }

def Frame.railX (f : Frame) : Rail → Thousandths
  | .left => f.left
  | .right => f.right

structure Target where
  y : Float
  isEnd : Bool

/-- The vertices that the tool goes to. Those it passes by add to the length all the same. -/
def targets (y : Float) : List (Vertex Float) → List Target
  | [] => []
  | v :: vs =>
    let y := y + v.arcLength
    if v.counts && !v.isStart then ⟨y, v.isEnd⟩ :: targets y vs else targets y vs

def crossing (f : Frame) (cutAtEnd : Bool) (rail : Rail) (t : Target) : List Move :=
  [{ rapid := false
     y := some (.ofFloat t.y)
     z := if t.isEnd && cutAtEnd then some f.endCut else none },
   { rapid := false, x := some (f.railX rail.opposite) }]

def crossings (f : Frame) (cutAtEnd : Bool) : Rail → List Target → List Move
  | _, [] => []
  | rail, t :: ts => crossing f cutAtEnd rail t ++ crossings f cutAtEnd rail.opposite ts

/-- Goes to the first target on the left rail and plunges there, then crosses at every later
one. -/
def passes (f : Frame) (cutAtEnd : Bool) : List Target → List Move
  | [] => []
  | t :: ts =>
    { rapid := true, x := some f.left, y := some (.ofFloat t.y) } ::
    { rapid := false, z := some f.bottom } :: crossings f cutAtEnd .left ts

def reamingMoves (vs : List (Vertex Float)) (c : Config) : List Move :=
  let f := c.frame
  { rapid := true, z := some f.safe } ::
  (passes f c.cutAtEnd (targets 0.0 vs) ++
    [{ rapid := false, z := some f.safe },
     { rapid := true, x := some (.whole 0), y := some (.whole 0) }])

def shownLines (text : String) : List String :=
  (Text.lines text).filter fun line => !Text.isBlankLine line

def reamingProgram (vs : List (Vertex Float)) (c : Config) : List String :=
  shownLines c.prologue ++ (reamingMoves vs c).map Move.line ++ shownLines c.epilogue

def programText (lines : List String) : String :=
  String.join (lines.map (· ++ "\n"))

end Reaming
