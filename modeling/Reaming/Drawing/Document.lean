import Reaming.Area.Policy
import Reaming.Decimal.Printer
import Reaming.Drawing.Dimension
import Reaming.Drawing.Units
import Reaming.Files.Tree
import Reaming.Markup.Attribute
import Reaming.PathData.Reader

namespace Reaming

structure Scan where
  width : Option String
  height : Option String
  viewBox : Option String
  pathData : List String
  deriving DecidableEq, Repr

namespace Scan

open Markup

def isNamed (name : String) (e : Element) : Bool := localName e.name == bytes name

/-- The size is declared on the first `svg` element, the paths on `path` elements anywhere. -/
def ofElements? (elements : List Element) : Option Scan := do
  let declared (name : String) : Option (Option String) :=
    match elements.find? (isNamed "svg") with
    | none => some none
    | some root => root.attribute? name
  let width ← declared "width"
  let height ← declared "height"
  let viewBox ← declared "viewBox"
  let pathData ← (elements.filter (isNamed "path")).mapM (·.attribute? "d")
  return ⟨width, height, viewBox, pathData.filterMap id⟩

/-- Nothing if the markup is broken anywhere that has to be read. -/
def ofBytes? (text : Bytes) : Option Scan := do
  ofElements? (← elements? text)

end Scan

/-- A drawing in its declared unit. Each path is moved so that its bounds start at the origin; the
area is that of the drawing as a whole. -/
structure Document (α : Type) where
  paths : List (Path α)
  units : Units
  width : α
  height : α
  /-- How many declared units make one drawing unit. -/
  scale : α
  area : α
  deriving Repr

structure Size (α : Type) where
  units : Units
  width : α
  height : α
  scale : α
  deriving Repr

variable {α : Type} [Scalar α]

namespace Size

def undeclared : Size α := ⟨.undefined, 0.0, 0.0, 1.0⟩

def withWidth (s : Size α) : Option String → Except LoadError (Size α)
  | none => .ok s
  | some value => do
    let (width, suffix) ← Dimension.read "width" value
    return { s with width, units := .ofSuffix suffix }

def withHeight (s : Size α) : Option String → Except LoadError (Size α)
  | none => .ok s
  | some value => do
    let (height, _) ← Dimension.read "height" value
    return { s with height }

/-- Without a declared width the view box gives the size. With one it gives the scale. -/
def withViewBox (s : Size α) : Option String → Except LoadError (Size α)
  | none => .ok s
  | some value => do
    let box ← ViewBox.read value
    if s.units = .undefined then return { s with width := box.width, height := box.height }
    else if box.width == 0.0 then throw (.viewBox value)
    else return { s with scale := s.width / box.width }

def ofScan (scan : Scan) : Except LoadError (Size α) := do
  let s ← undeclared.withWidth scan.width
  let s ← s.withHeight scan.height
  s.withViewBox scan.viewBox

end Size

def readPaths : List String → Except LoadError (List (Path α))
  | [] => .ok []
  | d :: ds =>
    match PathData.read d with
    | .error e => .error (.pathData e)
    | .ok paths => (readPaths ds).map (paths ++ ·)

namespace Document

def empty : Document α := ⟨[], .undefined, 0.0, 0.0, 1.0, 0.0⟩

def isEmpty (d : Document α) : Bool := d.paths.isEmpty

def ofPaths (size : Size α) (policy : AreaPolicy) (paths : List (Path α)) : Document α :=
  { paths := paths.map fun p => (p.scale size.scale).toOrigin
    units := size.units
    width := size.width
    height := size.height
    scale := size.scale
    area := composeArea paths policy * size.scale * size.scale }

def ofScan (policy : AreaPolicy) (scan : Scan) : Except LoadError (Document α) := do
  let size ← Size.ofScan scan
  return ofPaths size policy (← readPaths scan.pathData)

def ofBytes (policy : AreaPolicy) (text : Markup.Bytes) : Except LoadError (Document α) :=
  match Scan.ofBytes? text with
  | none => .error .markup
  | some scan => ofScan policy scan

def ofFile (files : Files) (path : String) : Except LoadError (Document α) :=
  match files.read path with
  | .error e => .error (.unreadable e.message)
  | .ok content => ofBytes default content.toList

/-- Loads a drawing in place of the document, which stays as it is if that fails. -/
def load (d : Document α) (policy : AreaPolicy) (text : Markup.Bytes) :
    Document α × Option LoadError :=
  match ofBytes policy text with
  | .ok loaded => (loaded, none)
  | .error e => (d, some e)

def pathLength? (d : Document α) (i : Nat) : Option α := d.paths[i]?.map Path.length

/-- The volume over the area up to a height in millimetres, for a drawing in physical units. -/
def volume? (d : Document α) (floorHeight : α) (units : VolumeUnits) : Option α :=
  d.units.squareMillimeters?.map fun factor =>
    d.area * factor * floorHeight * units.perCubicMillimeter

end Document

def measureLabel (value : Float) (suffix : String) : String :=
  if suffix.isEmpty then Decimal.fixed3 value else s!"{Decimal.fixed3 value} {suffix}"

def Document.areaLabel (d : Document Float) : String :=
  measureLabel d.area d.units.areaSuffix

def Document.pathLengthLabel? (d : Document Float) (i : Nat) : Option String :=
  (d.pathLength? i).map fun length => measureLabel length d.units.lengthSuffix

end Reaming
