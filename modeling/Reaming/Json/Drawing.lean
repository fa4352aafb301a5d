import Reaming.Drawing.Document
import Reaming.Json.Geometry

namespace Reaming

open Json

namespace Units

def name : Units → String
  | .undefined => "Undefined"
  | .pixels => "Pixels"
  | .millimeters => "Millimeters"
  | .centimeters => "Centimeters"
  | .inches => "Inches"

def ofName? : String → Option Units
  | "Undefined" => some .undefined
  | "Pixels" => some .pixels
  | "Millimeters" => some .millimeters
  | "Centimeters" => some .centimeters
  | "Inches" => some .inches
  | _ => none

def ofJson? (v : Json) : Option Units := (plainChoice? v).bind ofName?

end Units

namespace VolumeUnits

def name : VolumeUnits → String
  | .milliliters => "Milliliters"
  | .liters => "Liters"

def ofName? : String → Option VolumeUnits
  | "Milliliters" => some .milliliters
  | "Liters" => some .liters
  | _ => none

theorem ofName?_name (u : VolumeUnits) : ofName? u.name = some u := by
  cases u <;> rfl

def ofJson? (v : Json) : Option VolumeUnits := (plainChoice? v).bind ofName?

end VolumeUnits

namespace AreaPolicy

def name : AreaPolicy → String
  | .largestMinusOthers => "LargestMinusOthers"
  | .containmentForest => "ContainmentForest"

def ofName? : String → Option AreaPolicy
  | "LargestMinusOthers" => some .largestMinusOthers
  | "ContainmentForest" => some .containmentForest
  | _ => none

theorem ofName?_name (p : AreaPolicy) : ofName? p.name = some p := by
  cases p <;> rfl

def ofJson? (v : Json) : Option AreaPolicy := (plainChoice? v).bind ofName?

end AreaPolicy

def Region.toJson (r : Region) : Json :=
  record [("outer", ofNat r.outer), ("holes", .array (r.holes.map ofNat))]

namespace Document

def toJson (d : Document Float) : Json :=
  record
    [("paths", .array (d.paths.map Path.toJson)), ("units", ofString d.units.name),
      ("width", ofFloat d.width), ("height", ofFloat d.height), ("scale", ofFloat d.scale),
      ("area", ofFloat d.area)]

def ofJson? (v : Json) : Option (Document Float) := do
  match ← fields? ["paths", "units", "width", "height", "scale", "area"] v with
  | [paths, units, width, height, scale, area] =>
    return {
      paths := ← required? (list? Path.ofJson?) paths
      units := ← required? Units.ofJson? units
      width := ← required? float? width
      height := ← required? float? height
      scale := ← required? float? scale
      area := ← required? float? area }
  | _ => none

end Document

end Reaming
