import Reaming.Scalar

namespace Reaming

inductive Units where
  /-- Nothing is declared. -/
  | undefined
  | pixels
  | millimeters
  | centimeters
  | inches
  deriving DecidableEq, Repr

instance : Inhabited Units := ⟨.undefined⟩

namespace Units

/-- The unit with a suffix; a number without one counts pixels. -/
def ofSuffix : Option String → Units
  | some "mm" => .millimeters
  | some "cm" => .centimeters
  | some "in" => .inches
  | some "i" => .inches
  | _ => .pixels

def squareMillimeters? {α : Type} [Scalar α] : Units → Option α
  | .millimeters => some 1.0
  | .centimeters => some 100.0
  | .inches => some 645.16
  | .undefined | .pixels => none

def isPhysical : Units → Bool
  | .millimeters | .centimeters | .inches => true
  | .undefined | .pixels => false

def lengthSuffix : Units → String
  | .undefined => ""
  | .pixels => "px"
  | .millimeters => "mm"
  | .centimeters => "cm"
  | .inches => "in"

def areaSuffix : Units → String
  | .undefined => ""
  | .pixels => "px²"
  | .millimeters => "mm²"
  | .centimeters => "cm²"
  | .inches => "in²"

end Units

inductive VolumeUnits where
  | milliliters
  | liters
  deriving DecidableEq, Repr

instance : Inhabited VolumeUnits := ⟨.milliliters⟩

namespace VolumeUnits

def perCubicMillimeter {α : Type} [Scalar α] : VolumeUnits → α
  | .milliliters => 0.001
  | .liters => 0.000001

def suffix : VolumeUnits → String
  | .milliliters => "ml"
  | .liters => "l"

end VolumeUnits

end Reaming
