import Reaming.Decimal.Numeral

namespace Reaming.CommandLine

structure Options where
  drawing : String
  pathIndex : Nat
  floorHeight : Option Float
  out : Option String
  settings : Option String

/-- The options met so far; the drawing may still be to come. -/
structure Collected where
  drawing : Option String := none
  pathIndex : Nat := 0
  floorHeight : Option Float := none
  out : Option String := none
  settings : Option String := none

inductive IndexError where
  | empty
  | invalidDigit
  | tooLarge
  deriving DecidableEq, Repr

def IndexError.message : IndexError → String
  | .empty => "cannot parse integer from empty string"
  | .invalidDigit => "invalid digit found in string"
  | .tooLarge => "number too large to fit in target type"

/-- Reads digits behind the value so far; an index is below `2 ^ 64`. -/
def readDigits (n : Nat) : List Char → Except IndexError Nat
  | [] => .ok n
  | c :: cs =>
    if !c.isDigit then .error .invalidDigit
    else
      let next := 10 * n + (c.toNat - '0'.toNat)
      if next < 1 <<< 64 then readDigits next cs else .error .tooLarge

def readIndex : List Char → Except IndexError Nat
  | [] => .error .empty
  | ['+'] => .error .invalidDigit
  | '+' :: cs => readDigits 0 cs
  | cs => readDigits 0 cs

inductive ArgumentError where
  | missingValue (flag : String)
  | badIndex (raw : String) (cause : IndexError)
  | badHeight (raw : String)
  | unknownOption (flag : String)
  | secondDrawing
  | noDrawing
  deriving DecidableEq, Repr

def ArgumentError.message : ArgumentError → String
  | .missingValue flag => s!"missing value for {flag}"
  | .badIndex raw cause => s!"invalid path index '{raw}': {cause.message}"
  | .badHeight raw =>
    let cause :=
      if raw.isEmpty then "cannot parse float from empty string" else "invalid float literal"
    s!"invalid floor height '{raw}': {cause}"
  | .unknownOption flag => s!"unknown option {flag}"
  | .secondDrawing => "only one drawing may be given"
  | .noDrawing => "no drawing given"

inductive Flag where
  | path
  | floorHeight
  | out
  | settings
  deriving DecidableEq, Repr

def Flag.text : Flag → String
  | .path => "--path"
  | .floorHeight => "--floor-height"
  | .out => "--out"
  | .settings => "--settings"

def flags : List Flag := [.path, .floorHeight, .out, .settings]

def Flag.ofText? (arg : String) : Option Flag := flags.find? (·.text = arg)

/-- Sets the option of a flag; a later value replaces an earlier one. -/
def Collected.set (o : Collected) (flag : Flag) (raw : String) : Except ArgumentError Collected :=
  match flag with
  | .path =>
    match readIndex raw.toList with
    | .ok n => .ok { o with pathIndex := n }
    | .error e => .error (.badIndex raw e)
  | .floorHeight =>
    match Decimal.Numeral.read? raw.toList with
    | some n => .ok { o with floorHeight := some n.toFloat }
    | none => .error (.badHeight raw)
  | .out => .ok { o with out := some raw }
  | .settings => .ok { o with settings := some raw }

def collect (o : Collected) : List String → Except ArgumentError Collected
  | [] => .ok o
  | arg :: args =>
    match Flag.ofText? arg with
    | some flag =>
      match args with
      | [] => .error (.missingValue flag.text)
      | raw :: args =>
        match o.set flag raw with
        | .ok o => collect o args
        | .error e => .error e
    | none =>
      if arg.startsWith "--" then .error (.unknownOption arg)
      else if o.drawing.isSome then .error .secondDrawing
      else collect { o with drawing := some arg } args

def Options.ofArguments (args : List String) : Except ArgumentError Options := do
  let o ← collect {} args
  match o.drawing with
  | none => throw .noDrawing
  | some drawing => return ⟨drawing, o.pathIndex, o.floorHeight, o.out, o.settings⟩

end Reaming.CommandLine
