import Reaming.PathData.Token
import Reaming.Scalar
import Reaming.Text.Lines

namespace Reaming

inductive LoadError where
  | unreadable (reason : String)
  | markup
  | dimension (name value : String)
  | viewBox (value : String)
  | pathData (error : PathData.Error)
  deriving DecidableEq, Repr

def LoadError.message : LoadError → String
  | .unreadable reason => s!"failed to read drawing: {reason}"
  | .markup => "drawing is not well-formed XML"
  | .dimension name value => s!"cannot parse {name} dimension '{value}'"
  | .viewBox value => s!"invalid viewBox '{value}'"
  | .pathData error => error.message

/-- The lower case of a character. Of the letters beyond ASCII only those whose lower case begins
with an ASCII letter are changed: no other makes a difference to a dimension. -/
def lowerCase (c : Char) : List Char :=
  if c = 'İ' then ['i', '\u0307']
  else if c = '\u212A' then ['k']
  else [c.toLower]

namespace Dimension

def unitAt? : List Char → Option String
  | 'm' :: 'm' :: _ => some "mm"
  | 'p' :: 'x' :: _ => some "px"
  | 'i' :: 'n' :: _ => some "in"
  | 'i' :: _ => some "i"
  | 'c' :: 'm' :: _ => some "cm"
  | _ => none

def fractionAt : List Char → List Char × List Char
  | c :: cs =>
    if c = '.' ∨ c = ',' then ('.' :: cs.takeWhile Char.isDigit, cs.dropWhile Char.isDigit)
    else ([], c :: cs)
  | [] => ([], [])

/-- The number that a text starts with, and the text behind it. It has digits with an optional
point or comma and more digits, or a point and digits. -/
def unsignedAt? (cs : List Char) : Option (List Char × List Char) :=
  match cs.takeWhile Char.isDigit with
  | [] =>
    match cs with
    | '.' :: rest =>
      match rest.takeWhile Char.isDigit with
      | [] => none
      | digits => some ('.' :: digits, rest.dropWhile Char.isDigit)
    | _ => none
  | whole =>
    let (fraction, rest) := fractionAt (cs.dropWhile Char.isDigit)
    some (whole ++ fraction, rest)

def numberAt? : List Char → Option (List Char × List Char)
  | '+' :: cs => (unsignedAt? cs).map fun (number, rest) => ('+' :: number, rest)
  | '-' :: cs => (unsignedAt? cs).map fun (number, rest) => ('-' :: number, rest)
  | cs => unsignedAt? cs

/-- The first number anywhere in a text, with the unit behind it if there is one. -/
def find? : List Char → Option (List Char × Option String)
  | [] => none
  | c :: cs =>
    match numberAt? (c :: cs) with
    | some (number, rest) => some (number, unitAt? (rest.dropWhile Text.isBlank))
    | none => find? cs

def read {α : Type} [Scalar α] (name value : String) :
    Except LoadError (α × Option String) :=
  match find? (value.toList.flatMap lowerCase) with
  | none => .error (.dimension name value)
  | some (number, unit) =>
    match Scalar.read? number with
    | none => .error (.dimension name value)
    | some n => .ok (n, unit)

end Dimension

structure ViewBox (α : Type) where
  minX : α
  minY : α
  width : α
  height : α
  deriving DecidableEq, Repr

namespace ViewBox

variable {α : Type} [Scalar α]

def pieces (value : List Char) : List (List Char) :=
  (Text.splitAt (fun c => Text.isBlank c || c == ',') value).filter (!·.isEmpty)

def ofText? (value : List Char) : Option (ViewBox α) := do
  match ← (pieces value).mapM Scalar.read? with
  | [minX, minY, width, height] => some ⟨minX, minY, width, height⟩
  | _ => none

def read (value : String) : Except LoadError (ViewBox α) :=
  match ofText? value.toList with
  | some box => .ok box
  | none => .error (.viewBox value)

end ViewBox

end Reaming
