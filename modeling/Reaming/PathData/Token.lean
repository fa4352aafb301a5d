import Reaming.PathData.Command
import Reaming.Text.Lines

namespace Reaming.PathData

/-- A piece of path data: a command letter, or a run of characters that should read as a number. -/
inductive Token where
  | command (c : Command)
  | number (text : List Char)
  deriving DecidableEq, Repr

def isSeparator (c : Char) : Bool :=
  c == ',' || c == ';' || Text.isBlank c

def isSign (c : Char) : Bool := c == '-' || c == '+'

def isExponentMarker (c : Char) : Bool := c == 'e' || c == 'E'

/-- A sign behind other characters starts a number of its own, unless it is the sign of an
exponent. The characters so far are given from the last to the first. -/
def startsNumber (pending : List Char) (c : Char) : Bool :=
  isSign c && match pending with
    | [] => false
    | last :: _ => !isExponentMarker last

def flush (pending : List Char) : List Token :=
  if pending.isEmpty then [] else [.number pending.reverse]

/-- Reads tokens off a text. The characters of the number being collected are given from the last
to the first. -/
def scan (pending : List Char) : List Char → List Token
  | [] => flush pending
  | c :: cs =>
    match Command.ofLetter? c with
    | some k => flush pending ++ .command k :: scan [] cs
    | none =>
      if isSeparator c then flush pending ++ scan [] cs
      else if startsNumber pending c then flush pending ++ scan [c] cs
      else scan (c :: pending) cs

def tokens (text : List Char) : List Token := scan [] text

inductive Predecessor where
  | subpathStart
  | line
  | quadratic
  | cubic
  deriving DecidableEq, Repr

def Predecessor.text : Predecessor → String
  | .subpathStart => "the start of a subpath"
  | .line => "a line segment"
  | .quadratic => "a quadratic curve"
  | .cubic => "a cubic curve"

inductive Error where
  | malformedNumber (token : List Char)
  /-- Elliptical arcs are known but not drawn. -/
  | unsupportedCommand (command : Command)
  /-- A smooth curve does not continue a curve of its own kind. -/
  | invalidShorthand (command : Command) (previous : Predecessor)
  /-- Something is drawn before the first moveto. -/
  | missingMoveTo (command : Command)
  /-- A command ends in the middle of a group of operands. -/
  | incompleteOperands (command : Command) (found : Nat)
  /-- A number follows a close-path. -/
  | unexpectedOperand (token : List Char)
  deriving DecidableEq, Repr

def Error.message : Error → String
  | .malformedNumber token => s!"malformed number '{String.ofList token}' in path data"
  | .unsupportedCommand c => s!"unsupported path command '{c.letter}'"
  | .invalidShorthand c previous => s!"smooth command '{c.letter}' cannot follow {previous.text}"
  | .missingMoveTo c => s!"path data must start with a moveto, found '{c.letter}'"
  | .incompleteOperands c found =>
    s!"command '{c.letter}' expects {c.verb.arity} operands, found {found}"
  | .unexpectedOperand token => s!"unexpected operand '{String.ofList token}' after close-path"

end Reaming.PathData
