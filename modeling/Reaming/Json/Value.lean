import Reaming.Decimal.Numeral
import Reaming.Decimal.Printer

namespace Reaming.Json

open Decimal

/-- A number as it stands in a text: its digits before and after the point, and its exponent with
a sign or without. An empty part is not written. -/
structure Number where
  negative : Bool
  whole : List Char
  fraction : List Char
  exponent : List Char
  deriving DecidableEq, Repr

namespace Number

def text (n : Number) : List Char :=
  (if n.negative then ['-'] else []) ++ n.whole ++
    (if n.fraction.isEmpty then [] else '.' :: n.fraction) ++
    (if n.exponent.isEmpty then [] else 'e' :: n.exponent)

def ofNat (n : Nat) : Number := ⟨false, Nat.toDigits 10 n, [], []⟩

def zeros (n : Nat) : List Char := List.replicate n '0'

/-- A positive decimal: in place notation from `1e-5` up to below `1e16`, with an exponent beyond.
Place notation always shows a digit on both sides of the point. -/
def ofScientific (negative : Bool) (d : Scientific) : Number :=
  let digits := Nat.toDigits 10 d.digits
  let point := digits.length + d.exponent
  if -5 < point ∧ point ≤ 16 then
    if 0 ≤ d.exponent then ⟨negative, digits ++ zeros d.exponent.toNat, ['0'], []⟩
    else if 0 < point then ⟨negative, digits.take point.toNat, digits.drop point.toNat, []⟩
    else ⟨negative, ['0'], zeros (-point).toNat ++ digits, []⟩
  else
    let e := point - 1
    ⟨negative, digits.take 1, digits.drop 1,
      (if e < 0 then '-' else '+') :: Nat.toDigits 10 e.natAbs⟩

def ofFloat? (x : Float) : Option Number :=
  match shape x with
  | .nan | .infinite _ => none
  | .finite negative units =>
    if units = 0 then some ⟨negative, ['0'], ['0'], []⟩
    else some (ofScientific negative (shortest (x.toBits.toNat % (1 <<< 63))))

/-- Appends digits to a whole number while it stays below `2 ^ 64`; also tells how many digits are
left out. -/
def appendDigits (n : Nat) : List Char → Nat × Nat
  | [] => (n, 0)
  | c :: cs =>
    let next := 10 * n + (c.toNat - '0'.toNat)
    if next < 1 <<< 64 then appendDigits next cs else (n, cs.length + 1)

def powerOfTen (e : Nat) : Float := ofRatio false (Nat.pow 10 e) 1

/-- Moves the point of a double by one multiplication or division. Numbers past the largest double
are refused, and points too far left are moved in steps. -/
def movePoint? (x : Float) (e : Int) : Option Float :=
  if 0 ≤ e then
    if x == 0.0 then some x
    else if 308 < e then none
    else
      let y := x * powerOfTen e.toNat
      if y.isInf then none else some y
  else if -308 ≤ e then some (x / powerOfTen e.natAbs)
  else if x == 0.0 then some x
  else movePoint? (x / powerOfTen 308) (e + 308)
termination_by e.natAbs
decreasing_by omega

def exponentValue (n : Number) : Int :=
  let (negative, digits) := takeSign n.exponent
  if negative then -(digitsValue digits : Int) else digitsValue digits

/-- The value of a number. The digits that fit 64 bits make a whole number, whose point is then
moved; so a number with many digits may miss the nearest double. -/
def toFloat? (n : Number) : Option Float :=
  let (whole, skipped) := appendDigits 0 n.whole
  let (digits, ignored) := appendDigits whole n.fraction
  let e := n.exponentValue + skipped - (n.fraction.length - ignored : Nat)
  (movePoint? (ofRatio false digits 1) e).map fun x => if n.negative then -x else x

end Number

end Reaming.Json

namespace Reaming

/-- The text of a string; there is none if the string holds half of a surrogate pair. -/
abbrev Json.Text := Option String

/-- A value as it stands in a JSON text, members in order and keys repeated as written. -/
inductive Json where
  | null
  | bool (b : Bool)
  | number (n : Json.Number)
  | string (s : Json.Text)
  | array (items : List Json)
  | object (members : List (Json.Text × Json))
  deriving Repr

namespace Json

def ofString (s : String) : Json := .string (some s)

def ofNat (n : Nat) : Json := .number (.ofNat n)

/-- A double; one that is not finite has no number and is written as null. -/
def ofFloat (x : Float) : Json :=
  match Number.ofFloat? x with
  | some n => .number n
  | none => .null

def record (members : List (String × Json)) : Json :=
  .object (members.map fun (k, v) => (some k, v))

def tagged (name : String) (payload : Json) : Json := record [(name, payload)]

end Json

end Reaming
