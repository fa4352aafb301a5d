import Reaming.Decimal.Binary64

namespace Reaming.Decimal

inductive Numeral where
  | nan
  | infinite (negative : Bool)
  | decimal (negative : Bool) (mantissa : Nat) (exponent : Int)
  deriving DecidableEq, Repr

def digitsValue (digits : List Char) : Nat :=
  digits.foldl (fun n c => 10 * n + (c.toNat - '0'.toNat)) 0

/-- Takes an optional sign off the front and tells whether it was a minus. -/
def takeSign : List Char → Bool × List Char
  | '-' :: cs => (true, cs)
  | '+' :: cs => (false, cs)
  | cs => (false, cs)

def exponentPart? : List Char → Option Int
  | [] => some 0
  | marker :: cs =>
    if marker = 'e' ∨ marker = 'E' then
      let (negative, digits) := takeSign cs
      if digits = [] ∨ ¬ digits.all Char.isDigit then none
      else if negative then some (-(digitsValue digits : Int))
      else some (digitsValue digits)
    else none

def fractionPart : List Char → List Char × List Char
  | '.' :: cs => (cs.takeWhile Char.isDigit, cs.dropWhile Char.isDigit)
  | cs => ([], cs)

/-- A decimal without its sign. It has a digit before or after the point. -/
def decimal? (negative : Bool) (cs : List Char) : Option Numeral :=
  let whole := cs.takeWhile Char.isDigit
  let (fraction, rest) := fractionPart (cs.dropWhile Char.isDigit)
  if whole = [] ∧ fraction = [] then none
  else (exponentPart? rest).map fun exponent =>
    .decimal negative (digitsValue (whole ++ fraction)) (exponent - fraction.length)

/-- Reads a whole text as a number: an optional sign, then `inf`, `infinity` or `nan` in any
letter case, or a decimal with an optional point and exponent. -/
def Numeral.read? (cs : List Char) : Option Numeral :=
  let (negative, body) := takeSign cs
  let word := body.map Char.toLower
  if word = "inf".toList ∨ word = "infinity".toList then some (.infinite negative)
  else if word = "nan".toList then some .nan
  else decimal? negative body

def Numeral.toFloat : Numeral → Float
  | .nan => Float.ofBits 0x7FF8000000000000
  | .infinite negative => ofMagnitudeBits negative (2047 <<< 52)
  | .decimal negative mantissa exponent =>
    ofMagnitudeBits negative (bitsOfDecimal mantissa exponent)

end Reaming.Decimal
