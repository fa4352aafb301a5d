import Reaming.Decimal.Binary64

namespace Reaming.Decimal

/-- A number held to three places: a whole count of thousandths, so zero has no sign. -/
inductive Thousandths where
  | whole (count : Int)
  | infinite (negative : Bool)
  | nan
  deriving DecidableEq, Repr

/-- The nearest thousandth, ties to an even count. -/
def Thousandths.ofShape : Shape → Thousandths
  | .nan => .nan
  | .infinite negative => .infinite negative
  | .finite negative units =>
    let count := roundHalfEven (units * 1000) (1 <<< 1074)
    .whole (if negative then -count else count)

def Thousandths.ofFloat (x : Float) : Thousandths :=
  .ofShape (shape x)

def threeDigits (n : Nat) : List Char :=
  [Nat.digitChar (n / 100), Nat.digitChar (n / 10 % 10), Nat.digitChar (n % 10)]

def Thousandths.text : Thousandths → String
  | .nan => "NaN"
  | .infinite negative => if negative then "-inf" else "inf"
  | .whole count =>
    let n := count.natAbs
    let digits := Nat.toDigits 10 (n / 1000) ++ '.' :: threeDigits (n % 1000)
    String.ofList (if count < 0 then '-' :: digits else digits)

/-- A double with three decimals and a point, and no minus before zero. -/
def fixed3 (x : Float) : String :=
  (Thousandths.ofFloat x).text

structure Scientific where
  digits : Nat
  exponent : Int
  deriving DecidableEq, Repr

def Scientific.bits (d : Scientific) : Nat :=
  bitsOfDecimal d.digits d.exponent

/-- The exponent of the first decimal digit of a positive magnitude: `k` when it lies in
`[10 ^ k, 10 ^ (k + 1))`. The least double is above `10 ^ (-324)`. -/
def leadingExponent (units : Nat) : Int :=
  ((Nat.toDigits 10 ((units * Nat.pow 10 324) >>> 1074)).length : Int) - 325

/-- The two neighbours of a magnitude among the multiples of `10 ^ exponent`, the nearer first;
of two equally near ones, the even one first. -/
def neighbours (units : Nat) (exponent : Int) : List Scientific :=
  let num := units * Nat.pow 10 (-exponent).toNat
  let den := Nat.pow 10 exponent.toNat <<< 1074
  let below : Scientific := ⟨num / den, exponent⟩
  let above : Scientific := ⟨num / den + 1, exponent⟩
  let rest := num % den
  if 2 * rest < den ∨ (2 * rest = den ∧ below.digits % 2 = 0) then [below, above]
  else [above, below]

/-- The first neighbour with `count` digits that reads back as the bit pattern. -/
def withDigits? (bits units count : Nat) : Option Scientific :=
  (neighbours units (leadingExponent units - (count - 1 : Nat))).find? (·.bits = bits)

def Scientific.trim : Nat → Scientific → Scientific
  | 0, d => d
  | fuel + 1, d =>
    if d.digits ≠ 0 ∧ d.digits % 10 = 0 then trim fuel ⟨d.digits / 10, d.exponent + 1⟩ else d

/-- The decimal with the fewest digits that reads back as a positive double, and of those the
nearest. Seventeen digits tell any two doubles apart. -/
def fewestDigits? (bits : Nat) : Option Scientific :=
  (List.range' 1 17).findSome? (withDigits? bits (unitsOfBits bits))

def shortest (bits : Nat) : Scientific :=
  ((fewestDigits? bits).map (Scientific.trim 18)).getD ⟨unitsOfBits bits, 0⟩

end Reaming.Decimal
