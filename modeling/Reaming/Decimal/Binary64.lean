namespace Reaming.Decimal

/-- The whole number nearest to `num / den`; of two equally near ones, the even one. -/
def roundHalfEven (num den : Nat) : Nat :=
  let q := num / den
  let r := num % den
  if 2 * r < den then q
  else if den < 2 * r then q + 1
  else q + q % 2

/-- The rounded number is at most half a unit away. -/
theorem roundHalfEven_near {num den : Nat} (pos : 0 < den) :
    2 * num ≤ 2 * (roundHalfEven num den * den) + den ∧
      2 * (roundHalfEven num den * den) ≤ 2 * num + den := by
  have split_num := Nat.div_add_mod num den
  have rest := Nat.mod_lt num pos
  have swap : num / den * den = den * (num / den) := Nat.mul_comm _ _
  unfold roundHalfEven
  dsimp only
  split
  · omega
  · split
    · rw [Nat.add_mul]; omega
    · rcases Nat.mod_two_eq_zero_or_one (num / den) with h | h <;>
        rw [h, Nat.add_mul] <;> omega

/-- A tie goes to the even neighbour. -/
theorem roundHalfEven_tie {num den : Nat} (tie : 2 * (num % den) = den) :
    roundHalfEven num den % 2 = 0 := by
  simp only [roundHalfEven, tie, Nat.lt_irrefl, ↓reduceIte]
  omega

/-- Every finite double is a whole number of units, of which `2 ^ 1074` make one. -/
inductive Shape where
  | nan
  | infinite (negative : Bool)
  | finite (negative : Bool) (units : Nat)
  deriving DecidableEq, Repr

/-- The magnitude of a finite double from the lower 63 bits of its pattern. -/
def unitsOfBits (bits : Nat) : Nat :=
  let step := bits >>> 52
  let fraction := bits % (1 <<< 52)
  if step = 0 then fraction else ((1 <<< 52) + fraction) <<< (step - 1)

def Shape.ofBits (bits : Nat) : Shape :=
  let negative := decide (1 <<< 63 ≤ bits)
  let magnitude := bits % (1 <<< 63)
  if magnitude < 2047 <<< 52 then .finite negative (unitsOfBits magnitude)
  else if magnitude = 2047 <<< 52 then .infinite negative
  else .nan

def shape (x : Float) : Shape :=
  Shape.ofBits x.toBits.toNat

/-- The bit pattern of the double nearest to `num / den`, ties to an even pattern; a ratio past
the largest double gives the pattern of infinity. The patterns of the positive doubles are in the
order of their values, so a carry out of the fraction needs no case of its own. -/
def bitsOfRatio (num den : Nat) : Nat :=
  let units := num <<< 1074
  let step := (units / den).log2 - 52
  min ((step <<< 52) + roundHalfEven units (den <<< step)) (2047 <<< 52)

def ofMagnitudeBits (negative : Bool) (bits : Nat) : Float :=
  Float.ofBits (UInt64.ofNat (if negative then (1 <<< 63) + bits else bits))

def ofRatio (negative : Bool) (num den : Nat) : Float :=
  ofMagnitudeBits negative (bitsOfRatio num den)

/-- The bit pattern of the double nearest to `mantissa * 10 ^ exponent`. Exponents far outside
the range of doubles are settled without the power of ten. -/
def bitsOfDecimal (mantissa : Nat) : Int → Nat
  | .ofNat e =>
    if mantissa = 0 then 0
    else if 400 < e then 2047 <<< 52
    else bitsOfRatio (mantissa * Nat.pow 10 e) 1
  | .negSucc e =>
    if mantissa = 0 then 0
    else if 400 + mantissa.log2 < e then 0
    else bitsOfRatio mantissa (Nat.pow 10 (e + 1))

end Reaming.Decimal
