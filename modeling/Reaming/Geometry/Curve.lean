import Reaming.Geometry.Plane

namespace Reaming

inductive Curve (α : Type) where
  | line (start stop : Point α)
  | quadratic (start control stop : Point α)
  | cubic (start control₁ control₂ stop : Point α)
  deriving DecidableEq, Repr

/-- A curve is sampled at this many parameters, and at its end. -/
def sampleCount : Nat := 1000

namespace Curve

variable {α : Type}

def start : Curve α → Point α
  | .line p _ | .quadratic p _ _ | .cubic p _ _ _ => p

def stop : Curve α → Point α
  | .line _ p | .quadratic _ _ p | .cubic _ _ _ p => p

def withStop (p : Point α) : Curve α → Curve α
  | .line a _ => .line a p
  | .quadratic a b _ => .quadratic a b p
  | .cubic a b c _ => .cubic a b c p

def map (f : Point α → Point α) : Curve α → Curve α
  | .line a b => .line (f a) (f b)
  | .quadratic a b c => .quadratic (f a) (f b) (f c)
  | .cubic a b c d => .cubic (f a) (f b) (f c) (f d)

def isLine : Curve α → Bool
  | .line .. => true
  | _ => false

@[simp] theorem stop_withStop (c : Curve α) (p : Point α) : (c.withStop p).stop = p := by
  cases c <;> rfl

@[simp] theorem start_withStop (c : Curve α) (p : Point α) : (c.withStop p).start = c.start := by
  cases c <;> rfl

@[simp] theorem start_map (f : Point α → Point α) (c : Curve α) : (c.map f).start = f c.start := by
  cases c <;> rfl

@[simp] theorem stop_map (f : Point α → Point α) (c : Curve α) : (c.map f).stop = f c.stop := by
  cases c <;> rfl

variable [Scalar α]

instance : BEq (Curve α) where
  beq
    | .line a b, .line a' b' => a == a' && b == b'
    | .quadratic a b c, .quadratic a' b' c' => a == a' && b == b' && c == c'
    | .cubic a b c d, .cubic a' b' c' d' => a == a' && b == b' && c == c' && d == d'
    | _, _ => false

@[specialize] def pointAt (c : Curve α) (t : α) : Point α :=
  match c with
  | .line a b => a.lerp b t
  | .quadratic a b c =>
    let ab := a.lerp b t
    let bc := b.lerp c t
    ab.lerp bc t
  | .cubic a b c d =>
    let ab := a.lerp b t
    let bc := b.lerp c t
    let cd := c.lerp d t
    let abc := ab.lerp bc t
    let bcd := bc.lerp cd t
    abc.lerp bcd t

@[inline] def sampleParameter (i : Nat) : α := (i : α) / (sampleCount : α)

/-- The points that stand for the curve: both ends of a line; for a Bézier curve the points at
`i / 1000`, then the exact end. -/
@[specialize] def samples (c : Curve α) : List (Point α) :=
  match c with
  | .line a b => [a, b]
  | c => (List.range sampleCount).map (fun i => c.pointAt (sampleParameter i)) ++ [c.stop]

end Curve

end Reaming
