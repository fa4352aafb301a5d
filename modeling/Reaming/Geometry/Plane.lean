import Reaming.Scalar

namespace Reaming

structure Point (α : Type) where
  x : α
  y : α
  deriving DecidableEq, Repr

namespace Point

variable {α : Type} [Scalar α]

instance : BEq (Point α) where
  beq p q := p.x == q.x && p.y == q.y

def origin : Point α := ⟨0.0, 0.0⟩

@[inline] def add (p q : Point α) : Point α := ⟨p.x + q.x, p.y + q.y⟩

@[inline] def sub (p q : Point α) : Point α := ⟨p.x - q.x, p.y - q.y⟩

@[inline] def scale (k : α) (p : Point α) : Point α := ⟨p.x * k, p.y * k⟩

instance : Add (Point α) := ⟨add⟩

instance : Sub (Point α) := ⟨sub⟩

@[inline] def lerp (p q : Point α) (t : α) : Point α :=
  ⟨p.x + (q.x - p.x) * t, p.y + (q.y - p.y) * t⟩

def reflect (p center : Point α) : Point α := center + center - p

@[inline] def distance (p q : Point α) : α :=
  Scalar.sqrt ((p.x - q.x) * (p.x - q.x) + (p.y - q.y) * (p.y - q.y))

end Point

structure Bounds (α : Type) where
  x0 : α
  y0 : α
  x1 : α
  y1 : α
  deriving DecidableEq, Repr

namespace Bounds

variable {α : Type} [Scalar α]

instance : BEq (Bounds α) where
  beq a b := a.x0 == b.x0 && a.y0 == b.y0 && a.x1 == b.x1 && a.y1 == b.y1

def zero : Bounds α := ⟨0.0, 0.0, 0.0, 0.0⟩

def ofPoint (p : Point α) : Bounds α := ⟨p.x, p.y, p.x, p.y⟩

@[inline] def extend (b : Bounds α) (p : Point α) : Bounds α :=
  ⟨Scalar.min b.x0 p.x, Scalar.min b.y0 p.y, Scalar.max b.x1 p.x, Scalar.max b.y1 p.y⟩

def union (a b : Bounds α) : Bounds α :=
  ⟨Scalar.min a.x0 b.x0, Scalar.min a.y0 b.y0, Scalar.max a.x1 b.x1, Scalar.max a.y1 b.y1⟩

@[specialize] def ofPoints : List (Point α) → Bounds α
  | [] => zero
  | p :: ps => ps.foldl extend (ofPoint p)

def unions : List (Bounds α) → Bounds α
  | [] => zero
  | b :: bs => bs.foldl union b

def width (b : Bounds α) : α := b.x1 - b.x0

def height (b : Bounds α) : α := b.y1 - b.y0

def area (b : Bounds α) : α := b.width * b.height

/-- No side of `inner` lies outside `outer`; equal boxes enclose each other. -/
def encloses (outer inner : Bounds α) : Bool :=
  decide (outer.x0 ≤ inner.x0) && decide (outer.y0 ≤ inner.y0) &&
    decide (inner.x1 ≤ outer.x1) && decide (inner.y1 ≤ outer.y1)

end Bounds

end Reaming
