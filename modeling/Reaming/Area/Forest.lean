import Reaming.Geometry.Path

namespace Reaming

structure Figure (α : Type) where
  bounds : Bounds α
  area : α
  closed : Bool
  deriving Repr

def Path.figure {α : Type} [Scalar α] (p : Path α) : Figure α :=
  let p := p.sampled
  ⟨p.bounds, p.area, p.closed⟩

/-- A figure with its place in drawing order. -/
structure Placed (α : Type) where
  index : Nat
  figure : Figure α
  deriving Repr

def placed {α : Type} (figures : List (Figure α)) : List (Placed α) :=
  figures.zipIdx.map fun (f, i) => ⟨i, f⟩

/-- The nesting of closed figures: each may have a parent that encloses it. Open figures take no
part. -/
structure Forest where
  /-- For each figure whether it is closed, and its parent. -/
  nodes : List (Bool × Option Nat)
  deriving DecidableEq, Repr

namespace Forest

section build

variable {α : Type} [Scalar α]

/-- Whether `outer` may be the parent of `inner`. Of figures with equal bounds only an earlier one
holds a later one. -/
def holds (outer inner : Placed α) : Bool :=
  outer.index != inner.index && outer.figure.closed &&
    outer.figure.bounds.encloses inner.figure.bounds &&
    !(outer.figure.bounds == inner.figure.bounds && decide (inner.index < outer.index))

/-- Keeps the candidate with the smaller bounds; otherwise the later one wins. -/
def closer (best : Option (Placed α)) (next : Placed α) : Option (Placed α) :=
  match best with
  | some b => if b.figure.bounds.area < next.figure.bounds.area then some b else some next
  | none => some next

def chooseParent (all : List (Placed α)) (inner : Placed α) : Option Nat :=
  if inner.figure.closed then
    ((all.filter (holds · inner)).foldl closer none).map Placed.index
  else none

/-- Nests each closed figure in the smallest closed one that encloses it. -/
def build (figures : List (Figure α)) : Forest :=
  let all := placed figures
  ⟨all.map fun p => (p.figure.closed, chooseParent all p)⟩

end build

def size (f : Forest) : Nat := f.nodes.length

def isClosed (f : Forest) (i : Nat) : Bool := (f.nodes[i]?.map Prod.fst).getD false

def parent? (f : Forest) (i : Nat) : Option Nat := f.nodes[i]?.bind Prod.snd

def ancestorsWithin (f : Forest) : Nat → Nat → List Nat
  | 0, _ => []
  | steps + 1, i =>
    match f.parent? i with
    | none => []
    | some p => p :: f.ancestorsWithin steps p

/-- All enclosing figures. No figure has more of them than there are figures. -/
def ancestors (f : Forest) (i : Nat) : List Nat := f.ancestorsWithin f.size i

def depth (f : Forest) (i : Nat) : Nat := (f.ancestors i).length

def roots (f : Forest) : List Nat :=
  (List.range f.size).filter fun i => f.isClosed i && (f.parent? i).isNone

def children (f : Forest) (i : Nat) : List Nat :=
  (List.range f.size).filter fun j => f.parent? j == some i

end Forest

structure Region where
  outer : Nat
  holes : List Nat
  deriving DecidableEq, Repr

/-- A region for each closed figure of even depth, with its children as holes. -/
def Forest.regions (f : Forest) : List Region :=
  ((List.range f.size).filter fun i => f.isClosed i && f.depth i % 2 == 0).map fun i =>
    ⟨i, f.children i⟩

section area

variable {α : Type} [Scalar α]

def areaAt (figures : List (Figure α)) (i : Nat) : α :=
  (figures[i]?.map Figure.area).getD 0.0

def Region.area (figures : List (Figure α)) (r : Region) : α :=
  areaAt figures r.outer - Scalar.sum (r.holes.map (areaAt figures))

end area

end Reaming
