import Reaming.Area.Forest

namespace Reaming

variable {α : Type}

def others (this : Placed α) (figures : List (Placed α)) : Nat :=
  figures.countP fun f => f.index != this.index

theorem others_le_length (this : Placed α) (figures : List (Placed α)) :
    others this figures ≤ figures.length :=
  List.countP_le_length

variable [Scalar α]

/-- The figures met so far that lie inside `this`, once `f` is met. -/
def insideSoFar (this f : Placed α) (inside : List (Placed α)) : List (Placed α) :=
  if this.figure.bounds.encloses f.figure.bounds then inside ++ [f] else inside

theorem others_insideSoFar (this f : Placed α) (inside : List (Placed α)) :
    others f (insideSoFar this f inside) ≤ inside.length := by
  unfold insideSoFar
  split
  · simpa [others, List.countP_append] using others_le_length f inside
  · exact others_le_length f inside

theorem length_insideSoFar (this f : Placed α) (inside : List (Placed α)) :
    (insideSoFar this f inside).length ≤ inside.length + 1 := by
  unfold insideSoFar
  split <;> simp

mutual

/-- The area of `this` less the net area of every other closed figure. The figures inside `this`
that have been met so far are handed down. Each step down leaves fewer figures that are other than
the one being measured. -/
def netArea (this : Placed α) (figures : List (Placed α)) : α :=
  subtractNet this this.figure.area [] figures
termination_by (others this figures, figures.length + 1)

def subtractNet (this : Placed α) (area : α) (inside : List (Placed α)) :
    List (Placed α) → α
  | [] => area
  | f :: figures =>
    if f.index == this.index || !f.figure.closed then subtractNet this area inside figures
    else
      subtractNet this (area - netArea f (insideSoFar this f inside))
        (insideSoFar this f inside) figures
termination_by figures => (inside.length + others this figures, figures.length)
decreasing_by
  · simp_wf
    simp only [others, List.countP_cons]
    split <;> simp_all [Prod.lex_def]
  · simp_wf
    left
    have := others_insideSoFar this f inside
    simp_all [others]
    omega
  · simp_wf
    have := length_insideSoFar this f inside
    simp_all [others, Prod.lex_def]
    omega

end

/-- The closed figure with the greatest bounds; the earliest of equally great ones. -/
def largest? (all : List (Placed α)) : Option (Placed α) :=
  (all.filter (·.figure.closed)).foldl
    (fun best f => match best with
      | some b => if b.figure.bounds.area < f.figure.bounds.area then some f else some b
      | none => some f)
    none

def largestMinusOthers (figures : List (Figure α)) : α :=
  let all := placed figures
  match largest? all with
  | some main => netArea main all
  | none => 0.0

inductive AreaPolicy where
  /-- The path with the largest bounds is the outline, and all others are taken off it. -/
  | largestMinusOthers
  /-- Outlines count, their holes are taken off, islands in the holes count again. -/
  | containmentForest
  deriving DecidableEq, Repr

instance : Inhabited AreaPolicy := ⟨.containmentForest⟩

def composeFigures (figures : List (Figure α)) : AreaPolicy → α
  | .largestMinusOthers => largestMinusOthers figures
  | .containmentForest => Scalar.sum ((Forest.build figures).regions.map (Region.area figures))

def composeArea (paths : List (Path α)) (policy : AreaPolicy) : α :=
  composeFigures (paths.map Path.figure) policy

end Reaming
