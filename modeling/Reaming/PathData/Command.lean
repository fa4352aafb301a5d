import Reaming.Geometry.Plane

namespace Reaming.PathData

inductive Verb where
  | moveTo
  | closePath
  | lineTo
  | horizontalTo
  | verticalTo
  | cubicTo
  | smoothCubicTo
  | quadraticTo
  | smoothQuadraticTo
  | arcTo
  deriving DecidableEq, Repr

/-- A command with its frame: a relative one counts from the pen, an absolute one from the
origin. -/
structure Command where
  verb : Verb
  relative : Bool
  deriving DecidableEq, Repr

def Verb.letter : Verb → Char
  | .moveTo => 'M'
  | .closePath => 'Z'
  | .lineTo => 'L'
  | .horizontalTo => 'H'
  | .verticalTo => 'V'
  | .cubicTo => 'C'
  | .smoothCubicTo => 'S'
  | .quadraticTo => 'Q'
  | .smoothQuadraticTo => 'T'
  | .arcTo => 'A'

/-- How many operands make one group for the verb. -/
def Verb.arity : Verb → Nat
  | .closePath => 0
  | .horizontalTo | .verticalTo => 1
  | .moveTo | .lineTo | .smoothQuadraticTo => 2
  | .smoothCubicTo | .quadraticTo => 4
  | .cubicTo => 6
  | .arcTo => 7

def verbs : List Verb :=
  [.moveTo, .closePath, .lineTo, .horizontalTo, .verticalTo, .cubicTo, .smoothCubicTo,
    .quadraticTo, .smoothQuadraticTo, .arcTo]

def Command.letter (c : Command) : Char :=
  if c.relative then c.verb.letter.toLower else c.verb.letter

/-- The command that a character stands for: upper case is absolute, lower case relative. -/
def Command.ofLetter? (c : Char) : Option Command :=
  match verbs.find? (fun v => v.letter = c) with
  | some v => some ⟨v, false⟩
  | none => (verbs.find? fun v => v.letter.toLower = c).map (⟨·, true⟩)

@[simp] theorem ofLetter?_letter (c : Command) : Command.ofLetter? c.letter = some c := by
  obtain ⟨v, r⟩ := c
  cases v <;> cases r <;> decide

theorem letter_of_ofLetter? {c : Char} {k : Command} (h : Command.ofLetter? c = some k) :
    k.letter = c := by
  unfold Command.ofLetter? at h
  split at h
  · next v hv =>
    obtain rfl := Option.some.inj h
    simpa [Command.letter] using List.find?_some hv
  · obtain ⟨v, hv, rfl⟩ := Option.map_eq_some_iff.1 h
    simpa [Command.letter] using List.find?_some hv

inductive Group (α : Type) where
  | moveTo (p : Point α)
  | lineTo (p : Point α)
  | horizontalTo (x : α)
  | verticalTo (y : α)
  | cubicTo (control₁ control₂ p : Point α)
  | smoothCubicTo (control₂ p : Point α)
  | quadraticTo (control p : Point α)
  | smoothQuadraticTo (p : Point α)
  deriving DecidableEq, Repr

def Group.of? {α : Type} : Verb → List α → Option (Group α)
  | .moveTo, [x, y] => some (.moveTo ⟨x, y⟩)
  | .lineTo, [x, y] => some (.lineTo ⟨x, y⟩)
  | .horizontalTo, [x] => some (.horizontalTo x)
  | .verticalTo, [y] => some (.verticalTo y)
  | .cubicTo, [a, b, c, d, x, y] => some (.cubicTo ⟨a, b⟩ ⟨c, d⟩ ⟨x, y⟩)
  | .smoothCubicTo, [c, d, x, y] => some (.smoothCubicTo ⟨c, d⟩ ⟨x, y⟩)
  | .quadraticTo, [a, b, x, y] => some (.quadraticTo ⟨a, b⟩ ⟨x, y⟩)
  | .smoothQuadraticTo, [x, y] => some (.smoothQuadraticTo ⟨x, y⟩)
  | _, _ => none

/-- A group is complete exactly when its verb draws and has all its operands. -/
theorem Group.of?_isSome_iff {α : Type} (v : Verb) (ops : List α) :
    (Group.of? v ops).isSome ↔ v ≠ .closePath ∧ v ≠ .arcTo ∧ ops.length = v.arity := by
  rcases ops with _ | ⟨a, _ | ⟨b, _ | ⟨c, _ | ⟨d, _ | ⟨e, _ | ⟨f, _ | ⟨g, ops⟩⟩⟩⟩⟩⟩⟩ <;>
    cases v <;> simp [Group.of?, Verb.arity]

end Reaming.PathData
