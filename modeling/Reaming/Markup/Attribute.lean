import Reaming.Markup.Element
import Reaming.Markup.Entity

namespace Reaming.Markup

inductive AttributeStep where
  | ended
  | broken
  | found (key value rest : Bytes)

def quoted? : Bytes → Option (Bytes × Bytes)
  | [] => none
  | q :: bs =>
    if (q == byte '"' || q == byte '\'') && bs.contains q then some (upTo q bs) else none

theorem length_lt_of_quoted? {text value rest : Bytes} (h : quoted? text = some (value, rest)) :
    rest.length < text.length := by
  cases text with
  | nil => simp [quoted?] at h
  | cons q bs =>
    simp only [quoted?] at h
    split at h
    · have bound := length_upTo_le q bs
      rw [Option.some.inj h] at bound
      simp only [List.length_cons] at bound ⊢
      omega
    · simp at h

def isKeyByte (b : UInt8) : Bool := b != byte '=' && !isSpace b

/-- Reads one attribute: a key, an equals sign and a quoted value, with blanks anywhere between
them. The first byte belongs to the key whatever it is. -/
def AttributeStep.of (text : Bytes) : AttributeStep :=
  match text.dropWhile isSpace with
  | [] => .ended
  | first :: more =>
    match (more.dropWhile isKeyByte).dropWhile isSpace with
    | [] => .broken
    | b :: behind =>
      if b == byte '=' then
        match quoted? (behind.dropWhile isSpace) with
        | none => .broken
        | some (value, rest) => .found (first :: more.takeWhile isKeyByte) value rest
      else .broken

theorem length_lt_of_found {text key value rest : Bytes}
    (h : AttributeStep.of text = .found key value rest) : rest.length < text.length := by
  unfold AttributeStep.of at h
  split at h
  · simp at h
  · next first more whole =>
    have outer := length_dropWhile_le isSpace text
    rw [whole] at outer
    split at h
    · simp at h
    · next b behind tail =>
      have key := length_dropWhile_le isKeyByte more
      have gap := length_dropWhile_le isSpace (more.dropWhile isKeyByte)
      rw [tail] at gap
      split at h
      · split at h
        · simp at h
        · next hq =>
          have lt := length_lt_of_quoted? hq
          have le := length_dropWhile_le isSpace behind
          injection h with _ _ hr
          subst hr
          simp only [List.length_cons] at outer gap
          omega
      · simp at h

/-- Looks for the value of an attribute by its local name. The list is only read as far as that
attribute; up to there it has to be in order, without a key given twice. -/
def findAttribute? (name : Bytes) (seen : List Bytes) (text : Bytes) : Option (Option Bytes) :=
  match _h : AttributeStep.of text with
  | .ended => some none
  | .broken => none
  | .found key value rest =>
    if seen.contains key then none
    else if localName key == name then some (some value)
    else findAttribute? name (key :: seen) rest
termination_by text.length
decreasing_by exact length_lt_of_found _h

def valueText? (value : Bytes) : Option String := do
  let text ← String.fromUTF8? ⟨value.toArray⟩
  return String.ofList (← unescape? text.toList)

/-- The text of an attribute, if the element has it; nothing if its attributes are broken. -/
def Element.attribute? (e : Element) (name : String) : Option (Option String) := do
  match ← findAttribute? (bytes name) [] e.attributes with
  | none => return none
  | some value => return some (← valueText? value)

end Reaming.Markup
