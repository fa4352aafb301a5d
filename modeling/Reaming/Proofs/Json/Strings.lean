import Reaming.Json.Printer
import Reaming.Json.Reader

namespace Reaming.Json

theorem hexValue?_hexDigit {n : Nat} (h : n < 16) : hexValue? (hexDigit n) = some n := by
  have hall : ∀ n < 16, hexValue? (hexDigit n) = some n := by decide
  exact hall n h

def withCode (code : Nat) (read : Option (List Nat × List Char)) : Option (List Nat × List Char) :=
  read.map fun (codes, rest) => (code :: codes, rest)

theorem stringCodes?_plain {c : Char} (cs : List Char) (quote : c ≠ '"') (slash : c ≠ '\\')
    (control : ¬c.toNat < 32) : stringCodes? (c :: cs) = withCode c.toNat (stringCodes? cs) := by
  rw [stringCodes?.eq_def]
  split
  · rename_i h
    cases h
  · rename_i h
    exact absurd (List.cons.inj h).1 quote
  · rename_i h
    exact absurd (List.cons.inj h).1 slash
  · rename_i h
    exact absurd (List.cons.inj h).1 slash
  · rename_i h
    obtain ⟨rfl, rfl⟩ := List.cons.inj h
    rw [if_neg (not_or.mpr ⟨control, slash⟩)]
    rfl

theorem stringCodes?_short {e : Char} {code : Nat} (cs : List Char) (short : e ≠ 'u')
    (known : escapeCode? e = some code) :
    stringCodes? ('\\' :: e :: cs) = withCode code (stringCodes? cs) := by
  rw [stringCodes?.eq_def]
  split
  · rename_i h
    cases h
  · rename_i h
    cases h
  · rename_i h
    cases h
    exact absurd rfl short
  · rename_i h
    cases h
    rw [known]
    cases stringCodes? cs <;> rfl
  · rename_i _ notEscape h
    cases h
    exact absurd rfl (notEscape _ _ rfl)

theorem stringCodes?_hex {a b : Nat} (cs : List Char) (ha : a < 16) (hb : b < 16) :
    stringCodes? ('\\' :: 'u' :: '0' :: '0' :: hexDigit a :: hexDigit b :: cs) =
      withCode (a * 16 + b) (stringCodes? cs) := by
  rw [stringCodes?, hexValue?_hexDigit ha, hexValue?_hexDigit hb]
  cases stringCodes? cs with
  | none => rfl
  | some read => exact congrArg (fun n => some (n :: _, _)) (by omega)

/-- What is written for a character: a short escape, its code, or the character itself. -/
theorem escapeChar_cases (c : Char) :
    (∃ e, e ≠ 'u' ∧ escapeCode? e = some c.toNat ∧ escapeChar c = ['\\', e]) ∨
    (c.toNat < 32 ∧
      escapeChar c = ['\\', 'u', '0', '0', hexDigit (c.toNat / 16), hexDigit (c.toNat % 16)]) ∨
    (c ≠ '"' ∧ c ≠ '\\' ∧ ¬c.toNat < 32 ∧ escapeChar c = [c]) := by
  rw [escapeChar]
  iterate 7
    split
    · rename_i h
      exact .inl ⟨_, by decide, by rw [h]; rfl, rfl⟩
  split
  · rename_i hcontrol
    exact .inr (.inl ⟨hcontrol, rfl⟩)
  · rename_i hquote hslash _ _ _ _ _ hcontrol
    exact .inr (.inr ⟨hquote, hslash, hcontrol, rfl⟩)

/-- An escaped character reads back as its code. -/
theorem stringCodes?_escapeChar (c : Char) (cs : List Char) :
    stringCodes? (escapeChar c ++ cs) = withCode c.toNat (stringCodes? cs) := by
  rcases escapeChar_cases c with ⟨e, short, known, h⟩ | ⟨control, h⟩ | ⟨quote, slash, control, h⟩
  · rw [h]
    exact stringCodes?_short cs short known
  · have hread := stringCodes?_hex (a := c.toNat / 16) (b := c.toNat % 16) cs (by omega) (by omega)
    rw [Nat.div_add_mod'] at hread
    rw [h]
    exact hread
  · rw [h]
    exact stringCodes?_plain cs quote slash control

theorem stringCodes?_text (s rest : List Char) :
    stringCodes? (s.flatMap escapeChar ++ '"' :: rest) = some (s.map Char.toNat, rest) := by
  induction s with
  | nil => simp [stringCodes?]
  | cons c cs ih =>
    rw [List.flatMap_cons, List.append_assoc, stringCodes?_escapeChar, ih]
    rfl

theorem isHalf_toNat (c : Char) : isHighHalf c.toNat = false ∧ isLowHalf c.toNat = false := by
  have hvalid : c.toNat < 0xD800 ∨ (0xDFFF < c.toNat ∧ c.toNat < 0x110000) := c.valid
  simp only [isHighHalf, isLowHalf, Bool.and_eq_false_iff, decide_eq_false_iff_not]
  omega

/-- A character is never half of a pair. -/
theorem charsOfCodes?_toNat (s : List Char) : charsOfCodes? (s.map Char.toNat) = some s := by
  induction s with
  | nil => rfl
  | cons c cs ih =>
    obtain ⟨hhigh, hlow⟩ := isHalf_toNat c
    cases cs with
    | nil => simp [charsOfCodes?, hhigh, hlow, Char.ofNat_toNat]
    | cons d ds =>
      rw [List.map_cons, List.map_cons, charsOfCodes?, hhigh, hlow, ← List.map_cons, ih]
      simp [Char.ofNat_toNat]

/-- Every string reads back as it was written, whatever is in it. -/
theorem readString?_text (s : String) (rest : List Char) :
    readString? (s.toList.flatMap escapeChar ++ '"' :: rest) = some (some s, rest) := by
  rw [readString?, stringCodes?_text, Option.map_some]
  dsimp only
  rw [charsOfCodes?_toNat, Option.map_some, String.ofList_toList]

end Reaming.Json
