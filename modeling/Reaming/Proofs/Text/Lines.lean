import Mathlib.Data.List.Basic
import Reaming.Text.Lines

namespace Reaming.Text

/-- The lines of a text are its pieces between newlines. -/
theorem lines_eq_iff {text : String} {pieces : List String} : lines text = pieces ↔
    pieces ≠ [] ∧ "\n".intercalate pieces = text ∧ ∀ piece ∈ pieces, '\n' ∉ piece.toList := by
  have hjoin (ps : List String) : "\n".intercalate ps = text ↔
      ['\n'].intercalate (ps.map String.toList) = text.toList := by
    rw [← String.toList_inj, String.toList_intercalate]
    rfl
  have hlists : (lines text).map String.toList = splitAt (· == '\n') text.toList := by
    rw [lines, List.map_map]
    exact (List.map_congr_left fun cs _ => String.toList_ofList).trans (List.map_id _)
  constructor
  · rintro rfl
    refine ⟨fun hnil => splitAt_ne_nil _ _ (List.map_eq_nil_iff.mp hnil), ?_, ?_⟩
    · rw [hjoin, hlists, intercalate_splitAt]
    · intro piece hpiece hbreak
      have hmem := List.mem_map_of_mem (f := String.toList) hpiece
      rw [hlists] at hmem
      exact Bool.false_ne_true (cut_of_mem_splitAt hmem _ hbreak).symm
  · rintro ⟨ne, hjoined, unbroken⟩
    apply List.map_injective_iff.mpr fun _ _ => String.toList_inj.mp
    rw [hlists, ← (hjoin pieces).mp hjoined]
    refine splitAt_intercalate (fun hnil => ne (List.map_eq_nil_iff.mp hnil)) ?_
    exact List.forall_mem_map.mpr unbroken

/-- The white space of Unicode. -/
def whiteSpace : List Char :=
  ['\t', '\n', '\x0b', '\x0c', '\r', ' ', '\u0085', '\u00a0', '\u1680', '\u2000', '\u2001',
    '\u2002', '\u2003', '\u2004', '\u2005', '\u2006', '\u2007', '\u2008', '\u2009', '\u200a',
    '\u2028', '\u2029', '\u202f', '\u205f', '\u3000']

theorem isBlank_iff {c : Char} : isBlank c = true ↔ c ∈ whiteSpace := by
  have hcodes : whiteSpace.map Char.toNat = List.range' 9 5 ++ [32, 0x85, 0xA0, 0x1680] ++
      List.range' 0x2000 11 ++ [0x2028, 0x2029, 0x202F, 0x205F, 0x3000] := rfl
  rw [← List.mem_map_of_injective fun _ _ => Char.toNat_inj.mp, hcodes]
  simp only [isBlank, Bool.or_eq_true, Bool.and_eq_true, decide_eq_true_eq, beq_iff_eq,
    List.mem_append, List.mem_range'_1, List.mem_cons, List.not_mem_nil, or_false]
  omega

/-- A line that shows something has a character that is no white space. -/
theorem isBlankLine_eq_false_iff {line : String} :
    isBlankLine line = false ↔ ∃ c ∈ line.toList, c ∉ whiteSpace := by
  rw [isBlankLine, List.all_eq_false]
  simp only [isBlank_iff]

/-- `shown` are the lines of `text` that are not all white space. -/
def Shows (text : String) (shown : List String) : Prop :=
  ∃ pieces : List String, "\n".intercalate pieces = text ∧
    (∀ piece ∈ pieces, '\n' ∉ piece.toList) ∧
    shown = pieces.filter fun piece => piece.toList.any (· ∉ whiteSpace)

/-- What a text shows is settled by the text. -/
theorem shows_iff {text : String} {shown : List String} : Shows text shown ↔
    shown = (lines text).filter fun line => !isBlankLine line := by
  have hkept : (fun line : String => !isBlankLine line) =
      fun line => line.toList.any (· ∉ whiteSpace) := by
    funext line
    rw [Bool.eq_iff_iff, Bool.not_eq_true', isBlankLine_eq_false_iff]
    simp
  rw [hkept]
  constructor
  · rintro ⟨pieces, hjoined, unbroken, rfl⟩
    cases pieces with
    | nil =>
      obtain rfl : "" = text := hjoined
      rfl
    | cons piece pieces =>
      rw [lines_eq_iff.mpr ⟨List.cons_ne_nil _ _, hjoined, unbroken⟩]
  · rintro rfl
    obtain ⟨_, hjoined, unbroken⟩ := lines_eq_iff.mp (rfl : lines text = _)
    exact ⟨lines text, hjoined, unbroken, rfl⟩

end Reaming.Text
