import Mathlib.Data.List.Forall2
import Reaming.PathData.Printer
import Reaming.PathData.Token
import Reaming.Proofs.Decimal.Reread

namespace Reaming

def Point.Finite (p : Point Float) : Prop :=
  (Decimal.value? p.x).isSome = true ∧ (Decimal.value? p.y).isSome = true

instance (p : Point Float) : Decidable p.Finite :=
  inferInstanceAs (Decidable (_ ∧ _))

namespace PathData
open Decimal

def isPlain (c : Char) : Bool :=
  (Command.ofLetter? c).isNone && !isSeparator c && !isSign c

theorem isPlain_of_isDigit {c : Char} (h : c.isDigit = true) : isPlain c = true := by
  have hall : ∀ n < 58, 48 ≤ n → isPlain (Char.ofNat n) = true := by decide
  have hrange : 48 ≤ c.toNat ∧ c.toNat ≤ 57 := by
    simpa [Char.isDigit, UInt32.le_iff_toNat_le] using h
  have hc := hall c.toNat (by omega) hrange.1
  rwa [Char.ofNat_toNat] at hc

theorem scan_plain (pending : List Char) {cs : List Char} (h : ∀ c ∈ cs, isPlain c = true)
    (rest : List Char) : scan pending (cs ++ rest) = scan (cs.reverse ++ pending) rest := by
  induction cs generalizing pending with
  | nil => rfl
  | cons c cs ih =>
    have hc := h c List.mem_cons_self
    simp only [isPlain, Bool.and_eq_true, Option.isNone_iff_eq_none, Bool.not_eq_true'] at hc
    obtain ⟨⟨hletter, hseparator⟩, hsign⟩ := hc
    have hstarts : startsNumber pending c = false := by simp [startsNumber, hsign]
    rw [List.cons_append, scan, hletter]
    dsimp only
    rw [hseparator, hstarts, if_neg Bool.false_ne_true, if_neg Bool.false_ne_true,
      ih (c :: pending) fun d hd => h d (List.mem_cons_of_mem c hd), List.reverse_cons,
      List.append_assoc]
    rfl

/-- A word that the tokenizer takes for one token when a blank or the end comes after it. -/
structure Lexes (word : List Char) (t : Token) : Prop where
  last : scan [] word = [t]
  next : ∀ rest, scan [] (word ++ ' ' :: rest) = t :: scan [] rest

theorem lexes_command (c : Command) : Lexes [c.letter] (.command c) := by
  constructor
  · rw [scan, ofLetter?_letter]
    rfl
  · intro rest
    rw [List.singleton_append, scan, ofLetter?_letter]
    rfl

theorem lexes_number (sign body : List Char) (hsign : sign = [] ∨ sign = ['-'])
    (plain : ∀ c ∈ body, isPlain c = true) (ne : body ≠ []) :
    Lexes (sign ++ body) (.number (sign ++ body)) := by
  have hscan (rest : List Char) :
      scan [] ((sign ++ body) ++ rest) = scan (sign ++ body).reverse rest := by
    rw [List.reverse_append, List.append_assoc, ← scan_plain sign.reverse plain]
    rcases hsign with rfl | rfl <;> rfl
  have hflush : flush (sign ++ body).reverse = [.number (sign ++ body)] := by
    rw [flush, List.reverse_reverse, if_neg]
    simp [ne]
  constructor
  · have h := hscan []
    rw [List.append_nil] at h
    rw [h, scan, hflush]
  · intro rest
    have hblank : scan (sign ++ body).reverse (' ' :: rest) =
        flush (sign ++ body).reverse ++ scan [] rest := rfl
    rw [hscan, hblank, hflush]
    rfl

/-- Words with blanks between them are read one by one. -/
theorem tokens_words {words : List (List Char)} {ts : List Token}
    (h : List.Forall₂ Lexes words ts) : tokens ([' '].intercalate words) = ts := by
  induction h with
  | nil => rfl
  | cons hw hws ih =>
    cases hws with
    | nil =>
      rw [List.intercalate_singleton]
      exact hw.last
    | cons hw' hws =>
      rw [List.intercalate_cons_cons, List.append_assoc]
      exact (hw.next _).trans (congrArg _ ih)

theorem lexes_whole (count : Int) :
    Lexes (Thousandths.whole count).text.toList
      (.number (Thousandths.whole count).text.toList) := by
  have hplain (n : Nat) : ∀ c ∈ wholeDigits n ++ '.' :: lastDigits n, isPlain c = true := by
    intro c hc
    rcases List.mem_append.mp hc with hc | hc
    · exact isPlain_of_isDigit (isDigit_of_mem_wholeDigits hc)
    · rcases List.mem_cons.mp hc with rfl | hc
      · decide
      · exact isPlain_of_isDigit (isDigit_of_mem_lastDigits hc)
  rw [text_whole]
  split
  · exact lexes_number ['-'] _ (.inr rfl) (hplain _) (by simp)
  · exact lexes_number [] _ (.inl rfl) (hplain _) (by simp)

theorem lexes_fixed3 {x : Float} (h : (value? x).isSome = true) :
    Lexes (fixed3 x).toList (.number (fixed3 x).toList) := by
  obtain ⟨v, hv⟩ := Option.isSome_iff_exists.mp h
  obtain ⟨negative, units, hs, _⟩ := value?_cases hv
  rw [fixed3, Thousandths.ofFloat, hs, ofShape_finite]
  exact lexes_whole _

def pointTokens (p : Point Float) : List Token :=
  [.number (fixed3 p.x).toList, .number (fixed3 p.y).toList]

theorem lexes_points {ps : List (Point Float)} (h : ∀ p ∈ ps, p.Finite) :
    List.Forall₂ Lexes ((ps.flatMap pointWords).map String.toList) (ps.flatMap pointTokens) := by
  induction ps with
  | nil => exact .nil
  | cons p ps ih =>
    obtain ⟨hx, hy⟩ := h p List.mem_cons_self
    exact .cons (lexes_fixed3 hx) (.cons (lexes_fixed3 hy)
      (ih fun q hq => h q (List.mem_cons_of_mem p hq)))

section stroke

variable {α : Type}

def strokeCommand : Stroke α → Command
  | .moveTo _ => ⟨.moveTo, false⟩
  | .lineTo _ => ⟨.lineTo, false⟩
  | .quadraticTo .. => ⟨.quadraticTo, false⟩
  | .cubicTo .. => ⟨.cubicTo, false⟩
  | .close => ⟨.closePath, false⟩

def strokePoints : Stroke α → List (Point α)
  | .moveTo p | .lineTo p => [p]
  | .quadraticTo a p => [a, p]
  | .cubicTo a b p => [a, b, p]
  | .close => []

end stroke

def strokeTokens (s : Stroke Float) : List Token :=
  .command (strokeCommand s) :: (strokePoints s).flatMap pointTokens

theorem lexes_stroke {s : Stroke Float} (h : ∀ p ∈ strokePoints s, p.Finite) :
    List.Forall₂ Lexes ((strokeWords s).map String.toList) (strokeTokens s) := by
  have hwords : (strokeWords s).map String.toList =
      [(strokeCommand s).letter] :: ((strokePoints s).flatMap pointWords).map String.toList := by
    cases s <;> rfl
  rw [hwords]
  exact .cons (lexes_command _) (lexes_points h)

theorem lexes_strokes {ss : List (Stroke Float)}
    (h : ∀ s ∈ ss, ∀ p ∈ strokePoints s, p.Finite) :
    List.Forall₂ Lexes ((ss.flatMap strokeWords).map String.toList) (ss.flatMap strokeTokens) := by
  induction ss with
  | nil => exact .nil
  | cons s ss ih =>
    rw [List.flatMap_cons, List.flatMap_cons, List.map_append]
    exact List.rel_append (lexes_stroke (h s List.mem_cons_self))
      (ih fun t ht => h t (List.mem_cons_of_mem s ht))

/-- The tokens of a printed path are those of its strokes. -/
theorem tokens_write {p : Path Float} (ne : p.segments ≠ [])
    (h : ∀ s ∈ p.strokes, ∀ q ∈ strokePoints s, q.Finite) :
    tokens (write p).toList = p.strokes.flatMap strokeTokens := by
  have hne : p.isEmpty = false := by simp [Path.isEmpty, ne]
  rw [write, String.toList_intercalate, pathWords, hne, if_neg Bool.false_ne_true]
  exact tokens_words (lexes_strokes h)

end PathData

end Reaming
