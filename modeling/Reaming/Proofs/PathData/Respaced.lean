import Reaming.PathData.Reader

namespace Reaming.PathData

def Token.text : Token → List Char
  | .command c => [c.letter]
  | .number text => text

theorem isSeparator_letter (c : Command) : isSeparator c.letter = false := by
  obtain ⟨v, r⟩ := c
  cases v <;> cases r <;> decide

theorem text_flush (pending : List Char) : (flush pending).flatMap Token.text = pending.reverse := by
  cases pending with
  | nil => rfl
  | cons c cs => exact List.append_nil _

/-- Nothing but separators is lost between the tokens, and nothing is added. -/
theorem text_scan (pending cs : List Char) :
    (scan pending cs).flatMap Token.text = pending.reverse ++ cs.filter (!isSeparator ·) := by
  induction cs generalizing pending with
  | nil => rw [scan, text_flush, List.filter_nil, List.append_nil]
  | cons c cs ih =>
    have hkept (h : isSeparator c = false) :
        (c :: cs).filter (!isSeparator ·) = c :: cs.filter (!isSeparator ·) :=
      List.filter_cons_of_pos (by simp [h])
    rw [scan]
    split
    · rename_i k hk
      have hletter := letter_of_ofLetter? hk
      have hseparator : isSeparator c = false := by rw [← hletter, isSeparator_letter]
      rw [List.flatMap_append, text_flush, List.flatMap_cons, ih, hkept hseparator, Token.text,
        hletter]
      rfl
    · split
      · rename_i hseparator
        have hlost : (c :: cs).filter (!isSeparator ·) = cs.filter (!isSeparator ·) :=
          List.filter_cons_of_neg (by simp [hseparator])
        rw [List.flatMap_append, text_flush, ih, hlost]
        rfl
      · rename_i hseparator
        rw [hkept (Bool.eq_false_iff.mpr hseparator)]
        split
        · rw [List.flatMap_append, text_flush, ih]
          rfl
        · rw [ih, List.reverse_cons, List.append_assoc]
          rfl

/-- The character goes on the number that has been collected, from the last to the first. -/
structure Continues (pending : List Char) (c : Char) : Prop where
  letter : Command.ofLetter? c = none
  separator : isSeparator c = false
  sign : startsNumber pending c = false

def Unbroken : List Char → Prop
  | [] => True
  | c :: pending => Continues pending c ∧ Unbroken pending

theorem unbroken_nil : Unbroken [] := trivial

theorem Unbroken.suffix {front pending : List Char} (h : Unbroken (front ++ pending)) :
    Unbroken pending := by
  induction front with
  | nil => exact h
  | cons c front ih => exact ih h.2

theorem Unbroken.of_mem_flush {pending number : List Char} (h : Unbroken pending)
    (mem : .number number ∈ flush pending) : number ≠ [] ∧ Unbroken number.reverse := by
  cases pending with
  | nil => cases mem
  | cons c cs =>
    obtain rfl := Token.number.inj (List.mem_singleton.mp mem)
    rw [List.reverse_reverse]
    exact ⟨by simp, h⟩

/-- What is collected stays in one piece until it is a token. -/
theorem Unbroken.of_mem_scan {pending cs number : List Char} (h : Unbroken pending)
    (mem : .number number ∈ scan pending cs) : number ≠ [] ∧ Unbroken number.reverse := by
  induction cs generalizing pending with
  | nil => exact h.of_mem_flush mem
  | cons c cs ih =>
    rw [scan] at mem
    split at mem
    · rcases List.mem_append.mp mem with mem | mem
      · exact h.of_mem_flush mem
      · rcases List.mem_cons.mp mem with mem | mem
        · cases mem
        · exact ih unbroken_nil mem
    · rename_i hletter
      split at mem
      · rcases List.mem_append.mp mem with mem | mem
        · exact h.of_mem_flush mem
        · exact ih unbroken_nil mem
      · rename_i hseparator
        have hseparator := Bool.eq_false_iff.mpr hseparator
        split at mem
        · rcases List.mem_append.mp mem with mem | mem
          · exact h.of_mem_flush mem
          · have hfirst : startsNumber [] c = false := Bool.and_false _
            have hone : Unbroken [c] := ⟨⟨hletter, hseparator, hfirst⟩, trivial⟩
            exact ih hone mem
        · rename_i hsign
          have hmore : Unbroken (c :: pending) :=
            ⟨⟨hletter, hseparator, Bool.eq_false_iff.mpr hsign⟩, h⟩
          exact ih hmore mem

theorem Unbroken.continues {number before after : List Char} {c : Char}
    (h : Unbroken number.reverse) (split : number = before ++ c :: after) :
    Continues before.reverse c := by
  have hreverse : number.reverse = after.reverse ++ c :: before.reverse := by
    rw [split, List.reverse_append, List.reverse_cons, List.append_assoc]
    rfl
  rw [hreverse] at h
  exact h.suffix.1

theorem scan_unbroken {word pending : List Char} (h : Unbroken (word.reverse ++ pending))
    (rest : List Char) : scan pending (word ++ rest) = scan (word.reverse ++ pending) rest := by
  induction word generalizing pending with
  | nil => rfl
  | cons c word ih =>
    rw [List.reverse_cons, List.append_assoc, List.singleton_append] at h ⊢
    obtain ⟨⟨hletter, hseparator, hsign⟩, _⟩ := h.suffix
    rw [List.cons_append, scan, hletter]
    dsimp only
    rw [hseparator, hsign, if_neg Bool.false_ne_true, if_neg Bool.false_ne_true]
    exact ih h

theorem scan_separator {c : Char} (h : isSeparator c = true) (pending cs : List Char) :
    scan pending (c :: cs) = flush pending ++ scan [] cs := by
  have hletter : Command.ofLetter? c = none := by
    cases hk : Command.ofLetter? c with
    | none => rfl
    | some k =>
      rw [← letter_of_ofLetter? hk, isSeparator_letter] at h
      cases h
  rw [scan, hletter]
  exact if_pos h

theorem scan_gap {gap : List Char} (h : ∀ c ∈ gap, isSeparator c = true) (cs : List Char) :
    scan [] (gap ++ cs) = scan [] cs := by
  induction gap with
  | nil => rfl
  | cons c gap ih =>
    obtain ⟨hc, hgap⟩ := List.forall_mem_cons.mp h
    rw [List.cons_append, scan_separator hc]
    exact ih hgap

/-- Tokens written one after the other, each behind what comes before it. -/
def spaced (pieces : List (List Char × Token)) (after : List Char) : List Char :=
  (pieces.flatMap fun piece => piece.1 ++ piece.2.text) ++ after

/-- Where nothing follows or a separator, a number is at its end. -/
theorem scan_spaced_next {pieces : List (List Char × Token)} {after : List Char}
    (separators : ∀ gap ∈ after :: pieces.map Prod.fst, ∀ c ∈ gap, isSeparator c = true)
    (apart : ∀ gap ∈ pieces.map Prod.fst, gap ≠ []) (pending : List Char) :
    scan pending (spaced pieces after) = flush pending ++ scan [] (spaced pieces after) := by
  have hgap {gap : List Char} (hgap : ∀ c ∈ gap, isSeparator c = true) (ne : gap ≠ [])
      (cs : List Char) : scan pending (gap ++ cs) = flush pending ++ scan [] (gap ++ cs) := by
    obtain ⟨c, gap, rfl⟩ := List.exists_cons_of_ne_nil ne
    rw [List.cons_append, scan_separator (hgap c List.mem_cons_self),
      scan_separator (hgap c List.mem_cons_self)]
    rfl
  cases pieces with
  | nil =>
    by_cases ne : after = []
    · rw [ne]
      exact (List.append_nil _).symm
    · have h := hgap (separators after List.mem_cons_self) ne []
      rwa [List.append_nil] at h
  | cons piece pieces =>
    rw [spaced, List.flatMap_cons, List.append_assoc, List.append_assoc]
    exact hgap (separators _ (List.mem_cons_of_mem _ List.mem_cons_self))
      (apart _ List.mem_cons_self) _

/-- Tokens that are set apart by separators are read one by one. -/
theorem tokens_spaced {pieces : List (List Char × Token)} {after : List Char}
    (separators : ∀ gap ∈ after :: pieces.map Prod.fst, ∀ c ∈ gap, isSeparator c = true)
    (apart : ∀ gap ∈ (pieces.map Prod.fst).tail, gap ≠ [])
    (numbers : ∀ number, .number number ∈ pieces.map Prod.snd →
      number ≠ [] ∧ Unbroken number.reverse) :
    tokens (spaced pieces after) = pieces.map Prod.snd := by
  induction pieces with
  | nil =>
    have h := scan_gap (separators after List.mem_cons_self) []
    rwa [List.append_nil] at h
  | cons piece pieces ih =>
    obtain ⟨hafter, hpieces⟩ := List.forall_mem_cons.mp separators
    obtain ⟨hgap, hpieces⟩ := List.forall_mem_cons.mp hpieces
    have hseparators := List.forall_mem_cons.mpr ⟨hafter, hpieces⟩
    have hrest : scan [] (spaced pieces after) = pieces.map Prod.snd :=
      ih hseparators (fun gap h => apart gap (List.mem_of_mem_tail h))
        fun number h => numbers number (List.mem_cons_of_mem _ h)
    obtain ⟨gap, t⟩ := piece
    have hspaced : spaced ((gap, t) :: pieces) after = gap ++ (t.text ++ spaced pieces after) := by
      rw [spaced, spaced, List.flatMap_cons, List.append_assoc, List.append_assoc]
    rw [tokens, hspaced, scan_gap hgap, List.map_cons]
    cases t with
    | command c =>
      rw [← hrest, Token.text, List.singleton_append, scan, ofLetter?_letter]
      rfl
    | number number =>
      obtain ⟨ne, hnumber⟩ := numbers number List.mem_cons_self
      rw [← List.append_nil number.reverse] at hnumber
      rw [Token.text, scan_unbroken hnumber, List.append_nil,
        scan_spaced_next hseparators apart, hrest, flush, List.reverse_reverse,
        if_neg (by simp [ne])]
      rfl

variable {α : Type} [Scalar α]

/-- The tokens of a text are its characters without the separators. A number is not empty, holds no
letter of a command and no separator, and has a sign only in front or behind an exponent marker. The
same tokens with any separators between them, and before and behind, are read as the same tokens, and
so as the same paths. -/
theorem tokens_respaced (text : String) :
    (tokens text.toList).flatMap Token.text = text.toList.filter (!isSeparator ·) ∧
      (∀ number, .number number ∈ tokens text.toList → number ≠ [] ∧
        ∀ before c after, number = before ++ c :: after →
          Command.ofLetter? c = none ∧ isSeparator c = false ∧
            (isSign c = true → before = [] ∨ ∃ marker ∈ before.getLast?, isExponentMarker marker)) ∧
      ∀ (pieces : List (List Char × Token)) (after : List Char),
        pieces.map Prod.snd = tokens text.toList →
        (∀ gap ∈ after :: pieces.map Prod.fst, ∀ c ∈ gap, isSeparator c = true) →
        (∀ gap ∈ (pieces.map Prod.fst).tail, gap ≠ []) →
          tokens (spaced pieces after) = tokens text.toList ∧
            (read (String.ofList (spaced pieces after)) : Except Error (List (Path α))) =
              read text := by
  have hnumbers (number : List Char) (mem : .number number ∈ tokens text.toList) :
      number ≠ [] ∧ Unbroken number.reverse :=
    unbroken_nil.of_mem_scan mem
  refine ⟨text_scan [] _, fun number mem => ⟨(hnumbers number mem).1, ?_⟩, ?_⟩
  · intro before c after split
    obtain ⟨hletter, hseparator, hsign⟩ := (hnumbers number mem).2.continues split
    refine ⟨hletter, hseparator, fun sign => ?_⟩
    rw [List.getLast?_eq_head?_reverse]
    cases hbefore : before.reverse with
    | nil => exact .inl (List.reverse_eq_nil_iff.mp hbefore)
    | cons marker front =>
      rw [hbefore] at hsign
      exact .inr ⟨marker, rfl, by simpa [startsNumber, sign] using hsign⟩
  · intro pieces after hpieces separators apart
    have htokens := tokens_spaced separators apart (hpieces ▸ hnumbers)
    rw [hpieces] at htokens
    refine ⟨htokens, ?_⟩
    rw [read, String.toList_ofList, htokens, read]

/-- Numbers that end at a separator, a letter, a sign and the end of the text. -/
def denseText : String := "M10,20;L-5 1e-2-3"

def densePieces : List (List Char × Token) :=
  [([' '], .command ⟨.moveTo, false⟩), (['\t'], .number "10".toList),
    ([',', ',', ' '], .number "20".toList), (['\n'], .command ⟨.lineTo, false⟩),
    (['\u2003'], .number "-5".toList), ([';'], .number "1e-2".toList),
    (['\u00a0', ','], .number "-3".toList)]

theorem tokens_respaced_dense :
    (tokens denseText.toList).flatMap Token.text = "M1020L-51e-2-3".toList ∧
      (.number "1e-2".toList ∈ tokens denseText.toList ∧
        ∃ marker ∈ "1e".toList.getLast?, isExponentMarker marker) ∧
      densePieces.map Prod.snd = tokens denseText.toList ∧
      tokens (spaced densePieces [';']) = tokens denseText.toList ∧
      (read (String.ofList (spaced densePieces [';'])) : Except Error (List (Path Float))) =
        read denseText := by
  obtain ⟨htext, hnumbers, hspaced⟩ := tokens_respaced (α := Float) denseText
  have hmem : .number "1e-2".toList ∈ tokens denseText.toList := by decide
  have hpieces : densePieces.map Prod.snd = tokens denseText.toList := by decide
  have hfiltered : denseText.toList.filter (!isSeparator ·) = "M1020L-51e-2-3".toList := by decide
  have hsign := ((hnumbers _ hmem).2 ['1', 'e'] '-' ['2'] (by decide)).2.2 (by decide)
  have hgaps : ([';'] :: densePieces.map Prod.fst).all (·.all isSeparator) = true := by decide
  simp only [List.all_eq_true] at hgaps
  refine ⟨htext.trans hfiltered, ⟨hmem, hsign.resolve_left (by decide)⟩, hpieces, ?_⟩
  exact hspaced densePieces [';'] hpieces hgaps (by decide)

end Reaming.PathData
