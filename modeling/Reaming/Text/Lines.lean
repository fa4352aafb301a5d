namespace Reaming.Text

def isBlank (c : Char) : Bool :=
  let n := c.toNat
  (9 ≤ n && n ≤ 13) || n == 32 || n == 0x85 || n == 0xA0 || n == 0x1680 ||
    (0x2000 ≤ n && n ≤ 0x200A) || n == 0x2028 || n == 0x2029 || n == 0x202F ||
    n == 0x205F || n == 0x3000

def isBlankLine (line : String) : Bool :=
  line.toList.all isBlank

/-- Splits at every character that satisfies `cut`; `n` cuts leave `n + 1` pieces. -/
def splitAt (cut : Char → Bool) : List Char → List (List Char)
  | [] => [[]]
  | c :: cs =>
    if cut c then [] :: splitAt cut cs
    else match splitAt cut cs with
      | [] => [[c]]
      | piece :: pieces => (c :: piece) :: pieces

theorem splitAt_ne_nil (cut : Char → Bool) (cs : List Char) : splitAt cut cs ≠ [] := by
  cases cs with
  | nil => simp [splitAt]
  | cons c cs =>
    simp only [splitAt]
    split
    · simp
    · split <;> simp

theorem splitAt_append {cut : Char → Bool} {word : List Char}
    (h : ∀ c ∈ word, cut c = false) {c : Char} (hc : cut c = true) (rest : List Char) :
    splitAt cut (word ++ c :: rest) = word :: splitAt cut rest := by
  induction word with
  | nil => simp [splitAt, hc]
  | cons d ds ih =>
    rw [List.cons_append, splitAt, h d List.mem_cons_self,
      ih fun e he => h e (List.mem_cons_of_mem d he)]
    rfl

theorem splitAt_word {cut : Char → Bool} {word : List Char} (h : ∀ c ∈ word, cut c = false) :
    splitAt cut word = [word] := by
  induction word with
  | nil => rfl
  | cons d ds ih =>
    rw [splitAt, h d List.mem_cons_self, ih fun e he => h e (List.mem_cons_of_mem d he)]
    rfl

theorem cut_of_mem_splitAt {cut : Char → Bool} {cs piece : List Char}
    (h : piece ∈ splitAt cut cs) : ∀ c ∈ piece, cut c = false := by
  induction cs generalizing piece with
  | nil =>
    rw [splitAt, List.mem_singleton] at h
    subst h
    exact List.forall_mem_nil _
  | cons c cs ih =>
    rw [splitAt] at h
    split at h
    · rcases List.mem_cons.mp h with rfl | h
      · exact List.forall_mem_nil _
      · exact ih h
    · rename_i hc
      split at h
      · rename_i hnil
        exact absurd hnil (splitAt_ne_nil cut cs)
      · rename_i first rest hsplit
        rw [hsplit] at ih
        rcases List.mem_cons.mp h with rfl | h
        · exact List.forall_mem_cons.mpr ⟨Bool.not_eq_true _ ▸ hc, ih List.mem_cons_self⟩
        · exact ih (List.mem_cons_of_mem first h)

theorem intercalate_splitAt (c : Char) (cs : List Char) :
    [c].intercalate (splitAt (· == c) cs) = cs := by
  induction cs with
  | nil => rfl
  | cons d ds ih =>
    rw [splitAt]
    cases hsplit : splitAt (· == c) ds with
    | nil => exact absurd hsplit (splitAt_ne_nil _ ds)
    | cons piece pieces =>
      rw [hsplit] at ih
      split
      · rename_i hd
        obtain rfl := beq_iff_eq.mp hd
        rw [List.intercalate_cons_cons, ih]
        rfl
      · cases pieces with
        | nil => exact congrArg (d :: ·) ih
        | cons next pieces =>
          rw [List.intercalate_cons_cons] at ih ⊢
          exact congrArg (d :: ·) ih

theorem splitAt_intercalate {c : Char} {pieces : List (List Char)} (ne : pieces ≠ [])
    (unbroken : ∀ piece ∈ pieces, c ∉ piece) :
    splitAt (· == c) ([c].intercalate pieces) = pieces := by
  induction pieces with
  | nil => exact absurd rfl ne
  | cons piece pieces ih =>
    obtain ⟨hpiece, hpieces⟩ := List.forall_mem_cons.mp unbroken
    have huncut : ∀ d ∈ piece, (d == c) = false := by
      intro d hd
      rw [beq_eq_false_iff_ne]
      rintro rfl
      exact hpiece hd
    cases pieces with
    | nil => rw [List.intercalate_singleton, splitAt_word huncut]
    | cons next pieces =>
      rw [List.intercalate_cons_cons, List.append_assoc, List.singleton_append,
        splitAt_append huncut (beq_self_eq_true c), ih (List.cons_ne_nil _ _) hpieces]

/-- The lines of a text, one more than it has newlines. -/
def lines (text : String) : List String :=
  (splitAt (· == '\n') text.toList).map String.ofList

end Reaming.Text
