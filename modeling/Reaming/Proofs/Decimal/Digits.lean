import Reaming.Decimal.Numeral
import Reaming.Decimal.Printer

namespace Reaming.Decimal

theorem digitsValue_eq (ds : List Char) : digitsValue ds = Nat.ofDigitChars 10 ds 0 :=
  Nat.ofDigitChars_eq_foldl.symm

theorem le_ofDigitChars (n : Nat) (cs : List Char) : n ≤ Nat.ofDigitChars 10 cs n := by
  induction cs generalizing n with
  | nil => exact Nat.le_refl n
  | cons c cs ih =>
    rw [Nat.ofDigitChars_cons]
    have hrest := ih (10 * n + (c.toNat - '0'.toNat))
    omega

theorem isDigit_of_mem_threeDigits {n : Nat} (h : n < 1000) {c : Char} (hc : c ∈ threeDigits n) :
    c.isDigit = true := by
  simp only [threeDigits, List.mem_cons, List.not_mem_nil, or_false] at hc
  rcases hc with rfl | rfl | rfl
  all_goals
    rw [Nat.isDigit_digitChar]
    exact decide_eq_true (by omega)

theorem ofDigitChars_threeDigits {n : Nat} (h : n < 1000) (whole : Nat) :
    Nat.ofDigitChars 10 (threeDigits n) whole = 1000 * whole + n := by
  rw [threeDigits, Nat.ofDigitChars_cons_digitChar_of_lt_ten (by omega),
    Nat.ofDigitChars_cons_digitChar_of_lt_ten (by omega),
    Nat.ofDigitChars_cons_digitChar_of_lt_ten (by omega), Nat.ofDigitChars_nil]
  omega

def wholeDigits (n : Nat) : List Char := Nat.toDigits 10 (n / 1000)

def lastDigits (n : Nat) : List Char := threeDigits (n % 1000)

theorem isDigit_of_mem_wholeDigits {n : Nat} {c : Char} (hc : c ∈ wholeDigits n) :
    c.isDigit = true :=
  Nat.isDigit_of_mem_toDigits (by decide) (by decide) hc

theorem isDigit_of_mem_lastDigits {n : Nat} {c : Char} (hc : c ∈ lastDigits n) :
    c.isDigit = true :=
  isDigit_of_mem_threeDigits (Nat.mod_lt n (by decide)) hc

theorem digitsValue_digits (n : Nat) : digitsValue (wholeDigits n ++ lastDigits n) = n := by
  rw [digitsValue_eq, Nat.ofDigitChars_append, wholeDigits, Nat.ofDigitChars_ten_toDigits,
    lastDigits, ofDigitChars_threeDigits (Nat.mod_lt n (by decide))]
  exact Nat.div_add_mod n 1000

theorem takeWhile_digits (ds rest : List Char) (h : ∀ c ∈ ds, c.isDigit = true)
    (stop : ∀ c ∈ rest.head?, c.isDigit = false) :
    (ds ++ rest).takeWhile Char.isDigit = ds ∧ (ds ++ rest).dropWhile Char.isDigit = rest := by
  induction ds with
  | nil =>
    cases rest with
    | nil => exact ⟨rfl, rfl⟩
    | cons c rest =>
      have hc := stop c rfl
      simp [hc]
  | cons d ds ih =>
    have hd := h d List.mem_cons_self
    obtain ⟨htake, hdrop⟩ := ih fun c hc => h c (List.mem_cons_of_mem d hc)
    simp [hd, htake, hdrop]

def Numeral.ofDigits (negative : Bool) (whole fraction : List Char) : Numeral :=
  .decimal negative (digitsValue (whole ++ fraction)) (-fraction.length)

theorem decimal?_pointed (negative : Bool) {ds fs : List Char} (hds : ∀ c ∈ ds, c.isDigit = true)
    (hfs : ∀ c ∈ fs, c.isDigit = true) (ne : ¬ (ds = [] ∧ fs = [])) :
    decimal? negative (ds ++ '.' :: fs) = some (.ofDigits negative ds fs) := by
  obtain ⟨hwhole, hpoint⟩ := takeWhile_digits ds ('.' :: fs) hds (by rintro c ⟨⟩; rfl)
  obtain ⟨hlast, hrest⟩ := takeWhile_digits fs [] hfs (by rintro c ⟨⟩)
  rw [List.append_nil] at hlast hrest
  have hfraction : fractionPart ('.' :: fs) = (fs, []) := by rw [fractionPart, hlast, hrest]
  rw [decimal?, hwhole, hpoint, hfraction]
  dsimp only
  rw [if_neg ne]
  simp [exponentPart?, Numeral.ofDigits]

theorem decimal?_whole (negative : Bool) {ds : List Char} (hds : ∀ c ∈ ds, c.isDigit = true)
    (ne : ds ≠ []) : decimal? negative ds = some (.ofDigits negative ds []) := by
  obtain ⟨hwhole, hrest⟩ := takeWhile_digits ds [] hds (by rintro c ⟨⟩)
  rw [List.append_nil] at hwhole hrest
  have hfraction : fractionPart [] = ([], []) := rfl
  rw [decimal?, hwhole, hrest, hfraction]
  dsimp only
  rw [if_neg fun h => ne h.1]
  simp [exponentPart?, Numeral.ofDigits]

theorem decimal?_thousandths (negative : Bool) (n : Nat) :
    decimal? negative (wholeDigits n ++ '.' :: lastDigits n) = some (.decimal negative n (-3)) := by
  have hne : ¬ (wholeDigits n = [] ∧ lastDigits n = []) := by
    rintro ⟨_, h⟩
    cases h
  rw [decimal?_pointed negative (fun c hc => isDigit_of_mem_wholeDigits hc)
    (fun c hc => isDigit_of_mem_lastDigits hc) hne, Numeral.ofDigits, digitsValue_digits]
  rfl

theorem text_whole (count : Int) : (Thousandths.whole count).text.toList =
    if count < 0 then '-' :: (wholeDigits count.natAbs ++ '.' :: lastDigits count.natAbs)
    else wholeDigits count.natAbs ++ '.' :: lastDigits count.natAbs := by
  simp only [Thousandths.text, String.toList_ofList]
  rfl

theorem takeSign_digits (ds : List Char) (h : ∀ c ∈ ds, c.isDigit = true) (ne : ds ≠ [])
    (rest : List Char) : takeSign (ds ++ rest) = (false, ds ++ rest) := by
  cases ds with
  | nil => exact absurd rfl ne
  | cons d ds =>
    have hd := h d List.mem_cons_self
    rw [List.cons_append]
    unfold takeSign
    split
    · rename_i heq
      cases heq
      cases hd
    · rename_i heq
      cases heq
      cases hd
    · rfl

/-- Digits and points are in no word for infinity or for no number. -/
theorem read?_of_mem {cs body : List Char} {negative : Bool} (h : takeSign cs = (negative, body))
    {c : Char} (mem : c ∈ body) (hc : c.isDigit = true ∨ c = '.') :
    Numeral.read? cs = decimal? negative body := by
  have hlower : c.toLower = c := by
    rcases hc with hc | rfl
    · obtain ⟨_, hle⟩ := Char.isDigit_iff_toNat.mp hc
      refine dif_neg fun hupper => ?_
      have hge : 'A'.toNat ≤ c.toNat := hupper.1
      exact absurd (Nat.le_trans hge hle) (by decide)
    · rfl
  have hword {word : List Char} (hw : (word.any fun d => d.isDigit || d == '.') = false) :
      body.map Char.toLower ≠ word := by
    rintro rfl
    have hmem : c ∈ body.map Char.toLower := List.mem_map.mpr ⟨c, mem, hlower⟩
    have hany := List.any_eq_false.mp hw c hmem
    simp [hc] at hany
  rw [Numeral.read?, h]
  dsimp only
  rw [if_neg, if_neg]
  · exact hword (by decide)
  · rintro (heq | heq)
    · exact hword (by decide) heq
    · exact hword (by decide) heq

/-- What a count of thousandths is printed as reads as that count. -/
theorem read?_text_whole (count : Int) : Numeral.read? (Thousandths.whole count).text.toList =
    some (.decimal (decide (count < 0)) count.natAbs (-3)) := by
  have hpoint (n : Nat) : '.' ∈ wholeDigits n ++ '.' :: lastDigits n :=
    List.mem_append_right _ List.mem_cons_self
  rw [text_whole]
  split
  · rename_i h
    have hsign : takeSign ('-' :: (wholeDigits count.natAbs ++ '.' :: lastDigits count.natAbs)) =
        (true, wholeDigits count.natAbs ++ '.' :: lastDigits count.natAbs) := rfl
    rw [read?_of_mem hsign (hpoint _) (.inr rfl), decide_eq_true h]
    exact decimal?_thousandths true _
  · rename_i h
    have hsign := takeSign_digits (wholeDigits count.natAbs)
      (fun c hc => isDigit_of_mem_wholeDigits hc) Nat.toDigits_ne_nil
      ('.' :: lastDigits count.natAbs)
    rw [read?_of_mem hsign (hpoint _) (.inr rfl), decide_eq_false h]
    exact decimal?_thousandths false _

end Reaming.Decimal
