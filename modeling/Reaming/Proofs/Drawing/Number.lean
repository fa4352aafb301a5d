import Reaming.Drawing.Dimension
import Reaming.Proofs.Decimal.Digits

namespace Reaming.Dimension
open Decimal

/-- A number without a sign, and its digits before and behind the point. -/
inductive Unsigned : List Char → List Char → List Char → Prop where
  | whole {ds : List Char} (ne : ds ≠ []) (digits : ∀ c ∈ ds, c.isDigit = true) : Unsigned ds ds []
  | pointed {ds fs : List Char} {c : Char} (ne : ds ≠ []) (digits : ∀ c ∈ ds, c.isDigit = true)
      (point : c = '.' ∨ c = ',') (digits' : ∀ c ∈ fs, c.isDigit = true) :
      Unsigned (ds ++ c :: fs) ds fs
  | bare {fs : List Char} (ne : fs ≠ []) (digits : ∀ c ∈ fs, c.isDigit = true) :
      Unsigned ('.' :: fs) [] fs

inductive Number : List Char → Numeral → Prop where
  | unsigned {cs whole fraction : List Char} (body : Unsigned cs whole fraction) :
      Number cs (.ofDigits false whole fraction)
  | plus {cs whole fraction : List Char} (body : Unsigned cs whole fraction) :
      Number ('+' :: cs) (.ofDigits false whole fraction)
  | minus {cs whole fraction : List Char} (body : Unsigned cs whole fraction) :
      Number ('-' :: cs) (.ofDigits true whole fraction)

def withPoint (c : Char) : Char := if c = ',' then '.' else c

def isNumeric (c : Char) : Bool := c.isDigit || c == '+' || c == '-' || c == '.' || c == ','

theorem isNumeric_of_isDigit {c : Char} (h : c.isDigit = true) : isNumeric c = true := by
  simp [isNumeric, h]

theorem isDigit_point {c : Char} (h : c = '.' ∨ c = ',') : c.isDigit = false := by
  rcases h with rfl | rfl <;> decide

theorem withPoint_digit {c : Char} (h : c.isDigit = true) : withPoint c = c := by
  refine if_neg ?_
  rintro rfl
  cases h

theorem withPoint_point {c : Char} (h : c = '.' ∨ c = ',') : withPoint c = '.' := by
  rcases h with rfl | rfl <;> rfl

theorem map_withPoint_digits {ds : List Char} (h : ∀ c ∈ ds, c.isDigit = true) :
    ds.map withPoint = ds := by
  rw [List.map_congr_left fun c hc => withPoint_digit (h c hc), List.map_id']

section reading

theorem Unsigned.decimal? {written whole fraction : List Char}
    (h : Unsigned written whole fraction) (negative : Bool) :
    decimal? negative (written.map withPoint) = some (.ofDigits negative whole fraction) := by
  cases h with
  | whole ne digits =>
    rw [map_withPoint_digits digits]
    exact decimal?_whole negative digits ne
  | pointed ne digits point digits' =>
    rw [List.map_append, List.map_cons, withPoint_point point, map_withPoint_digits digits,
      map_withPoint_digits digits']
    exact decimal?_pointed negative digits digits' fun hnil => ne hnil.1
  | bare ne digits =>
    have hnone : ∀ c ∈ ([] : List Char), c.isDigit = true := nofun
    rw [List.map_cons, map_withPoint_digits digits]
    exact decimal?_pointed negative hnone digits fun hnil => ne hnil.2

theorem Unsigned.takeSign {written whole fraction : List Char}
    (h : Unsigned written whole fraction) :
    takeSign (written.map withPoint) = (false, written.map withPoint) := by
  cases h with
  | whole ne digits =>
    have hsign := takeSign_digits written digits ne []
    rw [List.append_nil] at hsign
    rwa [map_withPoint_digits digits]
  | pointed ne digits _ _ =>
    rw [List.map_append, map_withPoint_digits digits]
    exact takeSign_digits whole digits ne _
  | bare _ _ => rfl

theorem Unsigned.exists_digit {written whole fraction : List Char}
    (h : Unsigned written whole fraction) : ∃ c ∈ written, c.isDigit = true := by
  cases h with
  | whole ne digits | pointed ne digits _ _ =>
    obtain ⟨d, ds, rfl⟩ := List.exists_cons_of_ne_nil ne
    exact ⟨d, List.mem_cons_self, digits d List.mem_cons_self⟩
  | bare ne digits =>
    obtain ⟨d, ds, rfl⟩ := List.exists_cons_of_ne_nil ne
    exact ⟨d, List.mem_cons_of_mem _ List.mem_cons_self, digits d List.mem_cons_self⟩

/-- A number reads as what it is once a comma in it is a point. -/
theorem Number.read? {written : List Char} {n : Numeral} (h : Number written n) :
    Numeral.read? (written.map withPoint) = some n := by
  have hbody {cs whole fraction : List Char} (body : Unsigned cs whole fraction) {text : List Char}
      {negative : Bool} (hsign : Decimal.takeSign text = (negative, cs.map withPoint)) :
      Numeral.read? text = some (.ofDigits negative whole fraction) := by
    obtain ⟨c, mem, hc⟩ := body.exists_digit
    have hmem : c ∈ cs.map withPoint := List.mem_map.mpr ⟨c, mem, withPoint_digit hc⟩
    rw [read?_of_mem hsign hmem (.inl hc)]
    exact body.decimal? negative
  cases h with
  | unsigned body => exact hbody body body.takeSign
  | plus body => exact hbody body rfl
  | minus body => exact hbody body rfl

end reading

section characters

theorem Number.exists_digit {written : List Char} {n : Numeral} (h : Number written n) :
    ∃ c ∈ written, c.isDigit = true := by
  cases h with
  | unsigned body => exact body.exists_digit
  | plus body | minus body =>
    obtain ⟨c, hmem, hc⟩ := body.exists_digit
    exact ⟨c, List.mem_cons_of_mem _ hmem, hc⟩

theorem Unsigned.isNumeric {written whole fraction : List Char}
    (h : Unsigned written whole fraction) : ∀ c ∈ written, isNumeric c = true := by
  intro c hmem
  cases h with
  | whole _ digits => exact isNumeric_of_isDigit (digits c hmem)
  | pointed _ digits point digits' =>
    rcases List.mem_append.mp hmem with hmem | hmem
    · exact isNumeric_of_isDigit (digits c hmem)
    · rcases List.mem_cons.mp hmem with rfl | hmem
      · rcases point with rfl | rfl <;> rfl
      · exact isNumeric_of_isDigit (digits' c hmem)
  | bare _ digits =>
    rcases List.mem_cons.mp hmem with rfl | hmem
    · rfl
    · exact isNumeric_of_isDigit (digits c hmem)

theorem Number.isNumeric {written : List Char} {n : Numeral} (h : Number written n) :
    ∀ c ∈ written, isNumeric c = true := by
  cases h with
  | unsigned body => exact body.isNumeric
  | plus body | minus body => exact List.forall_mem_cons.mpr ⟨rfl, body.isNumeric⟩

end characters

section front

theorem length_fractionAt_le (cs : List Char) : (fractionAt cs).2.length ≤ cs.length := by
  fun_cases fractionAt cs with
  | case1 c cs point => exact Nat.le_succ_of_le (List.dropWhile_suffix _).length_le
  | case2 c cs point => exact Nat.le_refl _
  | case3 => exact Nat.le_refl _

theorem unsignedAt?_whole {cs : List Char} (h : cs.takeWhile Char.isDigit ≠ []) :
    unsignedAt? cs = some (cs.takeWhile Char.isDigit ++ (fractionAt (cs.dropWhile Char.isDigit)).1,
      (fractionAt (cs.dropWhile Char.isDigit)).2) := by
  unfold unsignedAt?
  split
  · contradiction
  · rfl

theorem unsignedAt?_bare {cs : List Char} (h : cs.takeWhile Char.isDigit ≠ []) :
    unsignedAt? ('.' :: cs) =
      some ('.' :: cs.takeWhile Char.isDigit, cs.dropWhile Char.isDigit) := by
  have hpoint : ('.' :: cs).takeWhile Char.isDigit = [] := rfl
  unfold unsignedAt?
  rw [hpoint]
  dsimp only
  split
  · rename_i heq
    cases heq
    split
    · contradiction
    · rfl
  · rename_i hother
    exact absurd rfl (hother cs)

/-- A number without a sign has digits in front, or a point and digits. -/
theorem unsignedAt?_cases {cs : List Char} {found : List Char × List Char}
    (h : unsignedAt? cs = some found) :
    (cs.takeWhile Char.isDigit ≠ [] ∧
      found = (cs.takeWhile Char.isDigit ++ (fractionAt (cs.dropWhile Char.isDigit)).1,
        (fractionAt (cs.dropWhile Char.isDigit)).2)) ∨
    ∃ rest, cs = '.' :: rest ∧ rest.takeWhile Char.isDigit ≠ [] ∧
      found = ('.' :: rest.takeWhile Char.isDigit, rest.dropWhile Char.isDigit) := by
  by_cases hwhole : cs.takeWhile Char.isDigit = []
  · right
    unfold unsignedAt? at h
    rw [hwhole] at h
    dsimp only at h
    split at h
    · rename_i rest
      by_cases hrest : rest.takeWhile Char.isDigit = []
      · rw [hrest] at h
        cases h
      · refine ⟨rest, rfl, hrest, ?_⟩
        have hbare := unsignedAt?_bare hrest
        unfold unsignedAt? at hbare
        rw [hwhole] at hbare
        exact Option.some.inj (h.symm.trans hbare)
    · cases h
  · exact .inl ⟨hwhole, Option.some.inj (h.symm.trans (unsignedAt?_whole hwhole))⟩

theorem takeWhile_ne_nil {ds : List Char} (ne : ds ≠ []) (digits : ∀ c ∈ ds, c.isDigit = true)
    (rest : List Char) : (ds ++ rest).takeWhile Char.isDigit ≠ [] := by
  rw [List.takeWhile_append_of_pos digits]
  simp [ne]

/-- Where a number stands one is found that goes as far. -/
theorem Unsigned.found {written whole fraction : List Char} (h : Unsigned written whole fraction)
    (tail : List Char) :
    ∃ number rest, unsignedAt? (written ++ tail) = some (number, rest) ∧
      rest.length ≤ tail.length := by
  cases h with
  | whole ne digits =>
    refine ⟨_, _, unsignedAt?_whole (takeWhile_ne_nil ne digits tail), ?_⟩
    rw [List.dropWhile_append_of_pos digits]
    exact Nat.le_trans (length_fractionAt_le _) (List.dropWhile_suffix _).length_le
  | @pointed ds fs c ne digits point digits' =>
    have hpoint := isDigit_point point
    refine ⟨_, _, (congrArg unsignedAt? (List.append_assoc ..)).trans
      (unsignedAt?_whole (takeWhile_ne_nil ne digits _)), ?_⟩
    rw [List.dropWhile_append_of_pos digits, List.cons_append, List.dropWhile_cons_of_neg
      (by simp [hpoint]), fractionAt, if_pos point, List.dropWhile_append_of_pos digits']
    exact (List.dropWhile_suffix _).length_le
  | bare ne digits =>
    have hrest : (fraction ++ tail).dropWhile Char.isDigit = tail.dropWhile Char.isDigit :=
      List.dropWhile_append_of_pos digits
    refine ⟨_, _, unsignedAt?_bare (takeWhile_ne_nil ne digits tail), ?_⟩
    calc ((fraction ++ tail).dropWhile Char.isDigit).length
        = (tail.dropWhile Char.isDigit).length := congrArg List.length hrest
      _ ≤ tail.length := (List.dropWhile_suffix _).length_le

/-- No number without a sign begins with one. -/
theorem numberAt?_of_unsignedAt? {cs : List Char} {found : List Char × List Char}
    (h : unsignedAt? cs = some found) : numberAt? cs = some found := by
  fun_cases numberAt? cs with
  | case1 cs => cases h
  | case2 cs => cases h
  | case3 => exact h

theorem Number.found {written : List Char} {n : Numeral} (h : Number written n)
    (tail : List Char) :
    ∃ number rest, numberAt? (written ++ tail) = some (number, rest) ∧
      rest.length ≤ tail.length := by
  cases h with
  | unsigned body =>
    obtain ⟨number, rest, hfound, hle⟩ := body.found tail
    exact ⟨number, rest, numberAt?_of_unsignedAt? hfound, hle⟩
  | plus body =>
    obtain ⟨number, rest, hfound, hle⟩ := body.found tail
    exact ⟨'+' :: number, rest, congrArg (Option.map _) hfound, hle⟩
  | minus body =>
    obtain ⟨number, rest, hfound, hle⟩ := body.found tail
    exact ⟨'-' :: number, rest, congrArg (Option.map _) hfound, hle⟩

theorem isDigit_of_mem_takeWhile {cs : List Char} {c : Char}
    (h : c ∈ cs.takeWhile Char.isDigit) : c.isDigit = true :=
  List.all_eq_true.mp List.all_takeWhile c h

/-- A fraction is a point or comma and some digits, if it is there. -/
theorem exists_fraction (cs : List Char) : fractionAt cs = ([], cs) ∨
    ∃ c fs rest, cs = c :: fs ++ rest ∧ (c = '.' ∨ c = ',') ∧ (∀ d ∈ fs, d.isDigit = true) ∧
      fractionAt cs = ('.' :: fs, rest) := by
  fun_cases fractionAt cs with
  | case1 c cs point =>
    refine .inr ⟨c, cs.takeWhile Char.isDigit, cs.dropWhile Char.isDigit, ?_, point,
      fun d => isDigit_of_mem_takeWhile, rfl⟩
    rw [List.cons_append, List.takeWhile_append_dropWhile]
  | case2 c cs point => exact .inl rfl
  | case3 => exact .inl rfl

/-- What is found at the front of a text is a number that stands there. -/
theorem exists_unsigned {cs number rest : List Char} (h : unsignedAt? cs = some (number, rest)) :
    ∃ written whole fraction, cs = written ++ rest ∧ Unsigned written whole fraction ∧
      number = written.map withPoint := by
  have hdigits (ds : List Char) : ∀ c ∈ ds.takeWhile Char.isDigit, c.isDigit = true :=
    fun c => isDigit_of_mem_takeWhile
  rcases unsignedAt?_cases h with ⟨ne, hfound⟩ | ⟨fs, rfl, ne, hfound⟩
  · have hsplit : cs = cs.takeWhile Char.isDigit ++ cs.dropWhile Char.isDigit :=
      List.takeWhile_append_dropWhile.symm
    rcases exists_fraction (cs.dropWhile Char.isDigit) with
      hnone | ⟨c, fs, rest', htail, point, hfs, hsome⟩
    · rw [hnone, List.append_nil] at hfound
      cases hfound
      exact ⟨_, _, _, hsplit, .whole ne (hdigits cs), (map_withPoint_digits (hdigits cs)).symm⟩
    · rw [hsome] at hfound
      cases hfound
      refine ⟨_, _, _, ?_, .pointed ne (hdigits cs) point hfs, ?_⟩
      · rw [List.append_assoc, ← htail]
        exact hsplit
      · rw [List.map_append, List.map_cons, withPoint_point point,
          map_withPoint_digits (hdigits cs), map_withPoint_digits hfs]
  · cases hfound
    refine ⟨_, _, _, ?_, .bare ne (hdigits fs), ?_⟩
    · rw [List.cons_append, List.takeWhile_append_dropWhile]
    · rw [List.map_cons, map_withPoint_digits (hdigits fs)]
      rfl

theorem exists_number {cs number rest : List Char} (h : numberAt? cs = some (number, rest)) :
    ∃ written n, cs = written ++ rest ∧ Number written n ∧ number = written.map withPoint := by
  have hsigned {sign : Char} {cs : List Char} (hsign : withPoint sign = sign)
      (h : (unsignedAt? cs).map (fun found => (sign :: found.1, found.2)) = some (number, rest)) :
      ∃ written whole fraction, cs = written ++ rest ∧ Unsigned written whole fraction ∧
        number = (sign :: written).map withPoint := by
    obtain ⟨⟨number', rest'⟩, hfound, heq⟩ := Option.map_eq_some_iff.mp h
    cases heq
    obtain ⟨written, whole, fraction, hcs, body, hnumber⟩ := exists_unsigned hfound
    exact ⟨written, whole, fraction, hcs, body, by rw [List.map_cons, hsign, hnumber]⟩
  unfold numberAt? at h
  split at h
  · obtain ⟨written, _, _, hcs, body, hnumber⟩ := hsigned rfl h
    exact ⟨'+' :: written, _, congrArg _ hcs, .plus body, hnumber⟩
  · obtain ⟨written, _, _, hcs, body, hnumber⟩ := hsigned rfl h
    exact ⟨'-' :: written, _, congrArg _ hcs, .minus body, hnumber⟩
  · obtain ⟨written, _, _, hcs, body, hnumber⟩ := exists_unsigned h
    exact ⟨written, _, hcs, .unsigned body, hnumber⟩

end front

end Reaming.Dimension
