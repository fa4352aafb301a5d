import Mathlib.Data.List.TakeWhile
import Reaming.Proofs.Drawing.Number

namespace Reaming.Dimension
open Decimal

def Blank (cs : List Char) : Prop := ∀ c ∈ cs, Text.isBlank c = true

instance (cs : List Char) : Decidable (Blank cs) :=
  decidable_of_iff (cs.all Text.isBlank = true) List.all_eq_true

def Stops (p : Char → Bool) (cs : List Char) : Prop := ∀ c ∈ cs.head?, p c = false

theorem dropWhile_blank {between rest : List Char} (gap : Blank between)
    (stops : Stops Text.isBlank rest) : (between ++ rest).dropWhile Text.isBlank = rest := by
  rw [List.dropWhile_append_of_pos gap]
  cases rest with
  | nil => rfl
  | cons c rest => exact List.dropWhile_cons_of_neg (by simp [stops c rfl])

section units

def units : List String := ["mm", "px", "in", "i", "cm"]

structure LongestUnit (cs : List Char) (unit : Option String) : Prop where
  stands : ∀ u ∈ unit, u ∈ units ∧ u.toList <+: cs
  longest : ∀ v ∈ units, v.toList <+: cs → ∃ u ∈ unit, v.length ≤ u.length

theorem LongestUnit.unique {cs : List Char} {unit unit' : Option String}
    (h : LongestUnit cs unit) (h' : LongestUnit cs unit') : unit = unit' := by
  cases unit with
  | none =>
    cases unit' with
    | none => rfl
    | some u =>
      obtain ⟨hu, hfront⟩ := h'.stands u rfl
      obtain ⟨_, hnone, _⟩ := h.longest u hu hfront
      cases hnone
  | some u =>
    obtain ⟨hu, hfront⟩ := h.stands u rfl
    obtain ⟨u', hu', hle⟩ := h'.longest u hu hfront
    obtain ⟨hmem, hfront'⟩ := h'.stands u' hu'
    obtain ⟨_, ⟨⟩, hge⟩ := h.longest u' hmem hfront'
    rw [← String.length_toList, ← String.length_toList] at hle hge
    have hfronts := List.prefix_of_prefix_length_le hfront hfront' hle
    rw [String.ext (hfronts.eq_of_length (Nat.le_antisymm hle hge))]
    exact hu'.symm

theorem longestUnit_unitAt? (cs : List Char) : LongestUnit cs (unitAt? cs) := by
  fun_cases unitAt? cs with
  | case1 rest => constructor <;> simp [units]
  | case2 rest => constructor <;> simp [units]
  | case3 rest =>
    have hlength : ∀ v ∈ units, v.length ≤ "in".length := by decide
    exact ⟨by simp [units], fun v hv _ => ⟨"in", rfl, hlength v hv⟩⟩
  | case4 rest hn =>
    have hn (tail : List Char) : ¬ rest = 'n' :: tail := hn tail
    constructor <;> simp [units, List.cons_prefix_iff, hn]
  | case5 rest => constructor <;> simp [units]
  | case6 _ hmm hpx hin hi hcm =>
    constructor
    · simp
    · intro v hv ⟨tail, heq⟩
      simp only [units, List.mem_cons, List.not_mem_nil, or_false] at hv
      rcases hv with rfl | rfl | rfl | rfl | rfl
      · exact absurd heq.symm (hmm tail)
      · exact absurd heq.symm (hpx tail)
      · exact absurd heq.symm (hin tail)
      · exact absurd heq.symm (hi tail)
      · exact absurd heq.symm (hcm tail)

/-- A unit with blanks behind it is not the front of a longer one. -/
theorem unitAt?_append {u : String} (hu : u ∈ units) {after : List Char} (blank : Blank after) :
    unitAt? (u.toList ++ after) = some u := by
  simp only [units, List.mem_cons, List.not_mem_nil, or_false] at hu
  rcases hu with rfl | rfl | rfl | rfl | rfl
  · rfl
  · rfl
  · rfl
  · have hn (tail : List Char) : after ≠ 'n' :: tail := by
      rintro rfl
      cases blank 'n' List.mem_cons_self
    change unitAt? ('i' :: after) = _
    simp [unitAt?]
  · rfl

end units

section search

theorem isNumeric_of_isBlank {c : Char} (h : Text.isBlank c = true) : isNumeric c = false := by
  have hrange (hc : isNumeric c = true) : 43 ≤ c.toNat ∧ c.toNat ≤ 57 := by
    simp only [isNumeric, Bool.or_eq_true, beq_iff_eq] at hc
    rcases hc with (((hc | rfl) | rfl) | rfl) | rfl
    · obtain ⟨hle, hge⟩ := Char.isDigit_iff_toNat.mp hc
      exact ⟨Nat.le_trans (by decide) hle, hge⟩
    all_goals decide
  rw [Bool.eq_false_iff]
  intro hc
  obtain ⟨hle, hge⟩ := hrange hc
  simp [Text.isBlank] at h
  omega

theorem Blank.stops_isNumeric {cs : List Char} (h : Blank cs) : Stops isNumeric cs :=
  fun c hc => isNumeric_of_isBlank (h c (List.mem_of_mem_head? hc))

/-- Numbers begin with what they are made of. -/
theorem numberAt?_of_not_numeric {c : Char} (h : isNumeric c = false) (cs : List Char) :
    numberAt? (c :: cs) = none := by
  cases hfound : numberAt? (c :: cs) with
  | none => rfl
  | some found =>
    obtain ⟨written, n, heq, number, _⟩ := exists_number hfound
    obtain ⟨d, hd, _⟩ := number.exists_digit
    obtain ⟨d, ds, rfl⟩ := List.exists_cons_of_ne_nil (List.ne_nil_of_mem hd)
    have hnumeric := number.isNumeric d List.mem_cons_self
    rw [← (List.cons.inj heq).1, h] at hnumeric
    cases hnumeric

theorem not_prefix_of_numberAt? {cs : List Char} (h : numberAt? cs = none) {w : List Char}
    {m : Numeral} (number : Number w m) : ¬ w <+: cs := by
  rintro ⟨tail, rfl⟩
  obtain ⟨_, _, hfound, _⟩ := number.found tail
  rw [h] at hfound
  cases hfound

theorem find?_of_numberAt? {cs number rest : List Char} (h : numberAt? cs = some (number, rest)) :
    find? cs = some (number, unitAt? (rest.dropWhile Text.isBlank)) := by
  cases cs with
  | nil => cases h
  | cons c cs => rw [find?, h]

theorem find?_of_numberAt?_none {c : Char} {cs : List Char} (h : numberAt? (c :: cs) = none) :
    find? (c :: cs) = find? cs := by
  rw [find?, h]

/-- Where a number is found in a text: it is the first that stands there and as long as it goes,
and so is the unit behind it. -/
structure FoundAt (before written blanks rest : List Char) (n : Numeral) (unit : Option String) :
    Prop where
  number : Number written n
  longest : ∀ w m, Number w m → w <+: written ++ (blanks ++ rest) → w.length ≤ written.length
  first : ∀ k < before.length, ∀ w m, Number w m →
    ¬ w <+: (before ++ (written ++ (blanks ++ rest))).drop k
  blank : Blank blanks
  stops : Stops Text.isBlank rest
  unit : LongestUnit rest unit

def Found (cs : List Char) (n : Numeral) (unit : Option String) : Prop :=
  ∃ before written blanks rest, cs = before ++ (written ++ (blanks ++ rest)) ∧
    FoundAt before written blanks rest n unit

section unique

variable {before written blanks rest before' written' blanks' rest' : List Char} {n n' : Numeral}
  {unit unit' : Option String} (h : FoundAt before written blanks rest n unit)
  (h' : FoundAt before' written' blanks' rest' n' unit')
  (same : before ++ (written ++ (blanks ++ rest)) = before' ++ (written' ++ (blanks' ++ rest')))
include h h' same

theorem FoundAt.length_before_le : before'.length ≤ before.length := by
  apply Nat.le_of_not_lt
  intro hlt
  apply h'.first before.length hlt written n h.number
  rw [← same, List.drop_left]
  exact ⟨blanks ++ rest, rfl⟩

/-- One number is found in a text at most, and one unit behind it. -/
theorem FoundAt.unique : n = n' ∧ unit = unit' := by
  have hbefore : before.length = before'.length :=
    Nat.le_antisymm (h'.length_before_le h same.symm) (h.length_before_le h' same)
  have hbehind := (List.append_inj same hbefore).2
  have hwritten : written.length = written'.length :=
    Nat.le_antisymm (h'.longest written n h.number ⟨_, hbehind⟩)
      (h.longest written' n' h'.number ⟨_, hbehind.symm⟩)
  obtain ⟨rfl, htail⟩ := List.append_inj hbehind hwritten
  have hrest : rest = rest' := by
    rw [← dropWhile_blank h.blank h.stops, htail, dropWhile_blank h'.blank h'.stops]
  have hread := h.number.read?
  rw [h'.number.read?] at hread
  exact ⟨(Option.some.inj hread).symm, h.unit.unique (hrest ▸ h'.unit)⟩

end unique

theorem exists_foundAt {cs number : List Char} {unit : Option String}
    (h : find? cs = some (number, unit)) : ∃ before written blanks rest n,
      cs = before ++ (written ++ (blanks ++ rest)) ∧ FoundAt before written blanks rest n unit ∧
        number = written.map withPoint := by
  induction cs with
  | nil => cases h
  | cons c cs ih =>
    cases hfront : numberAt? (c :: cs) with
    | none =>
      rw [find?_of_numberAt?_none hfront] at h
      obtain ⟨before, written, blanks, rest, n, rfl, found, hnumber⟩ := ih h
      refine ⟨c :: before, written, blanks, rest, n, rfl, { found with first := ?_ }, hnumber⟩
      rintro (_ | k) hk w m number
      · exact not_prefix_of_numberAt? hfront number
      · exact found.first k (Nat.lt_of_succ_lt_succ hk) w m number
    | some front =>
      obtain ⟨text, behind⟩ := front
      rw [find?_of_numberAt? hfront] at h
      cases h
      obtain ⟨written, n, hcs, number, hnumber⟩ := exists_number hfront
      have hsplit : behind.takeWhile Text.isBlank ++ behind.dropWhile Text.isBlank = behind :=
        List.takeWhile_append_dropWhile
      refine ⟨[], written, behind.takeWhile Text.isBlank, behind.dropWhile Text.isBlank, n, ?_,
        ⟨number, ?_, nofun, ?_, ?_, longestUnit_unitAt? _⟩, hnumber⟩
      · rw [hsplit]
        exact hcs
      · rw [hsplit, ← hcs]
        rintro w m number' ⟨tail, htail⟩
        obtain ⟨_, rest, hfound, hle⟩ := number'.found tail
        rw [htail, hfront] at hfound
        cases hfound
        have hlength := congrArg List.length (htail.trans hcs)
        rw [List.length_append, List.length_append] at hlength
        omega
      · exact List.all_eq_true.mp List.all_takeWhile
      · intro c hc
        have hstop := List.head?_dropWhile_not Text.isBlank behind
        rw [hc] at hstop
        exact hstop

theorem Found.unique {cs : List Char} {n n' : Numeral} {unit unit' : Option String}
    (h : Found cs n unit) (h' : Found cs n' unit') : n = n' ∧ unit = unit' := by
  obtain ⟨before, written, blanks, rest, rfl, found⟩ := h
  obtain ⟨before', written', blanks', rest', same, found'⟩ := h'
  exact found.unique found' same

theorem Found.exists_digit {cs : List Char} {n : Numeral} {unit : Option String}
    (h : Found cs n unit) : ∃ c ∈ cs, c.isDigit = true := by
  obtain ⟨before, written, blanks, rest, rfl, found⟩ := h
  obtain ⟨c, hc, hdigit⟩ := found.number.exists_digit
  exact ⟨c, List.mem_append_right _ (List.mem_append_left _ hc), hdigit⟩

theorem find?_eq_none_iff (cs : List Char) : find? cs = none ↔ ∀ c ∈ cs, c.isDigit = false := by
  constructor
  · intro h
    induction cs with
    | nil => exact nofun
    | cons c cs ih =>
      cases hfront : numberAt? (c :: cs) with
      | some front =>
        rw [find?_of_numberAt? hfront] at h
        cases h
      | none =>
        rw [find?_of_numberAt?_none hfront] at h
        refine List.forall_mem_cons.mpr ⟨?_, ih h⟩
        rw [Bool.eq_false_iff]
        intro hc
        have digit : Number [c] _ := .unsigned (.whole (by simp) (by simpa using hc))
        exact not_prefix_of_numberAt? hfront digit ⟨cs, rfl⟩
  · intro h
    cases hfound : find? cs with
    | none => rfl
    | some found =>
      obtain ⟨before, written, blanks, rest, n, hsplit, found, _⟩ := exists_foundAt hfound
      have found : Found cs n _ := ⟨before, written, blanks, rest, hsplit, found⟩
      obtain ⟨c, hc, hdigit⟩ := found.exists_digit
      rw [h c hc] at hdigit
      cases hdigit

end search

section whole

/-- A text that is a number with or without a unit, blanks aside. -/
inductive Whole : List Char → Numeral → Option String → Prop where
  | number {before written after : List Char} {n : Numeral} (front : Blank before)
      (number : Number written n) (back : Blank after) :
      Whole (before ++ (written ++ after)) n none
  | measured {before written between after : List Char} {n : Numeral} {u : String}
      (front : Blank before) (number : Number written n) (gap : Blank between) (unit : u ∈ units)
      (back : Blank after) :
      Whole (before ++ (written ++ (between ++ (u.toList ++ after)))) n (some u)

def isMeasure (c : Char) : Bool :=
  isNumeric c || Text.isBlank c || units.any fun u => u.toList.contains c

theorem Whole.forall_isMeasure {cs : List Char} {n : Numeral} {unit : Option String}
    (h : Whole cs n unit) : ∀ c ∈ cs, isMeasure c = true := by
  have hnumber {ds : List Char} {n : Numeral} (number : Number ds n) :
      ∀ c ∈ ds, isMeasure c = true := by
    intro c hc
    simp [isMeasure, number.isNumeric c hc]
  have hblank {ds : List Char} (blank : Blank ds) : ∀ c ∈ ds, isMeasure c = true := by
    intro c hc
    simp [isMeasure, blank c hc]
  cases h with
  | number front number back =>
    rw [List.forall_mem_append, List.forall_mem_append]
    exact ⟨hblank front, hnumber number, hblank back⟩
  | measured front number gap unit back =>
    rw [List.forall_mem_append, List.forall_mem_append, List.forall_mem_append,
      List.forall_mem_append]
    refine ⟨hblank front, hnumber number, hblank gap, fun c hc => ?_, hblank back⟩
    rw [isMeasure, Bool.or_eq_true]
    exact .inr (List.any_eq_true.mpr ⟨_, unit, List.contains_iff_mem.mpr hc⟩)

theorem find?_blank {before : List Char} (h : Blank before) (cs : List Char) :
    find? (before ++ cs) = find? cs := by
  induction before with
  | nil => rfl
  | cons b bs ih =>
    have hb := numberAt?_of_not_numeric (isNumeric_of_isBlank (h b List.mem_cons_self)) (bs ++ cs)
    rw [List.cons_append, find?_of_numberAt?_none hb]
    exact ih fun c hc => h c (List.mem_cons_of_mem b hc)

/-- A number ends where nothing follows that numbers are made of. -/
theorem numberAt?_append {written : List Char} {n : Numeral} (number : Number written n)
    {tail : List Char} (stops : Stops isNumeric tail) :
    numberAt? (written ++ tail) = some (written.map withPoint, tail) := by
  obtain ⟨text, rest, hfound, hle⟩ := number.found tail
  obtain ⟨longer, m, hsplit, number', htext⟩ := exists_number hfound
  have hlength := congrArg List.length hsplit
  rw [List.length_append, List.length_append] at hlength
  obtain ⟨extra, rfl⟩ : written <+: longer :=
    List.prefix_of_prefix_length_le ⟨tail, hsplit⟩ ⟨rest, rfl⟩ (by omega)
  rw [List.append_assoc] at hsplit
  have htail := List.append_cancel_left hsplit
  cases extra with
  | nil => rw [hfound, htext, List.append_nil, htail, List.nil_append]
  | cons d ds =>
    have hd := number'.isNumeric d (List.mem_append_right _ List.mem_cons_self)
    rw [stops d (by rw [htail]; rfl)] at hd
    cases hd

theorem stops_unit {u : String} (unit : u ∈ units) (after : List Char) :
    Stops Text.isBlank (u.toList ++ after) ∧ Stops isNumeric (u.toList ++ after) := by
  simp only [units, List.mem_cons, List.not_mem_nil, or_false] at unit
  rcases unit with rfl | rfl | rfl | rfl | rfl
  all_goals
    constructor
    all_goals
      rintro c ⟨⟩
      decide

theorem Whole.find? {cs : List Char} {n : Numeral} {unit : Option String} (h : Whole cs n unit) :
    ∃ written, Number written n ∧ find? cs = some (written.map withPoint, unit) := by
  cases h with
  | @number before written after _ front number back =>
    have hfound := find?_of_numberAt? (numberAt?_append number back.stops_isNumeric)
    have hrest : after.dropWhile Text.isBlank = [] := List.dropWhile_eq_nil_iff.mpr back
    rw [hrest] at hfound
    exact ⟨written, number, (find?_blank front _).trans hfound⟩
  | @measured before written between after _ u front number gap unit back =>
    obtain ⟨hblank, hnumeric⟩ := stops_unit unit after
    have hstops : Stops isNumeric (between ++ (u.toList ++ after)) := by
      cases between with
      | nil => exact hnumeric
      | cons b bs => exact gap.stops_isNumeric
    have hfound := find?_of_numberAt? (numberAt?_append number hstops)
    rw [dropWhile_blank gap hblank, unitAt?_append unit back] at hfound
    exact ⟨written, number, (find?_blank front _).trans hfound⟩

end whole

section lowered

def lowered (value : String) : List Char := value.toList.flatMap lowerCase

theorem isDigit_toLower (c : Char) : c.toLower.isDigit = c.isDigit := by
  by_cases h : c.val ≥ 'A'.val ∧ c.val ≤ 'Z'.val
  · have hall : ∀ n < 91, 65 ≤ n → (Char.ofNat n).toLower.isDigit = (Char.ofNat n).isDigit := by
      decide
    have hc := hall c.toNat (Nat.lt_succ_of_le h.2) h.1
    rwa [Char.ofNat_toNat] at hc
  · have hsame : c.toLower = c := dif_neg h
    rw [hsame]

/-- Making letters small neither makes digits nor takes any away. -/
theorem any_lowerCase (c : Char) : (lowerCase c).any Char.isDigit = c.isDigit := by
  unfold lowerCase
  split
  · rename_i h
    subst h
    decide
  · split
    · rename_i h
      subst h
      decide
    · simp [isDigit_toLower]

def Numberless (value : String) : Prop := ∀ c ∈ value.toList, c.isDigit = false

instance (value : String) : Decidable (Numberless value) :=
  decidable_of_iff (value.toList.any Char.isDigit = false) (by simp [Numberless])

theorem forall_lowered (value : String) :
    (∀ c ∈ lowered value, c.isDigit = false) ↔ Numberless value := by
  rw [lowered, Numberless, List.forall_mem_flatMap]
  refine forall₂_congr fun c _ => ?_
  rw [← any_lowerCase c, List.any_eq_false]
  simp

end lowered

section read

variable {α : Type} [Scalar α]

theorem read_of_find? (name : String) {value : String} {written : List Char} {n : Numeral}
    {unit : Option String} (number : Number written n)
    (h : find? (lowered value) = some (written.map withPoint, unit)) :
    read name value = .ok ((Scalar.ofNumeral n : α), unit) := by
  have hread : (Scalar.read? (written.map withPoint) : Option α) = some (Scalar.ofNumeral n) := by
    rw [Scalar.read?, number.read?]
    rfl
  rw [lowered] at h
  rw [read, h]
  dsimp only
  rw [hread]

theorem read_of_find?_none (name : String) {value : String} (h : find? (lowered value) = none) :
    (read name value : Except LoadError (α × Option String)) = .error (.dimension name value) := by
  rw [lowered] at h
  rw [read, h]

theorem read_whole (name : String) {value : String} {n : Numeral} {unit : Option String}
    (h : Whole (lowered value) n unit) :
    read name value = .ok ((Scalar.ofNumeral n : α), unit) := by
  obtain ⟨written, number, hfound⟩ := h.find?
  exact read_of_find? name number hfound

/-- What can come of reading a dimension. -/
theorem read_cases (name value : String) :
    (Numberless value ∧
      (read name value : Except LoadError (α × Option String)) = .error (.dimension name value)) ∨
    (¬ Numberless value ∧ ∃ n unit, Found (lowered value) n unit ∧
      read name value = .ok ((Scalar.ofNumeral n : α), unit)) := by
  rw [← forall_lowered, ← find?_eq_none_iff]
  cases h : find? (lowered value) with
  | none => exact .inl ⟨rfl, read_of_find?_none name h⟩
  | some found =>
    obtain ⟨number, unit⟩ := found
    obtain ⟨before, written, blanks, rest, n, hsplit, found, rfl⟩ := exists_foundAt h
    exact .inr ⟨nofun, n, unit, ⟨before, written, blanks, rest, hsplit, found⟩,
      read_of_find? name found.number h⟩

theorem read_error_iff (name value : String) (e : LoadError) :
    (read name value : Except LoadError (α × Option String)) = .error e ↔
      Numberless value ∧ e = .dimension name value := by
  rcases read_cases (α := α) name value with ⟨hnone, hread⟩ | ⟨hsome, n, unit, _, hread⟩
  · rw [hread, Except.error.injEq, eq_comm]
    exact ⟨fun he => ⟨hnone, he⟩, And.right⟩
  · rw [hread]
    exact ⟨nofun, fun h => absurd h.1 hsome⟩

/-- What is read off a text is the number and the unit that are found in it. -/
theorem read_ok_iff (name value : String) (x : α) (unit : Option String) :
    read name value = .ok (x, unit) ↔
      ∃ n, Found (lowered value) n unit ∧ x = Scalar.ofNumeral n := by
  rcases read_cases (α := α) name value with ⟨hnone, hread⟩ | ⟨_, n, unit', found, hread⟩
  · rw [hread]
    refine ⟨nofun, ?_⟩
    rintro ⟨n, found, _⟩
    obtain ⟨c, hc, hdigit⟩ := found.exists_digit
    rw [(forall_lowered value).mpr hnone c hc] at hdigit
    cases hdigit
  · rw [hread]
    constructor
    · rintro ⟨⟩
      exact ⟨n, found, rfl⟩
    · rintro ⟨n', found', rfl⟩
      obtain ⟨rfl, rfl⟩ := found.unique found'
      rfl

end read

end Reaming.Dimension
