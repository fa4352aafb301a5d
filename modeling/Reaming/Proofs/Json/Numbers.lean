import Reaming.Json.Reader
import Reaming.Proofs.Decimal.Digits
import Reaming.Proofs.Decimal.Shortest

namespace Reaming.Json
open Decimal

def Ends (cs : List Char) : Prop :=
  ∀ c ∈ cs.head?, c.isDigit = false ∧ c ≠ '.' ∧ c ≠ 'e' ∧ c ≠ 'E'

namespace Number

def AllDigits (cs : List Char) : Prop := ∀ c ∈ cs, c.isDigit = true

/-- A number as the notation allows: a digit before the point, no zero in front of others, and an
exponent with digits behind its sign. -/
structure Written (n : Number) : Prop where
  whole : AllDigits n.whole
  nonempty : n.whole ≠ []
  leading : 1 < n.whole.length → n.whole.head? ≠ some '0'
  fraction : AllDigits n.fraction
  exponent : n.exponent = [] ∨ ∃ sign digits, n.exponent = sign ++ digits ∧
    sign ∈ [[], ['+'], ['-']] ∧ AllDigits digits ∧ digits ≠ []

def exponentText (n : Number) : List Char :=
  if n.exponent.isEmpty then [] else 'e' :: n.exponent

def fractionText (n : Number) : List Char :=
  if n.fraction.isEmpty then [] else '.' :: n.fraction

theorem text_eq (n : Number) : n.text =
    (if n.negative then ['-'] else []) ++ (n.whole ++ (n.fractionText ++ n.exponentText)) := by
  rw [text, List.append_assoc, List.append_assoc]
  rfl

theorem takeWrittenSign_digits {sign digits : List Char} (hsign : sign ∈ [[], ['+'], ['-']])
    (hdigits : AllDigits digits) (ne : digits ≠ []) (rest : List Char) :
    takeWrittenSign (sign ++ (digits ++ rest)) = (sign, digits ++ rest) := by
  rcases List.mem_cons.mp hsign with rfl | hsign
  · cases digits with
    | nil => exact absurd rfl ne
    | cons d ds =>
      have hd := hdigits d List.mem_cons_self
      rw [List.nil_append, List.cons_append, takeWrittenSign.eq_def]
      split
      · rename_i h
        cases h
        cases hd
      · rename_i h
        cases h
        cases hd
      · rfl
  · rcases List.mem_cons.mp hsign with rfl | hsign
    · rfl
    · rw [List.mem_singleton.mp hsign]
      rfl

theorem readExponent?_exponentText {n : Number} (h : n.Written) {rest : List Char}
    (ends : Ends rest) : readExponent? (n.exponentText ++ rest) = some (n.exponent, rest) := by
  rw [exponentText]
  rcases h.exponent with hnone | ⟨sign, digits, hsome, hsign, hdigits, hne⟩
  · rw [hnone]
    cases rest with
    | nil => rfl
    | cons c cs =>
      obtain ⟨_, _, hlower, hupper⟩ := ends c rfl
      exact if_neg (not_or.mpr ⟨hlower, hupper⟩)
  · obtain ⟨htake, hdrop⟩ := takeWhile_digits digits rest hdigits fun c hc => (ends c hc).1
    have hempty : (sign ++ digits).isEmpty = false := by
      cases digits with
      | nil => exact absurd rfl hne
      | cons d ds => cases sign <;> rfl
    rw [hsome, hempty, if_neg Bool.false_ne_true, List.cons_append, readExponent?,
      if_pos (.inl rfl), List.append_assoc, takeWrittenSign_digits hsign hdigits hne]
    dsimp only
    rw [htake, hdrop]
    cases digits with
    | nil => exact absurd rfl hne
    | cons d ds => rfl

theorem readFraction?_fractionText {n : Number} (h : n.Written) {rest : List Char}
    (stop : ∀ c ∈ rest.head?, c.isDigit = false ∧ c ≠ '.') :
    readFraction? (n.fractionText ++ rest) = some (n.fraction, rest) := by
  have hdigits := h.fraction
  rw [fractionText]
  generalize n.fraction = fraction at hdigits
  cases fraction with
  | nil =>
    rw [List.isEmpty_nil, if_pos rfl, List.nil_append, readFraction?.eq_def]
    split
    · exact absurd rfl (stop _ rfl).2
    · rfl
  | cons d ds =>
    obtain ⟨htake, hdrop⟩ := takeWhile_digits (d :: ds) rest hdigits fun c hc => (stop c hc).1
    rw [List.isEmpty_cons, if_neg Bool.false_ne_true, List.cons_append, readFraction?, htake, hdrop]

theorem readUnsigned?_text {n : Number} (h : n.Written) {rest : List Char} (ends : Ends rest) :
    readUnsigned? n.negative (n.whole ++ (n.fractionText ++ (n.exponentText ++ rest))) =
      some (n, rest) := by
  have hexponent : ∀ c ∈ (n.exponentText ++ rest).head?, c.isDigit = false ∧ c ≠ '.' := by
    intro c hc
    rw [exponentText] at hc
    split at hc
    · exact ⟨(ends c hc).1, (ends c hc).2.1⟩
    · cases hc
      exact ⟨rfl, by decide⟩
  have hfraction : ∀ c ∈ (n.fractionText ++ (n.exponentText ++ rest)).head?, c.isDigit = false := by
    intro c hc
    rw [fractionText] at hc
    split at hc
    · exact (hexponent c hc).1
    · cases hc
      rfl
  obtain ⟨htake, hdrop⟩ := takeWhile_digits n.whole _ h.whole hfraction
  have hok : ¬(n.whole.isEmpty = true ∨ (1 < n.whole.length ∧ n.whole.head? = some '0')) :=
    not_or.mpr ⟨fun hnil => h.nonempty (List.isEmpty_iff.mp hnil), fun ⟨hlong, hzero⟩ =>
      h.leading hlong hzero⟩
  rw [readUnsigned?, htake, hdrop]
  dsimp only
  rw [if_neg hok, readFraction?_fractionText h hexponent]
  dsimp only [Option.bind_eq_bind, Option.bind_some]
  rw [readExponent?_exponentText h ends]
  rfl

/-- A number reads back as it was written. -/
theorem readNumber?_text {n : Number} (h : n.Written) {rest : List Char} (ends : Ends rest) :
    readNumber? (n.text ++ rest) = some (n, rest) := by
  have hread := readUnsigned?_text h ends
  rw [text_eq, List.append_assoc, List.append_assoc, List.append_assoc]
  cases hn : n.negative with
  | true =>
    rw [hn] at hread
    exact hread
  | false =>
    rw [hn] at hread
    rw [if_neg Bool.false_ne_true, List.nil_append, readNumber?.eq_def]
    split
    · rename_i heq
      cases hwhole : n.whole with
      | nil => exact absurd hwhole h.nonempty
      | cons d ds =>
        rw [hwhole] at heq
        cases heq
        exact absurd (h.whole '-' (hwhole ▸ List.mem_cons_self)) (by decide)
    · exact hread

theorem allDigits_toDigits (n : Nat) : AllDigits (Nat.toDigits 10 n) :=
  fun _ hc => Nat.isDigit_of_mem_toDigits (by decide) (by decide) hc

theorem allDigits_zeros (n : Nat) : AllDigits (zeros n) := by
  intro c hc
  rw [List.eq_of_mem_replicate hc]
  rfl

theorem AllDigits.append {cs ds : List Char} (hc : AllDigits cs) (hd : AllDigits ds) :
    AllDigits (cs ++ ds) :=
  List.forall_mem_append.mpr ⟨hc, hd⟩

/-- The digits of a number other than zero begin with another digit than zero. -/
theorem head_toDigits {n : Nat} (h : n ≠ 0) : (Nat.toDigits 10 n).head? ≠ some '0' := by
  induction n using Nat.strongRecOn with
  | ind n ih =>
    rw [Nat.toDigits_eq_if (by decide)]
    split
    · rename_i hlt
      have hall : ∀ n < 10, n ≠ 0 → [n.digitChar].head? ≠ some '0' := by decide
      exact hall n hlt h
    · rename_i hge
      have hfirst := ih (n / 10) (by omega) (by omega)
      obtain ⟨c, cs, hcs⟩ := List.exists_cons_of_ne_nil (Nat.toDigits_ne_nil (n := n / 10) (b := 10))
      rw [hcs] at hfirst ⊢
      exact hfirst

/-- A decimal is written as the notation allows. -/
theorem written_ofScientific (negative : Bool) {d : Scientific} (h : d.digits ≠ 0) :
    (ofScientific negative d).Written := by
  have hdigits := allDigits_toDigits d.digits
  have hhead := head_toDigits h
  obtain ⟨c, cs, hcs⟩ := List.exists_cons_of_ne_nil (Nat.toDigits_ne_nil (n := d.digits) (b := 10))
  have htake (n : Nat) : AllDigits ((Nat.toDigits 10 d.digits).take n) :=
    fun c hc => hdigits c (List.mem_of_mem_take hc)
  have hdrop (n : Nat) : AllDigits ((Nat.toDigits 10 d.digits).drop n) :=
    fun c hc => hdigits c (List.mem_of_mem_drop hc)
  have hzero : AllDigits ['0'] := allDigits_zeros 1
  unfold ofScientific
  dsimp only
  rw [hcs] at hdigits hhead htake hdrop ⊢
  split
  · split
    · exact ⟨hdigits.append (allDigits_zeros _), List.cons_ne_nil _ _, fun _ => hhead, hzero,
        .inl rfl⟩
    · split
      · rename_i hpoint
        obtain ⟨k, hk⟩ := Nat.exists_eq_succ_of_ne_zero (Nat.ne_of_gt (Int.lt_toNat.mpr hpoint))
        rw [hk]
        exact ⟨htake _, List.cons_ne_nil _ _, fun _ => hhead, hdrop _, .inl rfl⟩
      · refine ⟨hzero, List.cons_ne_nil _ _, fun hlong => absurd hlong (Nat.lt_irrefl 1), ?_, .inl rfl⟩
        exact (allDigits_zeros _).append hdigits
  · refine ⟨htake 1, List.cons_ne_nil _ _, fun hlong => absurd hlong (Nat.lt_irrefl 1), hdrop 1, .inr ?_⟩
    refine ⟨[_], _, rfl, ?_, allDigits_toDigits _, Nat.toDigits_ne_nil⟩
    split <;> decide

theorem written_ofFloat? {x : Float} {n : Number} (h : ofFloat? x = some n) : n.Written := by
  unfold ofFloat? at h
  cases hshape : shape x with
  | nan | infinite negative =>
    rw [hshape] at h
    cases h
  | finite negative units =>
    obtain ⟨_, hunits⟩ := bits_of_shape hshape
    rw [hshape] at h
    dsimp only at h
    generalize x.toBits.toNat % (1 <<< 63) = bits at h hunits
    split at h
    · rw [← Option.some.inj h]
      exact ⟨allDigits_zeros 1, List.cons_ne_nil _ _, fun hlong => absurd hlong (Nat.lt_irrefl 1),
        allDigits_zeros 1, .inl rfl⟩
    · rename_i hne
      rw [← Option.some.inj h]
      exact written_ofScientific negative (shortest_digits_ne_zero (hunits ▸ hne))

end Number

end Reaming.Json
