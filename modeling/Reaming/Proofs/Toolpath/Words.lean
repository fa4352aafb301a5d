import Reaming.Proofs.Decimal.Order
import Reaming.Proofs.Decimal.Reread
import Reaming.Proofs.Text.Lines
import Reaming.Toolpath.Program

namespace Reaming
open Decimal

def isSpace (c : Char) : Bool := c == ' '

theorem isSpace_of_none {cs : List Char} (h : cs.any isSpace = false) :
    ∀ c ∈ cs, isSpace c = false := by
  intro c hc
  exact Bool.eq_false_iff.mpr fun hspace => Bool.false_ne_true (h.symm.trans
    (List.any_eq_true.mpr ⟨c, hc, hspace⟩))

theorem splitAt_words {code : List Char} {words : List (List Char)}
    (hcode : ∀ c ∈ code, isSpace c = false) (h : ∀ w ∈ words, ∀ c ∈ w, isSpace c = false) :
    Text.splitAt isSpace (code ++ words.flatMap (' ' :: ·)) = code :: words := by
  induction words generalizing code with
  | nil =>
    rw [List.flatMap_nil, List.append_nil]
    exact Text.splitAt_word hcode
  | cons w ws ih =>
    rw [List.flatMap_cons, List.cons_append, Text.splitAt_append hcode rfl,
      ih (h w List.mem_cons_self) fun v hv => h v (List.mem_cons_of_mem w hv)]

namespace Decimal.Thousandths

/-- The count of thousandths that a numeral stands for, if it is a whole one. -/
def ofNumeral? : Numeral → Option Thousandths
  | .nan => some .nan
  | .infinite negative => some (.infinite negative)
  | .decimal negative mantissa exponent =>
    if -3 ≤ exponent then
      some (.whole (signed negative (mantissa * 10 ^ (exponent + 3).toNat)))
    else none

def read? (text : List Char) : Option Thousandths :=
  (Numeral.read? text).bind ofNumeral?

/-- The text of a number with three places tells the number. -/
theorem read?_text (t : Thousandths) : read? t.text.toList = some t := by
  rw [read?, Decimal.read?_text]
  cases t with
  | nan => rfl
  | infinite negative => rfl
  | whole count =>
    change ofNumeral? (.decimal (decide (count < 0)) count.natAbs (-3)) = _
    rw [ofNumeral?, if_pos (Int.le_refl _)]
    congr 2
    change signed (decide (count < 0)) (count.natAbs * 1) = count
    rw [Nat.mul_one, signed]
    by_cases h : count < 0
    · simp only [h, decide_true, ↓reduceIte]
      omega
    · simp only [h, decide_false, Bool.false_eq_true, ↓reduceIte]
      omega

/-- Digits, a point and a minus, or the letters of what is no finite number. -/
theorem forall_mem_text {P : Char → Prop} (digits : ∀ c, c.isDigit = true → P c)
    (others : ∀ c ∈ ['-', '.', 'N', 'a', 'i', 'n', 'f'], P c) (t : Thousandths) :
    ∀ c ∈ t.text.toList, P c := by
  have hnames {cs : List Char} (h : cs ⊆ ['-', '.', 'N', 'a', 'i', 'n', 'f']) : ∀ c ∈ cs, P c :=
    fun c hc => others c (h hc)
  cases t with
  | nan => exact hnames (by decide)
  | infinite negative => cases negative <;> exact hnames (by decide)
  | whole count =>
    have hbody : ∀ c ∈ wholeDigits count.natAbs ++ '.' :: lastDigits count.natAbs, P c := by
      intro c hc
      rcases List.mem_append.mp hc with hc | hc
      · exact digits c (isDigit_of_mem_wholeDigits hc)
      · rcases List.mem_cons.mp hc with rfl | hc
        · exact others '.' (by decide)
        · exact digits c (isDigit_of_mem_lastDigits hc)
    intro c hc
    rw [text_whole] at hc
    split at hc
    · rcases List.mem_cons.mp hc with rfl | hc
      · exact others '-' (by decide)
      · exact hbody c hc
    · exact hbody c hc

theorem isSpace_text (t : Thousandths) : ∀ c ∈ t.text.toList, isSpace c = false := by
  refine t.forall_mem_text (fun c hc => ?_) (by simp [isSpace])
  rw [isSpace, beq_eq_false_iff_ne]
  rintro rfl
  cases hc

end Decimal.Thousandths

namespace Move

def withWord? (m : Move) : List Char → Option Move
  | 'X' :: text => (Thousandths.read? text).map fun v => { m with x := some v }
  | 'Y' :: text => (Thousandths.read? text).map fun v => { m with y := some v }
  | 'Z' :: text => (Thousandths.read? text).map fun v => { m with z := some v }
  | _ => none

def ofCode? (code : List Char) : Option Move :=
  if code = ['G', '0'] then some { rapid := true }
  else if code = ['G', '1'] then some { rapid := false }
  else none

/-- Reads a line of a program as a machine does: a code, then words for axes. -/
def read? (line : String) : Option Move :=
  match Text.splitAt isSpace line.toList with
  | [] => none
  | code :: words => (ofCode? code).bind (words.foldlM withWord?)

def code (m : Move) : List Char := if m.rapid then ['G', '0'] else ['G', '1']

def words (m : Move) : List (List Char) :=
  (m.x.map fun v => 'X' :: v.text.toList).toList ++
    (m.y.map fun v => 'Y' :: v.text.toList).toList ++
    (m.z.map fun v => 'Z' :: v.text.toList).toList

theorem line_toList (m : Move) : m.line.toList = m.code ++ m.words.flatMap (' ' :: ·) := by
  obtain ⟨rapid, x, y, z⟩ := m
  cases rapid <;> cases x <;> cases y <;> cases z <;> simp [line, code, words]

theorem isSpace_words (m : Move) : ∀ w ∈ m.words, ∀ c ∈ w, isSpace c = false := by
  have haxis {axis : Char} (h : isSpace axis = false) (v : Option Thousandths) :
      ∀ w ∈ (v.map fun v => axis :: v.text.toList).toList, ∀ c ∈ w, isSpace c = false := by
    intro w hw c hc
    obtain ⟨t, _, rfl⟩ := Option.map_eq_some_iff.mp (Option.mem_toList.mp hw)
    rcases List.mem_cons.mp hc with rfl | hc
    · exact h
    · exact t.isSpace_text c hc
  intro w hw
  rcases List.mem_append.mp hw with hw | hw
  · rcases List.mem_append.mp hw with hw | hw
    · exact haxis rfl m.x w hw
    · exact haxis rfl m.y w hw
  · exact haxis rfl m.z w hw

theorem forall_mem_line {P : Char → Prop} (digits : ∀ c, c.isDigit = true → P c)
    (others : ∀ c ∈ ['G', ' ', 'X', 'Y', 'Z', '-', '.', 'N', 'a', 'i', 'n', 'f'], P c) (m : Move) :
    ∀ c ∈ m.line.toList, P c := by
  have haxis {axis : Char} (h : P axis) (v : Option Thousandths) :
      ∀ w ∈ (v.map fun v => axis :: v.text.toList).toList, ∀ c ∈ w, P c := by
    intro w hw
    obtain ⟨t, _, rfl⟩ := Option.map_eq_some_iff.mp (Option.mem_toList.mp hw)
    exact List.forall_mem_cons.mpr ⟨h, t.forall_mem_text digits fun c hc =>
      others c ((by decide : ['-', '.', 'N', 'a', 'i', 'n', 'f'] ⊆ _) hc)⟩
  have hcode : ∀ c ∈ m.code, P c := by
    unfold code
    split <;>
      exact List.forall_mem_cons.mpr
        ⟨others 'G' (by decide), List.forall_mem_singleton.mpr (digits _ rfl)⟩
  have hwords : ∀ w ∈ m.words, ∀ c ∈ w, P c := by
    rw [words, List.forall_mem_append, List.forall_mem_append]
    exact ⟨⟨haxis (others 'X' (by decide)) m.x, haxis (others 'Y' (by decide)) m.y⟩,
      haxis (others 'Z' (by decide)) m.z⟩
  rw [line_toList, List.forall_mem_append]
  refine ⟨hcode, fun c hc => ?_⟩
  obtain ⟨w, hw, hc⟩ := List.mem_flatMap.mp hc
  rcases List.mem_cons.mp hc with rfl | hc
  · exact others ' ' (by decide)
  · exact hwords w hw c hc

theorem foldlM_words (m : Move) : m.words.foldlM withWord? { rapid := m.rapid } = some m := by
  obtain ⟨rapid, x, y, z⟩ := m
  cases x <;> cases y <;> cases z <;> simp [words, withWord?, Thousandths.read?_text]

/-- A line splits into its code and its words. -/
theorem splitAt_line (m : Move) : Text.splitAt isSpace m.line.toList = m.code :: m.words := by
  have hcode : ∀ c ∈ m.code, isSpace c = false := by
    unfold code
    split <;> exact isSpace_of_none (by decide)
  rw [line_toList, splitAt_words hcode m.isSpace_words]

/-- The machine makes the move that its line was written for. -/
theorem read?_line (m : Move) : read? m.line = some m := by
  rw [read?, splitAt_line]
  have hmove : ofCode? m.code = some { rapid := m.rapid } := by
    unfold code
    cases m.rapid <;> rfl
  change (ofCode? m.code).bind _ = _
  rw [hmove]
  exact m.foldlM_words

theorem mapM_read?_line (ms : List Move) : (ms.map line).mapM read? = some ms := by
  induction ms with
  | nil => rfl
  | cons m ms ih => rw [List.map_cons, List.mapM_cons, read?_line, ih]; rfl

end Move

end Reaming
