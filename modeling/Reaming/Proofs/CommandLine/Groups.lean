import Mathlib.Algebra.Ring.Nat
import Mathlib.Data.List.Induction
import Mathlib.Data.List.Nodup
import Reaming.Proofs.Decimal.Digits
import Reaming.CommandLine.Arguments

namespace Reaming.CommandLine
open Decimal

section index

/-- The text of an index: digits, with a plus before them or not, of a value below `2 ^ 64`. -/
structure Index (cs : List Char) (n : Nat) : Prop where
  digits : ∃ ds, (cs = ds ∨ cs = '+' :: ds) ∧ ds ≠ [] ∧ (∀ c ∈ ds, c.isDigit = true) ∧
    digitsValue ds = n
  fits : n < 2 ^ 64

theorem readDigits_eq_ok {n m : Nat} {cs : List Char} (hn : n < 2 ^ 64) :
    readDigits n cs = .ok m ↔
      (∀ c ∈ cs, c.isDigit = true) ∧ Nat.ofDigitChars 10 cs n = m ∧ m < 2 ^ 64 := by
  induction cs generalizing n with
  | nil => simp only [readDigits, Except.ok.injEq]; grind [Nat.ofDigitChars_nil]
  | cons c cs ih =>
    have hge := le_ofDigitChars (10 * n + (c.toNat - '0'.toNat)) cs
    rw [List.forall_mem_cons, Nat.ofDigitChars_cons]
    by_cases hc : c.isDigit = true
    · by_cases hnext : 10 * n + (c.toNat - '0'.toNat) < 2 ^ 64
      · have hstep : readDigits n (c :: cs) = readDigits (10 * n + (c.toNat - '0'.toNat)) cs := by
          simp only [readDigits, hc, Bool.not_true, Bool.false_eq_true, if_false]
          exact if_pos hnext
        rw [hstep, ih hnext, and_iff_right hc]
      · have hstep : readDigits n (c :: cs) = .error .tooLarge := by
          simp only [readDigits, hc, Bool.not_true, Bool.false_eq_true, if_false]
          exact if_neg hnext
        rw [hstep]
        refine iff_of_false nofun ?_
        rintro ⟨-, rfl, hfits⟩
        exact hnext (Nat.lt_of_le_of_lt hge hfits)
    · simp [readDigits, hc]

theorem readIndex_plus {ds : List Char} (ne : ds ≠ []) :
    readIndex ('+' :: ds) = readDigits 0 ds := by
  obtain ⟨d, ds, rfl⟩ := List.exists_cons_of_ne_nil ne
  rfl

theorem readIndex_bare {c : Char} {cs : List Char} (hc : c ≠ '+') :
    readIndex (c :: cs) = readDigits 0 (c :: cs) := by
  rw [readIndex]
  · exact nofun
  · exact fun h => hc (List.cons.inj h).1
  · exact fun _ h => hc (List.cons.inj h).1

theorem readIndex_eq_ok {cs : List Char} {n : Nat} : readIndex cs = .ok n ↔ Index cs n := by
  have hread (ds : List Char) : readDigits 0 ds = .ok n ↔
      (∀ c ∈ ds, c.isDigit = true) ∧ digitsValue ds = n ∧ n < 2 ^ 64 := by
    rw [digitsValue_eq]
    exact readDigits_eq_ok (by decide)
  constructor
  · intro h
    match cs, h with
    | c :: cs, h =>
      by_cases hc : c = '+'
      · subst hc
        have hne : cs ≠ [] := by rintro rfl; cases h
        obtain ⟨hdigits, hvalue, hfits⟩ := (hread cs).mp (readIndex_plus hne ▸ h)
        exact ⟨⟨cs, .inr rfl, hne, hdigits, hvalue⟩, hfits⟩
      · obtain ⟨hdigits, hvalue, hfits⟩ := (hread (c :: cs)).mp (readIndex_bare hc ▸ h)
        exact ⟨⟨c :: cs, .inl rfl, List.cons_ne_nil c cs, hdigits, hvalue⟩, hfits⟩
  · rintro ⟨⟨ds, hcs, ne, hdigits, hvalue⟩, hfits⟩
    have hds := (hread ds).mpr ⟨hdigits, hvalue, hfits⟩
    rcases hcs with rfl | rfl
    · obtain ⟨d, ds, rfl⟩ := List.exists_cons_of_ne_nil ne
      have hd : d ≠ '+' := by
        rintro rfl
        exact absurd (hdigits '+' List.mem_cons_self) (by decide)
      rwa [readIndex_bare hd]
    · rwa [readIndex_plus ne]

theorem Index.unique {cs : List Char} {n m : Nat} (h : Index cs n) (h' : Index cs m) : n = m :=
  Except.ok.inj ((readIndex_eq_ok.mpr h).symm.trans (readIndex_eq_ok.mpr h'))

end index

def height? (raw : String) : Option Float := (Numeral.read? raw.toList).map Numeral.toFloat

def Flag.Reads : Flag → String → Prop
  | .path, raw => ∃ n, Index raw.toList n
  | .floorHeight, raw => ∃ x, height? raw = some x
  | .out, _ | .settings, _ => True

/-- Arguments that are read together: a flag with the argument behind it, or a drawing. -/
inductive Group where
  | option (flag : Flag) (value : String)
  | drawing (path : String)
  deriving DecidableEq, Repr

namespace Group

def words : Group → List String
  | .option flag value => [flag.text, value]
  | .drawing path => [path]

/-- Anything at all may stand behind a flag, but a drawing does not start with two dashes. -/
def Plain : Group → Prop
  | .option _ _ => True
  | .drawing path => path.startsWith "--" = false

def Readable : Group → Prop
  | .option flag value => flag.Reads value
  | .drawing _ => True

def flag? : Group → Option Flag
  | .option flag _ => some flag
  | .drawing _ => none

def value? (flag : Flag) : Group → Option String
  | .option f value => if f = flag then some value else none
  | .drawing _ => none

def path? : Group → Option String
  | .option _ _ => none
  | .drawing path => some path

end Group

variable {groups groups' : List Group}

def written (groups : List Group) : List String := groups.flatMap Group.words

def values (flag : Flag) (groups : List Group) : List String := groups.filterMap (Group.value? flag)

def drawings (groups : List Group) : List String := groups.filterMap Group.path?

structure Accepted (groups : List Group) : Prop where
  plain : ∀ g ∈ groups, g.Plain
  readable : ∀ g ∈ groups, g.Readable
  drawing : (drawings groups).length = 1

/-- The last value of each flag counts, and there is no second drawing. -/
structure Gathered (groups : List Group) (o : Collected) : Prop where
  drawing : drawings groups = o.drawing.toList
  pathIndex : match (values .path groups).getLast? with
    | some raw => Index raw.toList o.pathIndex
    | none => o.pathIndex = 0
  floorHeight : o.floorHeight = (values .floorHeight groups).getLast?.bind height?
  out : o.out = (values .out groups).getLast?
  settings : o.settings = (values .settings groups).getLast?

section splitting

theorem Flag.ofText?_text (flag : Flag) : Flag.ofText? flag.text = some flag := by
  cases flag <;> decide

theorem Flag.text_of_ofText? {arg : String} {flag : Flag} (h : Flag.ofText? arg = some flag) :
    flag.text = arg := by
  simpa using List.find?_some h

theorem Flag.startsWith_text (flag : Flag) : flag.text.startsWith "--" = true := by
  cases flag <;> simp [Flag.text]

theorem Flag.text_ne {arg : String} (h : arg.startsWith "--" = false) (flag : Flag) :
    flag.text ≠ arg := by
  rintro rfl
  exact Bool.false_ne_true (h.symm.trans flag.startsWith_text)

theorem Flag.ofText?_plain {arg : String} (h : arg.startsWith "--" = false) :
    Flag.ofText? arg = none :=
  Option.eq_none_iff_forall_ne_some.mpr fun flag hflag =>
    Flag.text_ne h flag (Flag.text_of_ofText? hflag)

def Collected.take (o : Collected) : Group → Except ArgumentError Collected
  | .option flag value => o.set flag value
  | .drawing path =>
    if o.drawing.isSome then .error .secondDrawing else .ok { o with drawing := some path }

theorem collect_words {g : Group} (plain : g.Plain) (o : Collected) (args : List String) :
    collect o (g.words ++ args) = o.take g >>= (collect · args) := by
  cases g with
  | option flag value =>
    rw [Group.words, List.cons_append, collect]
    simp only [Flag.ofText?_text, List.cons_append, List.nil_append]
    rw [Collected.take]
    cases o.set flag value <;> rfl
  | drawing path =>
    have hdash : path.startsWith "--" = false := plain
    rw [Group.words, List.cons_append, collect, Collected.take]
    simp only [Flag.ofText?_plain hdash, hdash, List.nil_append]
    cases o.drawing <;> rfl

/-- Arguments are read group by group. -/
theorem collect_written (plain : ∀ g ∈ groups, g.Plain) (o : Collected) :
    collect o (written groups) = groups.foldlM Collected.take o := by
  induction groups generalizing o with
  | nil => rfl
  | cons g groups ih =>
    rw [List.forall_mem_cons] at plain
    rw [written, List.flatMap_cons, collect_words plain.1, List.foldlM_cons]
    congr 1
    funext o
    exact ih plain.2 o

/-- What is not refused is made of groups. -/
theorem exists_groups {o o' : Collected} {args : List String} (h : collect o args = .ok o') :
    ∃ groups, written groups = args ∧ ∀ g ∈ groups, g.Plain := by
  fun_induction collect o args with
  | case1 => exact ⟨[], rfl, nofun⟩
  | case2 => cases h
  | case3 o arg flag hflag raw args o₁ hset ih =>
    obtain ⟨groups, rfl, plain⟩ := ih h
    rw [← Flag.text_of_ofText? hflag]
    exact ⟨.option flag raw :: groups, rfl, List.forall_mem_cons.mpr ⟨trivial, plain⟩⟩
  | case4 => cases h
  | case5 => cases h
  | case6 => cases h
  | case7 o arg args _ hdash _ ih =>
    obtain ⟨groups, rfl, plain⟩ := ih h
    have hplain : arg.startsWith "--" = false := Bool.eq_false_iff.mpr hdash
    exact ⟨.drawing arg :: groups, rfl, List.forall_mem_cons.mpr ⟨hplain, plain⟩⟩

/-- The first argument tells how many belong together, so the groups and what is behind them are
settled by the arguments. -/
theorem words_append_injective {g g' : Group} (plain : g.Plain) (plain' : g'.Plain)
    {args args' : List String} (h : g.words ++ args = g'.words ++ args') :
    g = g' ∧ args = args' := by
  cases g with
  | option flag value =>
    cases g' with
    | option flag' value' =>
      obtain ⟨htext, hvalue, hargs⟩ : flag.text = flag'.text ∧ value = value' ∧ args = args' := by
        simpa [Group.words] using h
      have hflag := Flag.ofText?_text flag
      rw [htext, Flag.ofText?_text, Option.some.injEq] at hflag
      rw [hflag, hvalue]
      exact ⟨rfl, hargs⟩
    | drawing path => exact absurd (List.cons.inj h).1 (Flag.text_ne plain' flag)
  | drawing path =>
    cases g' with
    | option flag value => exact absurd (List.cons.inj h).1.symm (Flag.text_ne plain flag)
    | drawing path' =>
      obtain ⟨hpath, hargs⟩ := List.cons.inj h
      exact ⟨congrArg Group.drawing hpath, hargs⟩

/-- Arguments are made of plain groups in one way only. -/
theorem written_injective (plain : ∀ g ∈ groups, g.Plain) (plain' : ∀ g ∈ groups', g.Plain)
    (h : written groups = written groups') : groups = groups' := by
  have hne (g : Group) (gs : List Group) : written (g :: gs) ≠ [] := by cases g <;> exact nofun
  induction groups generalizing groups' with
  | nil =>
    cases groups' with
    | nil => rfl
    | cons g' groups' => exact absurd h.symm (hne g' groups')
  | cons g groups ih =>
    cases groups' with
    | nil => exact absurd h (hne g groups)
    | cons g' groups' =>
      rw [List.forall_mem_cons] at plain plain'
      obtain ⟨rfl, hrest⟩ := words_append_injective plain.1 plain'.1 h
      rw [ih plain.2 plain'.2 hrest]

end splitting

section gathering

variable {o o' : Collected}

theorem values_concat (flag : Flag) (groups : List Group) (g : Group) :
    values flag (groups ++ [g]) = values flag groups ++ (g.value? flag).toList := by
  rw [values, List.filterMap_append]
  cases hg : g.value? flag <;> simp [hg, values]

theorem drawings_concat (groups : List Group) (g : Group) :
    drawings (groups ++ [g]) = drawings groups ++ g.path?.toList := by
  rw [drawings, List.filterMap_append]
  cases hg : g.path? <;> simp [hg, drawings]

theorem gathered_nil : Gathered [] {} where
  drawing := rfl
  pathIndex := rfl
  floorHeight := rfl
  out := rfl
  settings := rfl

/-- One more group is gathered with those before it. -/
theorem Gathered.take {g : Group} (h : Gathered groups o) (ok : o.take g = .ok o') :
    g.Readable ∧ Gathered (groups ++ [g]) o' := by
  obtain ⟨drawing, pathIndex, floorHeight, out, settings⟩ := h
  cases g with
  | drawing path =>
    cases hdrawing : o.drawing with
    | some _ => simp [Collected.take, hdrawing] at ok
    | none =>
      obtain rfl : { o with drawing := some path } = o' := by
        simpa [Collected.take, hdrawing] using ok
      refine ⟨trivial, ?_⟩
      constructor <;> simp [drawings_concat, values_concat, Group.path?, Group.value?, *]
  | option flag value =>
    cases flag with
    | path =>
      cases hread : readIndex value.toList with
      | error _ => simp [Collected.take, Collected.set, hread] at ok
      | ok n =>
        obtain rfl : { o with pathIndex := n } = o' := by
          simpa [Collected.take, Collected.set, hread] using ok
        have hindex := readIndex_eq_ok.mp hread
        refine ⟨⟨n, hindex⟩, ?_⟩
        constructor <;> simp [drawings_concat, values_concat, Group.path?, Group.value?, *]
    | floorHeight =>
      cases hread : Numeral.read? value.toList with
      | none => simp [Collected.take, Collected.set, hread] at ok
      | some n =>
        obtain rfl : { o with floorHeight := some n.toFloat } = o' := by
          simpa [Collected.take, Collected.set, hread] using ok
        have hheight : height? value = some n.toFloat := by rw [height?, hread, Option.map_some]
        refine ⟨⟨n.toFloat, hheight⟩, ?_⟩
        constructor <;> simp [drawings_concat, values_concat, Group.path?, Group.value?, *]
    | out | settings =>
      obtain rfl := Except.ok.inj ok
      refine ⟨trivial, ?_⟩
      constructor <;> simp [drawings_concat, values_concat, Group.path?, Group.value?, *]

/-- A group is taken if its value reads and it brings no second drawing. -/
theorem exists_take {g : Group} (readable : g.Readable)
    (first : g.path? = none ∨ o.drawing = none) : ∃ o', o.take g = .ok o' := by
  cases g with
  | drawing path =>
    have hdrawing := first.resolve_left (Option.some_ne_none path)
    exact ⟨{ o with drawing := some path }, by simp [Collected.take, hdrawing]⟩
  | option flag value =>
    cases flag with
    | path =>
      obtain ⟨n, hindex⟩ := readable
      exact ⟨{ o with pathIndex := n }, by
        simp [Collected.take, Collected.set, readIndex_eq_ok.mpr hindex]⟩
    | floorHeight =>
      obtain ⟨x, hheight⟩ := readable
      obtain ⟨n, hread, rfl⟩ := Option.map_eq_some_iff.mp hheight
      exact ⟨{ o with floorHeight := some n.toFloat }, by
        simp [Collected.take, Collected.set, hread]⟩
    | out => exact ⟨{ o with out := some value }, rfl⟩
    | settings => exact ⟨{ o with settings := some value }, rfl⟩

theorem foldlM_concat (groups : List Group) (g : Group) (o : Collected) :
    (groups ++ [g]).foldlM Collected.take o = groups.foldlM Collected.take o >>= (·.take g) := by
  simp [List.foldlM_append]

theorem gathered_of_foldlM (h : groups.foldlM Collected.take {} = .ok o) :
    (∀ g ∈ groups, g.Readable) ∧ Gathered groups o := by
  -- From the right, since it is the last group that replaces what those before it have left.
  induction groups using List.reverseRecOn generalizing o with
  | nil =>
    obtain rfl := Except.ok.inj h
    exact ⟨nofun, gathered_nil⟩
  | append_singleton groups g ih =>
    rw [foldlM_concat] at h
    cases hbefore : groups.foldlM Collected.take {} with
    | error e =>
      rw [hbefore] at h
      cases h
    | ok o₁ =>
      rw [hbefore] at h
      obtain ⟨readable, gathered⟩ := ih hbefore
      obtain ⟨hg, hgathered⟩ := gathered.take h
      exact ⟨List.forall_mem_append.mpr ⟨readable, List.forall_mem_singleton.mpr hg⟩, hgathered⟩

theorem exists_foldlM (readable : ∀ g ∈ groups, g.Readable) (one : (drawings groups).length ≤ 1) :
    ∃ o, groups.foldlM Collected.take {} = .ok o := by
  induction groups using List.reverseRecOn with
  | nil => exact ⟨{}, rfl⟩
  | append_singleton groups g ih =>
    rw [List.forall_mem_append, List.forall_mem_singleton] at readable
    rw [drawings_concat, List.length_append] at one
    obtain ⟨o, hbefore⟩ := ih readable.1 (by omega)
    have hdrawing := (gathered_of_foldlM hbefore).2.drawing
    have hfirst : g.path? = none ∨ o.drawing = none := by
      rw [hdrawing] at one
      cases hg : g.path? <;> cases ho : o.drawing <;> simp [hg, ho] at one ⊢
    rw [foldlM_concat, hbefore]
    exact exists_take readable.2 hfirst

/-- What groups leave is settled by the groups. -/
theorem Gathered.unique (h : Gathered groups o) (h' : Gathered groups o') : o = o' := by
  have hdrawing : o.drawing = o'.drawing := by
    have hheads := congrArg List.head? (h.drawing.symm.trans h'.drawing)
    rwa [Option.head?_toList, Option.head?_toList] at hheads
  have hindex : o.pathIndex = o'.pathIndex := by
    have hleft := h.pathIndex
    have hright := h'.pathIndex
    cases hlast : (values .path groups).getLast? with
    | none =>
      rw [hlast] at hleft hright
      exact hleft.trans hright.symm
    | some raw =>
      rw [hlast] at hleft hright
      exact hleft.unique hright
  have hheight := h.floorHeight.trans h'.floorHeight.symm
  have hout := h.out.trans h'.out.symm
  have hsettings := h.settings.trans h'.settings.symm
  cases o
  cases o'
  simp_all

end gathering

section order

def given (groups : List Group) : List Flag := groups.filterMap Group.flag?

theorem count_given (flag : Flag) (groups : List Group) :
    (given groups).count flag = (values flag groups).length := by
  induction groups with
  | nil => rfl
  | cons g groups ih =>
    cases g with
    | drawing _ => exact ih
    | option f value =>
      by_cases hf : f = flag <;>
        simp_all [given, values, Group.flag?, Group.value?]

theorem eq_of_perm_of_length_le_one {xs ys : List String} (h : xs.Perm ys) (one : xs.length ≤ 1) :
    xs = ys := by
  match xs, one with
  | [], _ => exact h.nil_eq
  | [x], _ => exact h.singleton_eq

/-- With at most one value for each flag, the order of the groups does not count. -/
theorem Gathered.perm {o : Collected} (h : Gathered groups o) (distinct : (given groups).Nodup)
    (perm : groups.Perm groups') : Gathered groups' o := by
  have hvalues (flag : Flag) : values flag groups = values flag groups' := by
    refine eq_of_perm_of_length_le_one (perm.filterMap _) ?_
    rw [← count_given]
    exact List.nodup_iff_count_le_one.mp distinct flag
  have hdrawings : drawings groups = drawings groups' := by
    refine eq_of_perm_of_length_le_one (perm.filterMap _) ?_
    rw [h.drawing]
    exact Option.length_toList_le
  obtain ⟨drawing, pathIndex, floorHeight, out, settings⟩ := h
  rw [hdrawings] at drawing
  rw [hvalues] at pathIndex floorHeight out settings
  exact ⟨drawing, pathIndex, floorHeight, out, settings⟩

end order

def Options.collected (o : Options) : Collected :=
  ⟨some o.drawing, o.pathIndex, o.floorHeight, o.out, o.settings⟩

theorem ofArguments_eq_ok {args : List String} {o : Options} :
    Options.ofArguments args = .ok o ↔ collect {} args = .ok o.collected := by
  rw [Options.ofArguments]
  cases hcollect : collect {} args with
  | error e => exact iff_of_false nofun nofun
  | ok c =>
    obtain ⟨drawing, pathIndex, floorHeight, out, settings⟩ := c
    cases o
    cases drawing <;> simp [Options.collected, bind, Except.bind, pure, Except.pure]

/-- What the arguments of plain groups come to. -/
theorem ofArguments_written (plain : ∀ g ∈ groups, g.Plain) {o : Options} :
    Options.ofArguments (written groups) = .ok o ↔
      (∀ g ∈ groups, g.Readable) ∧ Gathered groups o.collected := by
  rw [ofArguments_eq_ok, collect_written plain]
  constructor
  · exact gathered_of_foldlM
  · rintro ⟨readable, gathered⟩
    have hone : (drawings groups).length ≤ 1 := by
      rw [gathered.drawing]
      exact Option.length_toList_le
    obtain ⟨c, hfold⟩ := exists_foldlM readable hone
    rw [hfold, (gathered_of_foldlM hfold).2.unique gathered]

theorem Accepted.exists_options (h : Accepted groups) :
    ∃ o, Options.ofArguments (written groups) = .ok o := by
  obtain ⟨c, hfold⟩ := exists_foldlM h.readable (Nat.le_of_eq h.drawing)
  have hgathered := (gathered_of_foldlM hfold).2
  obtain ⟨drawing, hdrawing⟩ : ∃ drawing, c.drawing = some drawing := by
    have hone := h.drawing
    rw [hgathered.drawing] at hone
    cases hc : c.drawing <;> simp_all
  refine ⟨⟨drawing, c.pathIndex, c.floorHeight, c.out, c.settings⟩, ?_⟩
  rw [ofArguments_eq_ok, collect_written h.plain, hfold, Options.collected, ← hdrawing]

/-- Arguments are taken exactly if they are made of groups with one drawing among them, each value
one that its flag reads. The last value of each flag counts, and where no flag comes twice the
groups may stand in any order. -/
theorem ofArguments_groups (args : List String) :
    ((∃ o, Options.ofArguments args = .ok o) ↔
      ∃ groups, written groups = args ∧ Accepted groups) ∧
    (∀ groups groups', (∀ g ∈ groups, g.Plain) → (∀ g ∈ groups', g.Plain) →
      written groups = args → written groups' = args → groups = groups') ∧
    (∀ o groups, Options.ofArguments args = .ok o → written groups = args →
      (∀ g ∈ groups, g.Plain) → Accepted groups ∧ Gathered groups o.collected) ∧
    ∀ o groups groups', Options.ofArguments args = .ok o → written groups = args →
      (∀ g ∈ groups, g.Plain) → (given groups).Nodup → groups.Perm groups' →
      Options.ofArguments (written groups') = .ok o := by
  have answer {o : Options} {groups : List Group} (ok : Options.ofArguments args = .ok o)
      (split : written groups = args) (plain : ∀ g ∈ groups, g.Plain) :
      Accepted groups ∧ Gathered groups o.collected := by
    subst split
    obtain ⟨readable, gathered⟩ := (ofArguments_written plain).mp ok
    refine ⟨⟨plain, readable, ?_⟩, gathered⟩
    rw [gathered.drawing]
    rfl
  refine ⟨⟨?_, ?_⟩, ?_, fun o groups => answer, ?_⟩
  · rintro ⟨o, ok⟩
    obtain ⟨groups, split, plain⟩ := exists_groups (ofArguments_eq_ok.mp ok)
    exact ⟨groups, split, (answer ok split plain).1⟩
  · rintro ⟨groups, rfl, accepted⟩
    exact accepted.exists_options
  · intro groups groups' plain plain' split split'
    exact written_injective plain plain' (split.trans split'.symm)
  · intro o groups groups' ok split plain distinct perm
    obtain ⟨accepted, gathered⟩ := answer ok split plain
    rw [ofArguments_written fun g hg => plain g (perm.mem_iff.mpr hg)]
    exact ⟨fun g hg => accepted.readable g (perm.mem_iff.mpr hg), gathered.perm distinct perm⟩

/-- A value that looks like a flag is a value, wherever its group stands. -/
theorem ofArguments_groups_flaglike :
    ∃ o, Options.ofArguments ["--out", "--path", "a.svg", "--path", "+12"] = .ok o ∧
      Options.ofArguments ["--path", "+12", "a.svg", "--out", "--path"] = .ok o ∧
      o.drawing = "a.svg" ∧ o.pathIndex = 12 ∧ o.out = some "--path" := by
  have h := ofArguments_groups ["--out", "--path", "a.svg", "--path", "+12"]
  have hindex : Index "+12".toList 12 :=
    ⟨⟨['1', '2'], .inr rfl, by simp, by simp, by decide⟩, by decide⟩
  have haccepted :
      Accepted [.option .out "--path", .drawing "a.svg", .option .path "+12"] := by
    refine ⟨?_, ?_, rfl⟩
    · simp [Group.Plain]
    · simpa [Group.Readable, Flag.Reads] using ⟨12, hindex⟩
  obtain ⟨o, ok⟩ := h.1.mpr ⟨_, rfl, haccepted⟩
  obtain ⟨-, hgathered⟩ := h.2.2.1 o _ ok rfl haccepted.plain
  have hturned := h.2.2.2 o _ _ ok rfl haccepted.plain (by decide) (List.reverse_perm _).symm
  exact ⟨o, ok, hturned, (List.cons.inj hgathered.drawing).1.symm,
    Index.unique hgathered.pathIndex hindex, hgathered.out⟩

end Reaming.CommandLine
