import Reaming.Drawing.Document
import Reaming.Proofs.Drawing.Dimension
import Reaming.Proofs.PathData.Steps

namespace Reaming
open Dimension

/-- The declared size that cannot be read: the width, or the height if the width can be. -/
def Scan.Unreadable (scan : Scan) (name value : String) : Prop :=
  (name = "width" ∧ scan.width = some value ∧ Numberless value) ∨
  (name = "height" ∧ scan.height = some value ∧ Numberless value ∧
    ∀ width, scan.width = some width → ¬ Numberless width)

variable {α : Type} [Scalar α]

theorem Units.ofSuffix_ne_undefined (unit : Option String) : Units.ofSuffix unit ≠ .undefined := by
  unfold Units.ofSuffix
  split <;> nofun

namespace Size

/-- A size that is declared is not read exactly if its text has no number. -/
theorem map_read_error_iff (name value : String) (set : α × Option String → Size α)
    (e : LoadError) : (Dimension.read name value).map set = .error e ↔
      Numberless value ∧ e = .dimension name value := by
  rw [← read_error_iff (α := α)]
  cases (Dimension.read name value : Except LoadError (α × Option String)) with
  | error e' =>
    change Except.error e' = Except.error e ↔ _
    rw [Except.error.injEq, Except.error.injEq]
  | ok found => exact ⟨nofun, nofun⟩

theorem withWidth_some (s : Size α) (value : String) : s.withWidth (some value) =
    (Dimension.read "width" value).map fun found =>
      { s with width := found.1, units := .ofSuffix found.2 } := by
  rw [withWidth]
  cases (Dimension.read "width" value : Except LoadError (α × Option String)) <;> rfl

theorem withHeight_some (s : Size α) (value : String) : s.withHeight (some value) =
    (Dimension.read "height" value).map fun found => { s with height := found.1 } := by
  rw [withHeight]
  cases (Dimension.read "height" value : Except LoadError (α × Option String)) <;> rfl

theorem withWidth_error_iff (s : Size α) (declared : Option String) (e : LoadError) :
    s.withWidth declared = .error e ↔
      ∃ value, declared = some value ∧ Numberless value ∧ e = .dimension "width" value := by
  cases declared with
  | none => exact ⟨nofun, nofun⟩
  | some value => simp [withWidth_some, map_read_error_iff]

theorem withHeight_error_iff (s : Size α) (declared : Option String) (e : LoadError) :
    s.withHeight declared = .error e ↔
      ∃ value, declared = some value ∧ Numberless value ∧ e = .dimension "height" value := by
  cases declared with
  | none => exact ⟨nofun, nofun⟩
  | some value => simp [withHeight_some, map_read_error_iff]

theorem withViewBox_some (s : Size α) (value : String) : s.withViewBox (some value) =
    (ViewBox.read value).bind fun box =>
      if s.units = .undefined then .ok { s with width := box.width, height := box.height }
      else if box.width == 0.0 then .error (.viewBox value)
      else .ok { s with scale := s.width / box.width } := rfl

/-- A view box sets the width and height of a drawing without a unit only. -/
theorem withViewBox_cases (s : Size α) (declared : Option String) :
    (∃ value, s.withViewBox declared = .error (.viewBox value)) ∨
    ∃ s', s.withViewBox declared = .ok s' ∧ s'.units = s.units ∧
      (s.units ≠ .undefined → s'.width = s.width ∧ s'.height = s.height) := by
  cases declared with
  | none => exact .inr ⟨s, rfl, rfl, fun _ => ⟨rfl, rfl⟩⟩
  | some value =>
    rw [withViewBox_some, ViewBox.read]
    split
    · rename_i box _
      rw [Except.bind]
      split
      · rename_i hunits
        exact .inr ⟨_, rfl, rfl, fun h => absurd hunits h⟩
      · split
        · exact .inl ⟨value, rfl⟩
        · exact .inr ⟨_, rfl, rfl, fun _ => ⟨rfl, rfl⟩⟩
    · exact .inl ⟨value, rfl⟩

theorem withWidth_ok {s s' : Size α} {value : String} (h : s.withWidth (some value) = .ok s') :
    ∃ unit, Dimension.read "width" value = .ok (s'.width, unit) ∧ s'.units = .ofSuffix unit := by
  rw [withWidth_some] at h
  obtain ⟨found, hread, rfl⟩ := exists_of_map_ok h
  exact ⟨found.2, hread, rfl⟩

theorem withHeight_ok {s s' : Size α} {declared : Option String}
    (h : s.withHeight declared = .ok s') : s'.width = s.width ∧ s'.units = s.units := by
  cases declared with
  | none =>
    cases h
    exact ⟨rfl, rfl⟩
  | some value =>
    rw [withHeight_some] at h
    obtain ⟨found, _, rfl⟩ := exists_of_map_ok h
    exact ⟨rfl, rfl⟩

theorem ofScan_eq (scan : Scan) : (ofScan scan : Except LoadError (Size α)) =
    (undeclared.withWidth scan.width).bind fun s =>
      (s.withHeight scan.height).bind (·.withViewBox scan.viewBox) := rfl

/-- What can come of the declared size of a drawing. -/
theorem ofScan_cases (scan : Scan) :
    (∃ name value, scan.Unreadable name value ∧
      (ofScan scan : Except LoadError (Size α)) = .error (.dimension name value)) ∨
    ((∀ name value, ¬ scan.Unreadable name value) ∧
      ((∃ value, (ofScan scan : Except LoadError (Size α)) = .error (.viewBox value)) ∨
        ∃ size : Size α, ofScan scan = .ok size ∧ ∀ value, scan.width = some value →
          ∃ unit, Dimension.read "width" value = .ok (size.width, unit) ∧
            size.units = .ofSuffix unit)) := by
  have hwidth := withWidth_error_iff (undeclared : Size α) scan.width
  cases hw : (undeclared : Size α).withWidth scan.width with
  | error e =>
    obtain ⟨value, declared, none, rfl⟩ := (hwidth e).mp hw
    refine .inl ⟨"width", value, .inl ⟨rfl, declared, none⟩, ?_⟩
    rw [ofScan_eq, hw]
    rfl
  | ok s =>
    have hs : ofScan scan = (s.withHeight scan.height).bind (·.withViewBox scan.viewBox) := by
      rw [ofScan_eq, hw]
      rfl
    have hreadable (value : String) (declared : scan.width = some value) : ¬ Numberless value := by
      intro none
      have herror := (hwidth _).mpr ⟨value, declared, none, rfl⟩
      rw [hw] at herror
      cases herror
    have hheight := s.withHeight_error_iff scan.height
    cases hh : s.withHeight scan.height with
    | error e =>
      obtain ⟨value, declared, none, rfl⟩ := (hheight e).mp hh
      refine .inl ⟨"height", value, .inr ⟨rfl, declared, none, hreadable⟩, ?_⟩
      rw [hs, hh]
      rfl
    | ok s' =>
      have hs' : ofScan scan = s'.withViewBox scan.viewBox := by
        rw [hs, hh]
        rfl
      refine .inr ⟨?_, ?_⟩
      · rintro name value (⟨_, declared, none⟩ | ⟨_, declared, none, _⟩)
        · exact hreadable value declared none
        · have herror := (hheight _).mpr ⟨value, declared, none, rfl⟩
          rw [hh] at herror
          cases herror
      · rw [hs']
        rcases s'.withViewBox_cases scan.viewBox with hbox | ⟨size, hsize, hunits, hkept⟩
        · exact .inl hbox
        · refine .inr ⟨size, hsize, fun value declared => ?_⟩
          rw [declared] at hw
          obtain ⟨unit, hread, hset⟩ := withWidth_ok hw
          obtain ⟨hsame, hunit⟩ := withHeight_ok hh
          have hdeclared : s'.units = .ofSuffix unit := hunit.trans hset
          obtain ⟨hkeep, _⟩ := hkept (hdeclared ▸ Units.ofSuffix_ne_undefined unit)
          refine ⟨unit, ?_, hunits.trans hdeclared⟩
          rw [hkeep, hsame]
          exact hread

end Size

theorem Scan.Unreadable.unique {scan : Scan} {name value name' value' : String}
    (h : scan.Unreadable name value) (h' : scan.Unreadable name' value') :
    name = name' ∧ value = value' := by
  rcases h with ⟨rfl, hw, none⟩ | ⟨rfl, hh, none, hwidth⟩
  · rcases h' with ⟨rfl, hw', _⟩ | ⟨_, _, _, hwidth'⟩
    · exact ⟨rfl, Option.some.inj (hw.symm.trans hw')⟩
    · exact absurd none (hwidth' value hw)
  · rcases h' with ⟨_, hw', none'⟩ | ⟨rfl, hh', _, _⟩
    · exact absurd none' (hwidth value' hw')
    · exact ⟨rfl, Option.some.inj (hh.symm.trans hh')⟩

theorem readPaths_error {ds : List String} {e : LoadError}
    (h : (readPaths ds : Except LoadError (List (Path α))) = .error e) :
    ∃ why, e = .pathData why := by
  induction ds with
  | nil => cases h
  | cons d ds ih =>
    rw [readPaths] at h
    cases hd : (PathData.read d : Except _ (List (Path α))) with
    | error why =>
      rw [hd] at h
      cases h
      exact ⟨why, rfl⟩
    | ok ps =>
      rw [hd] at h
      cases hds : (readPaths ds : Except _ (List (Path α))) with
      | error e' =>
        rw [hds] at h
        cases h
        exact ih hds
      | ok qs =>
        rw [hds] at h
        cases h

namespace Document

theorem ofScan_bind (policy : AreaPolicy) (scan : Scan) :
    (ofScan policy scan : Except LoadError (Document α)) = (Size.ofScan scan).bind fun size =>
      (readPaths scan.pathData).bind fun paths => .ok (ofPaths size policy paths) := rfl

section loaded

variable {scan : Scan} {text : Markup.Bytes} (hscan : Scan.ofBytes? text = some scan)
  (d : Document α) (policy : AreaPolicy)
include hscan

theorem load_of_error {e : LoadError}
    (h : (ofScan policy scan : Except _ (Document α)) = .error e) :
    d.load policy text = (d, some e) := by
  simp [load, ofBytes, hscan, h]

theorem load_of_ok {doc : Document α} (h : ofScan policy scan = .ok doc) :
    d.load policy text = (doc, none) := by
  simp [load, ofBytes, hscan, h]

/-- What can come of loading a drawing, as far as its declared size goes. -/
theorem load_declared :
    (∃ name value, scan.Unreadable name value ∧
      d.load policy text = (d, some (.dimension name value))) ∨
    ((∀ name value, ¬ scan.Unreadable name value) ∧
      ((∃ e, d.load policy text = (d, some e) ∧ ∀ name value, e ≠ .dimension name value) ∨
        ∃ doc, d.load policy text = (doc, none) ∧ ∀ value, scan.width = some value →
          ∃ unit, Dimension.read "width" value = .ok (doc.width, unit) ∧
            doc.units = .ofSuffix unit)) := by
  have hbind := ofScan_bind (α := α) policy scan
  rcases Size.ofScan_cases (α := α) scan with
    ⟨name, value, unreadable, herror⟩ | ⟨readable, ⟨value, herror⟩ | ⟨size, hsize, hwidth⟩⟩
  · rw [herror] at hbind
    exact .inl ⟨name, value, unreadable, load_of_error hscan d policy hbind⟩
  · rw [herror] at hbind
    exact .inr ⟨readable, .inl ⟨_, load_of_error hscan d policy hbind, nofun⟩⟩
  · refine .inr ⟨readable, ?_⟩
    rw [hsize] at hbind
    cases hpaths : (readPaths scan.pathData : Except _ (List (Path α))) with
    | error e =>
      obtain ⟨why, rfl⟩ := readPaths_error hpaths
      rw [hpaths] at hbind
      exact .inl ⟨_, load_of_error hscan d policy hbind, nofun⟩
    | ok paths =>
      rw [hpaths] at hbind
      exact .inr ⟨_, load_of_ok hscan d policy hbind, hwidth⟩

end loaded

end Document

/-- A declared width or height is read at the first number anywhere in its text, as long as it
goes, with the unit behind it if there is one. So a text that is a number with or without a unit is
read for what it says, and a text without a digit is refused; but any other text is read as well,
for a number somewhere in it. A drawing fails to load for its size exactly if the width has no
digit, or else the height; loaded, it has the width and the unit that were found. -/
theorem load_dimension :
    (∀ name value : String,
      (∀ n unit, Whole (lowered value) n unit →
        Dimension.read name value = .ok ((Scalar.ofNumeral n : α), unit)) ∧
      (∀ (x : α) unit, Dimension.read name value = .ok (x, unit) ↔
        ∃ n, Found (lowered value) n unit ∧ x = Scalar.ofNumeral n) ∧
      (∀ e, (Dimension.read name value : Except LoadError (α × Option String)) = .error e ↔
        Numberless value ∧ e = .dimension name value) ∧
      (((∀ n unit, ¬ Whole (lowered value) n unit) →
          (Dimension.read name value : Except LoadError (α × Option String)) =
            .error (.dimension name value)) ↔
        (∃ n unit, Whole (lowered value) n unit) ∨ Numberless value)) ∧
    ∀ (d : Document α) (policy : AreaPolicy) (text : Markup.Bytes) (scan : Scan),
      Scan.ofBytes? text = some scan →
      (∀ name value, d.load policy text = (d, some (.dimension name value)) ↔
        scan.Unreadable name value) ∧
      ∀ doc value, d.load policy text = (doc, none) → scan.width = some value →
        ∃ unit, Dimension.read "width" value = .ok (doc.width, unit) ∧
          doc.units = .ofSuffix unit := by
  constructor
  · intro name value
    refine ⟨fun n unit h => read_whole name h, read_ok_iff name value, read_error_iff name value,
      ?_⟩
    simp only [read_error_iff, and_true, imp_iff_not_or, not_forall, not_not]
  · intro d policy text scan hscan
    rcases Document.load_declared hscan d policy with
      ⟨name, value, unreadable, hload⟩ | ⟨readable, ⟨e, hload, other⟩ | ⟨doc, hload, hwidth⟩⟩
    · rw [hload]
      refine ⟨fun name' value' => ⟨fun h => ?_, fun h => ?_⟩, nofun⟩
      · cases h
        exact unreadable
      · obtain ⟨rfl, rfl⟩ := unreadable.unique h
        rfl
    · rw [hload]
      refine ⟨fun name' value' => ⟨fun h => ?_, fun h => absurd h (readable _ _)⟩, nofun⟩
      cases h
      exact absurd rfl (other _ _)
    · rw [hload]
      refine ⟨fun name' value' => ⟨nofun, fun h => absurd h (readable _ _)⟩, ?_⟩
      rintro _ value ⟨⟩ declared
      exact hwidth value declared

section inches

theorem whole_inches : Whole (lowered " 8,5 IN ") (.ofDigits false ['8'] ['5']) (some "in") := by
  have hsplit : lowered " 8,5 IN " =
      [' '] ++ (['8', ',', '5'] ++ ([' '] ++ ("in".toList ++ [' ']))) := by
    decide
  have hunsigned : Unsigned (['8'] ++ ',' :: ['5']) ['8'] ['5'] :=
    .pointed (by simp) (by simp) (.inr rfl) (by simp)
  have hblank : Blank [' '] := by decide
  rw [hsplit]
  exact .measured hblank (.unsigned hunsigned) hblank (by decide) hblank

/-- Eight and a half inches are read as such, and a height without a digit is refused. -/
theorem load_dimension_inches :
    (Dimension.read "width" " 8,5 IN " : Except LoadError (Float × Option String)) =
        .ok (8.5, some "in") ∧
      (∃ doc : Document Float,
        Document.empty.load default (Markup.bytes "<svg width=' 8,5 IN '/>") = (doc, none) ∧
          doc.width = 8.5 ∧ doc.units = .inches) ∧
      (Document.empty : Document Float).load default
          (Markup.bytes "<svg width='2cm' height='wide'/>") =
        (.empty, some (.dimension "height" "wide")) := by
  obtain ⟨hread, hload⟩ := load_dimension (α := Float)
  have hvalue : (Scalar.ofNumeral (.ofDigits false ['8'] ['5']) : Float) = 8.5 := by decide +kernel
  have hinches := (hread "width" " 8,5 IN ").1 _ _ whole_inches
  rw [hvalue] at hinches
  refine ⟨hinches, ?_, ?_⟩
  · have hnone : ((Document.empty : Document Float).load default
        (Markup.bytes "<svg width=' 8,5 IN '/>")).2 = none := by
      decide +kernel
    obtain ⟨_, hloaded⟩ := hload .empty default (Markup.bytes "<svg width=' 8,5 IN '/>")
      ⟨some " 8,5 IN ", none, none, []⟩ (by decide +kernel)
    obtain ⟨unit, hwidth, hunits⟩ := hloaded _ _ (Prod.ext rfl hnone) rfl
    rw [hinches] at hwidth
    obtain ⟨hsame, rfl⟩ := Prod.mk.inj (Except.ok.inj hwidth)
    exact ⟨_, Prod.ext rfl hnone, hsame.symm, hunits⟩
  · obtain ⟨hrefused, _⟩ := hload .empty default
      (Markup.bytes "<svg width='2cm' height='wide'/>") ⟨some "2cm", some "wide", none, []⟩
      (by decide +kernel)
    rw [hrefused]
    refine .inr ⟨rfl, rfl, by decide, ?_⟩
    rintro _ ⟨⟩
    decide

end inches

/-- A share of the page is neither a number nor a number with a unit, and is read as so many
pixels. -/
theorem load_percent :
    (∀ n unit, ¬ Whole (lowered "100%") n unit) ∧
    (Dimension.read "width" "100%" : Except LoadError (Float × Option String)) = .ok (100, none) ∧
    let loaded := (Document.empty : Document Float).load default
      (Markup.bytes "<svg width='100%'/>")
    loaded.2 = none ∧ loaded.1.units = .pixels ∧ loaded.1.width = 100 := by
  refine ⟨fun n unit h => ?_, by decide +kernel, by decide +kernel⟩
  have hpercent := h.forall_isMeasure '%' (by decide)
  revert hpercent
  decide

end Reaming
