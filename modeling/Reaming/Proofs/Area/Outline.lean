import Mathlib.Data.List.Pairwise
import Mathlib.Tactic.Linarith
import Reaming.Proofs.Area.Alternating
import Reaming.Proofs.Area.NetArea
import Reaming.Proofs.Geometry.Flat

namespace Reaming

variable {K : Type} [Field K] [LinearOrder K] [Root K]

structure Outlined (o : Placed K) (before after : List (Placed K)) : Prop where
  closed : o.figure.closed = true
  others : ∀ p ∈ before ++ after, p.index ≠ o.index
  contains : ∀ h ∈ closedOf (before ++ after),
    o.figure.bounds.encloses h.figure.bounds = true ∧
      h.figure.bounds.encloses o.figure.bounds = false
  beside : (closedOf (before ++ after)).Pairwise Beside

section outlined

variable {o : Placed K} {before after : List (Placed K)}

theorem Outlined.filter_isOther (h : Outlined o before after) :
    (before ++ o :: after).filter (isOther o) = closedOf (before ++ after) := by
  have hself : ¬ isOther o o = true := by simp [isOther]
  have hsame : ∀ p ∈ before ++ after, isOther o p = p.figure.closed := by
    intro p hp
    simp [isOther, h.others p hp]
  rw [List.filter_append, List.filter_cons_of_neg hself, ← List.filter_append]
  exact List.filter_congr hsame

theorem Outlined.netArea_eq (h : Outlined o before after) :
    netArea o (before ++ o :: after) = o.figure.area -
      (areas (closedOf (before ++ after))).sum + surplus (areas (closedOf (before ++ after))) := by
  have hothers : ∀ p ∈ closedOf (before ++ after), isOther o p = true := by
    intro p hp
    obtain ⟨hm, hc⟩ := mem_closedOf.mp hp
    simp [isOther, h.others p hm, hc]
  rw [netArea, subtractNet_filter, h.filter_isOther, subtractNet_siblings _ [] hothers
    (fun p hp => (h.contains p hp).1) (fun p hp => (mem_closedOf.mp hp).2) h.beside]
  simp [areas]

theorem Outlined.mem_cases (h : Outlined o before after) {p : Placed K}
    (hp : p ∈ before ++ o :: after) (closed : p.figure.closed = true) :
    p = o ∨ p ∈ closedOf (before ++ after) := by
  rcases List.mem_append.mp hp with hp | hp
  · exact .inr (mem_closedOf.mpr ⟨List.mem_append_left _ hp, closed⟩)
  · rcases List.mem_cons.mp hp with rfl | hp
    · exact .inl rfl
    · exact .inr (mem_closedOf.mpr ⟨List.mem_append_right _ hp, closed⟩)

theorem Outlined.parent_outline (h : Outlined o before after) :
    Forest.chooseParent (before ++ o :: after) o = none := by
  apply Forest.chooseParent_of_none
  intro p hp
  apply Bool.eq_false_iff.mpr
  intro hh
  obtain ⟨hne, hc, henc, _⟩ := Forest.holds_iff.mp hh
  rcases h.mem_cases hp hc with rfl | hp
  · exact hne rfl
  · rw [(h.contains p hp).2] at henc
    cases henc

theorem Outlined.parent_hole (h : Outlined o before after) {g : Placed K}
    (hg : g ∈ closedOf (before ++ after)) :
    Forest.chooseParent (before ++ o :: after) g = some o.index := by
  obtain ⟨hmem, hclosed⟩ := mem_closedOf.mp hg
  obtain ⟨hin, hout⟩ := h.contains g hg
  apply Forest.chooseParent_of_unique hclosed (by simp)
  · refine Forest.holds_iff.mpr ⟨(h.others g hmem).symm, h.closed, hin, ?_⟩
    intro heq
    rw [(Bounds.beq_iff_encloses.mp heq).2] at hout
    cases hout
  · intro p hp hh
    obtain ⟨hne, hc, henc, _⟩ := Forest.holds_iff.mp hh
    rcases h.mem_cases hp hc with rfl | hp
    · rfl
    · have : Std.Symm (Beside (K := K)) := ⟨fun _ _ hb => ⟨hb.1.symm, hb.2.2, hb.2.1⟩⟩
      have hb := h.beside.forall hp hg (fun heq => hne (congrArg Placed.index heq))
      rw [hb.2.1] at henc
      cases henc

end outlined

theorem sum_shares {f : Forest} {figures : List (Placed K)}
    (depth : ∀ p ∈ closedOf figures, f.depth p.index = 1) :
    (figures.map f.share).sum = -(areas (closedOf figures)).sum := by
  induction figures with
  | nil => exact neg_zero.symm
  | cons p figures ih =>
    cases hc : p.figure.closed with
    | false =>
      rw [closedOf_cons_open hc] at depth ⊢
      rw [List.map_cons, List.sum_cons, ih depth, Forest.share, hc, if_neg Bool.false_ne_true,
        zero_add]
    | true =>
      rw [closedOf_cons_closed hc] at depth ⊢
      rw [List.map_cons, List.sum_cons, ih fun q hq => depth q (List.mem_cons_of_mem p hq),
        Forest.share, if_pos hc, depth p List.mem_cons_self]
      change _ = -(p.figure.area + (areas (closedOf figures)).sum)
      ring

theorem Outlined.forest_eq [IsStrictOrderedRing K] {o : Placed K} {before after : List (Placed K)}
    (h : Outlined o before after) {figures : List (Figure K)}
    (split : placed figures = before ++ o :: after) :
    composeFigures figures .containmentForest =
      o.figure.area - (areas (closedOf (before ++ after))).sum := by
  have hdepth : (Forest.build figures).depth o.index = 0 := by
    apply Forest.depth_of_parent_none
    rw [Forest.parent?_of_mem (by simp [split]), split, h.parent_outline]
  have hholes : ∀ p ∈ closedOf (before ++ after), (Forest.build figures).depth p.index = 1 := by
    intro p hp
    have hmem : p ∈ placed figures := by
      rw [split]
      rcases List.mem_append.mp (mem_closedOf.mp hp).1 with hp | hp
      · exact List.mem_append_left _ hp
      · exact List.mem_append_right _ (List.mem_cons_of_mem o hp)
    have hparent := Forest.parent?_of_mem hmem
    rw [split, h.parent_hole hp] at hparent
    rw [(build_ranked figures).depth_parent hparent, hdepth]
  have hsum := sum_shares hholes
  rw [List.map_append, List.sum_append] at hsum
  rw [composeFigures_forest, split, List.map_append, List.map_cons, List.sum_append,
    List.sum_cons, add_left_comm, hsum, Forest.share, if_pos h.closed, hdepth]
  ring

theorem mem_of_map_eq {figures : List (Placed K)} {paths : List (Path K)}
    (h : figures.map Placed.figure = paths.map Path.figure) {q : Placed K} (hq : q ∈ figures) :
    ∃ p ∈ paths, q.figure = p.figure := by
  have hmem := List.mem_map_of_mem (f := Placed.figure) hq
  rw [h] at hmem
  obtain ⟨p, hp, heq⟩ := List.mem_map.mp hmem
  exact ⟨p, hp, heq.symm⟩

section paths

variable {before after : List (Path K)} {outline : Path K}
  (closed : outline.closed = true)
  (contains : ∀ h ∈ before ++ after, h.closed = true →
    outline.bounds.encloses h.bounds = true ∧ h.bounds.encloses outline.bounds = false)
  (beside : ((before ++ after).filter (·.closed)).Pairwise fun g h =>
    g.bounds.encloses h.bounds = false ∧ h.bounds.encloses g.bounds = false)

include closed contains beside in
/-- The paths of a drawing make an outline when they have places. -/
theorem outlined_of_paths :
    ∃ earlier later, ∃ o : Placed K, o.figure = outline.figure ∧
      placed ((before ++ outline :: after).map Path.figure) = earlier ++ o :: later ∧
      Outlined o earlier later ∧
      (closedOf (earlier ++ later)).map Placed.figure =
        ((before ++ after).filter (·.closed)).map Path.figure := by
  obtain ⟨later, hsplit, hfigure, hother, hplaces⟩ :=
    placed_split (before.map Path.figure) (after.map Path.figure) outline.figure
  have hholes : (closedOf (placed (before.map Path.figure) ++ later)).map Placed.figure =
      ((before ++ after).filter (·.closed)).map Path.figure := by
    rw [map_closedOf, hfigure, ← List.map_append, List.filter_map]
    rfl
  refine ⟨placed (before.map Path.figure), later,
    ⟨(before.map Path.figure).length, outline.figure⟩, rfl, ?_, ⟨closed, hother, ?_, ?_⟩, hholes⟩
  · rw [List.map_append, List.map_cons]
    exact hsplit
  · intro h hh
    obtain ⟨p, hp, heq⟩ := mem_of_map_eq hholes hh
    obtain ⟨hp, hc⟩ := List.mem_filter.mp hp
    have hin := contains p hp hc
    rw [heq, p.figure_eq, outline.figure_eq]
    exact hin
  · have hboxes : (((before ++ after).filter (·.closed)).map Path.figure).Pairwise fun f g =>
        f.bounds.encloses g.bounds = false ∧ g.bounds.encloses f.bounds = false := by
      refine List.pairwise_map.mpr (beside.imp ?_)
      intro g h hgh
      rw [g.figure_eq, h.figure_eq]
      exact hgh
    rw [← hholes] at hboxes
    exact (hplaces.sublist List.filter_sublist).and (List.pairwise_map.mp hboxes)

variable [IsStrictOrderedRing K]

include contains in
/-- If the outline is flat, so is all that lies in it. -/
theorem area_of_flat_outline (flat : outline.bounds.area = 0) :
    ∀ p ∈ before ++ outline :: after, p.area = 0 := by
  have hother : ∀ p ∈ before ++ after, p.area = 0 := by
    intro p hp
    cases hc : p.closed with
    | false => exact Path.area_of_open hc
    | true =>
      exact Path.area_of_flat (Bounds.flat_of_encloses p.bounds_upright (contains p hp hc).1 flat)
  intro p hp
  rcases List.mem_append.mp hp with hp | hp
  · exact hother p (List.mem_append_left _ hp)
  · rcases List.mem_cons.mp hp with rfl | hp
    · exact Path.area_of_flat (mul_eq_zero.mp flat)
    · exact hother p (List.mem_append_right _ hp)

theorem largest_of_flat (zero : ∀ p ∈ before ++ outline :: after, p.area = 0) :
    composeArea (before ++ outline :: after) .largestMinusOthers =
      outline.area - (((before ++ after).filter (·.closed)).map Path.area).sum +
        surplus (((before ++ after).filter (·.closed)).map Path.area) := by
  have hholes : ∀ a ∈ ((before ++ after).filter (·.closed)).map Path.area, a = 0 := by
    intro a ha
    obtain ⟨p, hp, rfl⟩ := List.mem_map.mp ha
    rcases List.mem_append.mp (List.mem_filter.mp hp).1 with hp | hp
    · exact zero p (List.mem_append_left _ hp)
    · exact zero p (List.mem_append_right _ (List.mem_cons_of_mem _ hp))
  have hlast := (surplus_eq_zero_iff fun a ha => le_of_eq (hholes a ha).symm).mpr fun a ha =>
    hholes a (List.mem_of_mem_dropLast ha)
  rw [zero outline (by simp), List.sum_eq_zero hholes, hlast, sub_zero, add_zero]
  apply largestMinusOthers_zero
  intro f hf
  obtain ⟨p, hp, rfl⟩ := List.mem_map.mp hf
  rw [p.figure_eq]
  exact zero p hp

omit [IsStrictOrderedRing K] in
theorem areas_of_outline {figures : List (Placed K)}
    (h : figures.map Placed.figure = ((before ++ after).filter (·.closed)).map Path.figure) :
    areas figures = ((before ++ after).filter (·.closed)).map Path.area := by
  have hmap := congrArg (List.map Figure.area) h
  rw [List.map_map, List.map_map] at hmap
  refine hmap.trans (List.map_congr_left ?_)
  intro p _
  exact congrArg Figure.area p.figure_eq

include closed contains beside in
theorem forest_of_outline :
    composeArea (before ++ outline :: after) .containmentForest =
      outline.area - (((before ++ after).filter (·.closed)).map Path.area).sum := by
  obtain ⟨earlier, later, o, ho, hsplit, h, hholes⟩ := outlined_of_paths closed contains beside
  have hf := h.forest_eq hsplit
  rw [areas_of_outline hholes, ho, outline.figure_eq] at hf
  exact hf

include closed contains beside in
theorem largest_of_outline :
    composeArea (before ++ outline :: after) .largestMinusOthers =
      outline.area - (((before ++ after).filter (·.closed)).map Path.area).sum +
        surplus (((before ++ after).filter (·.closed)).map Path.area) := by
  by_cases hflat : outline.bounds.area = 0
  · exact largest_of_flat (area_of_flat_outline contains hflat)
  · obtain ⟨earlier, later, o, ho, hsplit, h, hholes⟩ := outlined_of_paths closed contains beside
    have hwidest : ∀ p ∈ closedOf (earlier ++ later),
        p.figure.bounds.area < o.figure.bounds.area := by
      intro q hq
      obtain ⟨p, hp, heq⟩ := mem_of_map_eq hholes hq
      obtain ⟨hp, hc⟩ := List.mem_filter.mp hp
      obtain ⟨hin, hout⟩ := contains p hp hc
      rw [heq, ho, p.figure_eq, outline.figure_eq]
      exact Bounds.area_lt p.bounds_upright hin hout hflat
    have hnet := h.netArea_eq
    rw [areas_of_outline hholes, ho, outline.figure_eq] at hnet
    change largestMinusOthers ((before ++ outline :: after).map Path.figure) = _
    unfold largestMinusOthers
    dsimp only
    rw [hsplit, largest?_of_widest h.closed hwidest]
    exact hnet

end paths

/-- An outline with holes side by side: under nesting the holes are taken off it. Subtracting them
one by one gives back all but the last of them, some more than once, so that only holes without
area may come before it. -/
theorem composeArea_outline [IsStrictOrderedRing K] (before after : List (Path K))
    (outline : Path K) (closed : outline.closed = true)
    (contains : ∀ h ∈ before ++ after, h.closed = true →
      outline.bounds.encloses h.bounds = true ∧ h.bounds.encloses outline.bounds = false)
    (beside : ((before ++ after).filter (·.closed)).Pairwise fun g h =>
      g.bounds.encloses h.bounds = false ∧ h.bounds.encloses g.bounds = false) :
    let paths := before ++ outline :: after
    let holes := ((before ++ after).filter (·.closed)).map Path.area
    composeArea paths .containmentForest = outline.area - holes.sum ∧
    composeArea paths .largestMinusOthers = outline.area - holes.sum + surplus holes ∧
    (composeArea paths .largestMinusOthers = composeArea paths .containmentForest ↔
      ∀ a ∈ holes.dropLast, a = 0) := by
  intro paths holes
  have hforest := forest_of_outline closed contains beside
  have hlargest := largest_of_outline closed contains beside
  refine ⟨hforest, hlargest, ?_⟩
  rw [hforest, hlargest, add_eq_left]
  apply surplus_eq_zero_iff
  intro a ha
  obtain ⟨p, _, rfl⟩ := List.mem_map.mp ha
  exact p.area_nonneg

section squares

def outerSquare : Path ℚ := block 0 10

def squareHoles : List (Path ℚ) := [block 1 3, block 4 5, block 7 8]

theorem squares_contains : ∀ h ∈ squareHoles, h.closed = true →
    outerSquare.bounds.encloses h.bounds = true ∧
      h.bounds.encloses outerSquare.bounds = false := by
  decide +kernel

theorem squares_beside : (squareHoles.filter (·.closed)).Pairwise fun g h =>
    g.bounds.encloses h.bounds = false ∧ h.bounds.encloses g.bounds = false := by
  decide +kernel

theorem squares_areas : outerSquare.area = 100 ∧
    (squareHoles.filter (·.closed)).map Path.area = [4, 1, 1] := by
  decide +kernel

theorem composeArea_squares :
    composeArea (outerSquare :: squareHoles) .containmentForest = 94 ∧
      composeArea (outerSquare :: squareHoles) .largestMinusOthers = 103 := by
  obtain ⟨hforest, hlargest, _⟩ :=
    composeArea_outline [] squareHoles outerSquare rfl squares_contains squares_beside
  simp only [List.nil_append, squares_areas.1, squares_areas.2] at hforest hlargest
  exact ⟨hforest.trans (by decide +kernel), hlargest.trans (by decide +kernel)⟩

/-- Three holes that do not meet leave more than the whole outline. -/
theorem largest_exceeds_outline :
    (∀ h ∈ squareHoles, h.closed = true → outerSquare.bounds.encloses h.bounds = true ∧
      h.bounds.encloses outerSquare.bounds = false) ∧
    ((squareHoles.filter (·.closed)).Pairwise fun g h =>
      g.bounds.encloses h.bounds = false ∧ h.bounds.encloses g.bounds = false) ∧
    composeArea (outerSquare :: squareHoles) .largestMinusOthers ≠
      outerSquare.area - ((squareHoles.filter (·.closed)).map Path.area).sum ∧
    outerSquare.area < composeArea (outerSquare :: squareHoles) .largestMinusOthers := by
  have hlargest : composeArea ([] ++ outerSquare :: squareHoles) .largestMinusOthers = _ :=
    largest_of_outline rfl squares_contains squares_beside
  simp only [List.nil_append, squares_areas.1, squares_areas.2] at hlargest
  refine ⟨squares_contains, squares_beside, ?_, ?_⟩
  · rw [hlargest, squares_areas.1, squares_areas.2]
    decide +kernel
  · rw [hlargest, squares_areas.1]
    decide +kernel

end squares

end Reaming
