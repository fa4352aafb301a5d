import Mathlib.Data.List.Basic
import Reaming.Area.Forest

namespace Reaming

variable {α : Type}

/-- A fold that keeps one of two at every step ends with one of all. -/
theorem foldl_choose_mem {β : Type} {choose : Option β → β → Option β}
    (either : ∀ best x, choose best x = best ∨ choose best x = some x) {xs : List β}
    {best : Option β} {o : β} (h : xs.foldl choose best = some o) : best = some o ∨ o ∈ xs := by
  induction xs generalizing best with
  | nil => exact .inl h
  | cons x xs ih =>
    rcases ih h with hx | ho
    · rcases either best x with hbest | hnew
      · exact .inl (hbest.symm.trans hx)
      · cases hnew.symm.trans hx
        exact .inr List.mem_cons_self
    · exact .inr (List.mem_cons_of_mem x ho)

theorem mem_of_foldl_choose {β : Type} {choose : Option β → β → Option β}
    (either : ∀ best x, choose best x = best ∨ choose best x = some x) {xs : List β} {o : β}
    (h : xs.foldl choose none = some o) : o ∈ xs :=
  (foldl_choose_mem either h).resolve_left nofun

/-- A search that keeps one of two finds the same among things that are mapped and compare as they
did. -/
theorem foldl_choose_map {β : Type} {g : β → β} {choose : Option β → β → Option β}
    (same : ∀ best x, choose (best.map g) (g x) = (choose best x).map g) (xs : List β)
    (best : Option β) :
    (xs.map g).foldl choose (best.map g) = (xs.foldl choose best).map g := by
  induction xs generalizing best with
  | nil => rfl
  | cons x xs ih => rw [List.map_cons, List.foldl_cons, List.foldl_cons, same, ih]

theorem placed_getElem? (figures : List (Figure α)) (i : Nat) :
    (placed figures)[i]? = figures[i]?.map (Placed.mk i) := by
  simp [placed, List.getElem?_zipIdx, Option.map_map, Function.comp_def]

theorem mem_placed {figures : List (Figure α)} {p : Placed α} :
    p ∈ placed figures ↔ figures[p.index]? = some p.figure := by
  simp only [placed, List.mem_map, Prod.exists, List.mem_zipIdx_iff_getElem?]
  constructor
  · rintro ⟨f, i, h, rfl⟩
    exact h
  · intro h
    exact ⟨_, _, h, rfl⟩

theorem placed_index (figures : List (Figure α)) :
    (placed figures).map Placed.index = List.range figures.length := by
  rw [placed, List.map_map, List.range_eq_range']
  exact List.zipIdx_map_snd 0 figures

theorem placed_figure (figures : List (Figure α)) :
    (placed figures).map Placed.figure = figures := by
  rw [placed, List.map_map]
  exact List.zipIdx_map_fst 0 figures

theorem placed_concat (figures : List (Figure α)) (f : Figure α) :
    placed (figures ++ [f]) = placed figures ++ [⟨figures.length, f⟩] := by
  simp [placed, List.zipIdx_append]

/-- A figure in the midst of others, with the places of all. -/
theorem placed_split (before after : List (Figure α)) (f : Figure α) :
    ∃ later, placed (before ++ f :: after) = placed before ++ ⟨before.length, f⟩ :: later ∧
      (placed before ++ later).map Placed.figure = before ++ after ∧
      (∀ p ∈ placed before ++ later, p.index ≠ before.length) ∧
      (placed before ++ later).Pairwise fun p q => p.index ≠ q.index := by
  let later : List (Placed α) := (after.zipIdx (before.length + 1)).map fun q => ⟨q.2, q.1⟩
  have hsplit : placed (before ++ f :: after) = placed before ++ ⟨before.length, f⟩ :: later := by
    simp [placed, later, List.zipIdx_append, List.zipIdx_cons]
  have hnodup : ((placed before ++ ⟨before.length, f⟩ :: later).map Placed.index).Nodup := by
    rw [← hsplit, placed_index]
    exact List.nodup_range
  have hmiddle : ((⟨before.length, f⟩ :: (placed before ++ later)).map Placed.index).Nodup :=
    (List.perm_middle.map Placed.index).nodup_iff.mp hnodup
  obtain ⟨hother, hrest⟩ := List.pairwise_cons.mp (List.pairwise_map.mp hmiddle)
  refine ⟨later, hsplit, ?_, ?_, hrest⟩
  · rw [List.map_append, placed_figure]
    simp only [later, List.map_map]
    exact congrArg (before ++ ·) (List.zipIdx_map_fst _ after)
  · intro p hp
    exact (hother p hp).symm

def closedOf (figures : List (Placed α)) : List (Placed α) := figures.filter (·.figure.closed)

theorem mem_closedOf {figures : List (Placed α)} {p : Placed α} :
    p ∈ closedOf figures ↔ p ∈ figures ∧ p.figure.closed = true :=
  List.mem_filter

theorem closedOf_append (xs ys : List (Placed α)) :
    closedOf (xs ++ ys) = closedOf xs ++ closedOf ys :=
  List.filter_append xs ys

theorem closedOf_cons_closed {p : Placed α} (h : p.figure.closed = true) (ps : List (Placed α)) :
    closedOf (p :: ps) = p :: closedOf ps :=
  List.filter_cons_of_pos h

theorem closedOf_cons_open {p : Placed α} (h : p.figure.closed = false) (ps : List (Placed α)) :
    closedOf (p :: ps) = closedOf ps :=
  List.filter_cons_of_neg (by simp [h])

theorem map_closedOf (figures : List (Placed α)) :
    (closedOf figures).map Placed.figure = (figures.map Placed.figure).filter (·.closed) :=
  List.filter_map.symm

variable [Scalar α]

theorem Segment.bounds_sampled (s : Segment α) : s.sampled.bounds = s.bounds := rfl

theorem Path.bounds_sampled (p : Path α) : p.sampled.bounds = p.bounds := by
  rw [bounds, bounds, sampled, List.map_map]
  exact congrArg Bounds.unions (List.map_congr_left fun s _ => s.bounds_sampled)

theorem Path.polyline_sampled (p : Path α) : p.sampled.polyline = p.polyline := by
  simp only [polyline, sampled, List.flatMap_map]
  rfl

theorem Path.figure_eq (p : Path α) : p.figure = ⟨p.bounds, p.area, p.closed⟩ := by
  have harea : p.sampled.area = p.area := by
    rw [area, area, p.polyline_sampled]
    rfl
  rw [figure, p.bounds_sampled, harea]
  rfl

end Reaming
