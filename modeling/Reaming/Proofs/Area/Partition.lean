import Mathlib.Algebra.BigOperators.Fin
import Mathlib.Data.List.Nodup
import Reaming.Proofs.Area.Alternating
import Reaming.Proofs.Decimal.Reread

namespace Reaming

namespace Forest

theorem mem_children {f : Forest} {i j : Nat} :
    j ∈ f.children i ↔ j < f.size ∧ f.parent? j = some i := by
  simp [children]

theorem nodup_children (f : Forest) (i : Nat) : (f.children i).Nodup :=
  List.nodup_range.filter _

theorem map_outer_regions (f : Forest) :
    f.regions.map Region.outer = (List.range f.size).filter f.isOuter := by
  rw [regions, List.map_map]
  exact List.map_id _

theorem flatMap_holes_regions (f : Forest) :
    f.regions.flatMap Region.holes = ((List.range f.size).filter f.isOuter).flatMap f.children :=
  List.flatMap_map ..

theorem count_outer (f : Forest) (i : Nat) :
    (f.regions.map Region.outer).count i = if f.isOuter i = true then 1 else 0 := by
  have hnodup : ((List.range f.size).filter f.isOuter).Nodup := List.nodup_range.filter _
  have hmem : i ∈ (List.range f.size).filter f.isOuter ↔ f.isOuter i = true := by
    rw [List.mem_filter, List.mem_range]
    refine ⟨And.right, fun h => ⟨?_, h⟩⟩
    exact lt_size_of_isClosed ((Bool.and_eq_true _ _).mp h).1
  rw [map_outer_regions, hnodup.count, if_congr hmem rfl rfl]

theorem parent_of_mem_holes {f : Forest} {r : Region} (hr : r ∈ f.regions) {h : Nat}
    (hh : h ∈ r.holes) : f.parent? h = some r.outer := by
  obtain ⟨i, _, rfl⟩ := List.mem_map.mp hr
  exact (mem_children.mp hh).2

section ranked

variable {f : Forest} {rank : Nat → Nat} (ranked : f.Ranked rank)
  (closed : ∀ i p, f.parent? i = some p → f.isClosed i = true ∧ f.isClosed p = true)

include ranked closed in
theorem mem_flatMap_holes (j : Nat) :
    j ∈ f.regions.flatMap Region.holes ↔ f.isHole j = true := by
  rw [flatMap_holes_regions, List.mem_flatMap]
  constructor
  · rintro ⟨i, hi, hj⟩
    rw [← ranked.isOuter_parent closed (mem_children.mp hj).2]
    exact (List.mem_filter.mp hi).2
  · intro hj
    cases hp : f.parent? j with
    | none =>
      rw [isHole_of_parent_none hp] at hj
      cases hj
    | some p =>
      obtain ⟨hclosed, hparent⟩ := closed j p hp
      rw [← ranked.isOuter_parent closed hp] at hj
      exact ⟨p, List.mem_filter.mpr ⟨List.mem_range.mpr (lt_size_of_isClosed hparent), hj⟩,
        mem_children.mpr ⟨lt_size_of_isClosed hclosed, hp⟩⟩

/-- No figure is a hole twice, as it has one parent only. -/
theorem nodup_flatMap_holes (f : Forest) : (f.regions.flatMap Region.holes).Nodup := by
  rw [flatMap_holes_regions, List.nodup_flatMap]
  refine ⟨fun i _ => f.nodup_children i, ?_⟩
  apply (List.nodup_range.filter f.isOuter).imp
  intro i k hne j hi hk
  have hi := (mem_children.mp hi).2
  have hk := (mem_children.mp hk).2
  exact hne (Option.some.inj (hi.symm.trans hk))

include ranked closed in
theorem count_holes (j : Nat) :
    (f.regions.flatMap Region.holes).count j = if f.isHole j = true then 1 else 0 := by
  rw [(nodup_flatMap_holes f).count, if_congr (mem_flatMap_holes ranked closed j) rfl rfl]

end ranked

end Forest

def Figure.map {α β : Type} (read : α → β) (f : Figure α) : Figure β :=
  ⟨⟨read f.bounds.x0, read f.bounds.y0, read f.bounds.x1, read f.bounds.y1⟩, read f.area, f.closed⟩

section sums

variable {α : Type} [Scalar α] {K : Type} [Field K] [LinearOrder K] [Root K]

/-- The area of nested paths when only the additions are exact: the nesting and the area of each
path are those of the scalars, and `value` tells what number an area is. -/
def nestedArea (value : α → K) (paths : List (Path α)) : K :=
  Scalar.sum ((Forest.build (paths.map Path.figure)).regions.map
    (Region.area (paths.map fun p => p.figure.map value)))

theorem composeArea_eq_nestedArea (paths : List (Path K)) :
    composeArea paths .containmentForest = nestedArea id paths := rfl

theorem nestedArea_eq [Scalar.Ordered α] [IsStrictOrderedRing K] (value : α → K)
    (paths : List (Path α)) : nestedArea value paths = ∑ i : Fin paths.length,
      if paths[i].closed = true then
        (-1) ^ (Forest.build (paths.map Path.figure)).depth i * value paths[i].area else 0 := by
  have hsum := Forest.sum_regions (build_ranked (paths.map Path.figure))
    (Forest.build_closed _) (paths.map fun p => p.figure.map value)
  rw [nestedArea, Scalar.sum_exact, hsum, Forest.build_size, List.length_map, Finset.sum_range]
  apply Finset.sum_congr rfl
  intro i _
  have hfigure : (paths.map Path.figure)[i.val]? = some paths[i].figure := by
    rw [List.getElem?_map, List.getElem?_eq_getElem i.isLt]
    rfl
  have hclosed : (Forest.build (paths.map Path.figure)).isClosed i = paths[i].closed := by
    rw [Bool.eq_iff_iff, Forest.build_isClosed, hfigure]
    simp [Path.figure_eq]
  have harea : areaAt (paths.map fun p => p.figure.map value) i = value paths[i].area := by
    rw [areaAt, List.getElem?_map, List.getElem?_eq_getElem i.isLt]
    exact congrArg (fun f => value (Figure.area f)) paths[i].figure_eq
  rw [hclosed, harea]

/-- The regions of a drawing share out its closed paths: each is the outer path of one region if
its depth is even, and a hole of its parent's region if it is odd, and nothing else is in a
region. So the area counts every closed path once, with the sign of its depth. -/
theorem regions_partition [IsStrictOrderedRing K] (value : Float → K)
    (paths : List (Path Float)) :
    let f := Forest.build (paths.map Path.figure)
    (∀ i, f.isClosed i = true ↔ ∃ p, paths[i]? = some p ∧ p.closed = true) ∧
    (∀ i, (f.regions.map Region.outer).count i = if f.isOuter i = true then 1 else 0) ∧
    (∀ i, (f.regions.flatMap Region.holes).count i = if f.isHole i = true then 1 else 0) ∧
    (∀ r ∈ f.regions, ∀ h ∈ r.holes, f.parent? h = some r.outer) ∧
    nestedArea value paths = (∑ i : Fin paths.length,
      if paths[i].closed = true then (-1) ^ f.depth i * value paths[i].area else 0) ∧
    ∀ drawing : List (Path K), composeArea drawing .containmentForest =
      ∑ i : Fin drawing.length, if drawing[i].closed = true then
        (-1) ^ (Forest.build (drawing.map Path.figure)).depth i * drawing[i].area else 0 := by
  intro f
  have ranked := build_ranked (paths.map Path.figure)
  have closed := Forest.build_closed (paths.map Path.figure)
  refine ⟨?_, f.count_outer, Forest.count_holes ranked closed, ?_, nestedArea_eq value paths, ?_⟩
  · intro i
    rw [Forest.build_isClosed, List.getElem?_map]
    simp [Path.figure_eq]
  · intro r hr h hh
    exact Forest.parent_of_mem_holes hr hh
  · intro drawing
    rw [composeArea_eq_nestedArea, nestedArea_eq]
    rfl

end sums

section island

/-- A square with a hole, in the hole an island with a hole of its own, and a line across. -/
def island : List (Path Float) :=
  [block 4.0 6.0, block 0.0 10.0, ⟨[.line ⟨0.0, 0.0⟩ ⟨10.0, 10.0⟩], false⟩, block 1.0 9.0,
    block 4.5 5.5]

theorem regions_island :
    (Forest.build (island.map Path.figure)).regions = [⟨0, [4]⟩, ⟨1, [3]⟩] ∧
      nestedArea (fun x => (Decimal.value? x).getD 0) island = (39 : ℚ) := by
  obtain ⟨_, _, _, _, harea, _⟩ :=
    regions_partition (K := ℚ) (fun x => (Decimal.value? x).getD 0) island
  exact ⟨by decide +kernel, harea.trans (by decide +kernel)⟩

end island

end Reaming
