import Mathlib.Algebra.BigOperators.Group.Finset.Sigma
import Mathlib.Algebra.BigOperators.Ring.Finset
import Reaming.Proofs.Exact
import Reaming.Proofs.Area.Nesting
import Reaming.Area.Policy

namespace Reaming

open Finset

variable {K : Type} [Field K]

theorem sum_placed (figures : List (Figure K)) (g : Placed K → K) :
    ((placed figures).map g).sum =
      ∑ i ∈ range figures.length, (figures[i]?.map fun f => g ⟨i, f⟩).getD 0 := by
  induction figures using List.reverseRecOn with
  | nil => rfl
  | append_singleton figures f ih =>
    have hsame : ∀ i ∈ range figures.length, ((figures ++ [f])[i]?.map fun f => g ⟨i, f⟩).getD 0 =
        (figures[i]?.map fun f => g ⟨i, f⟩).getD 0 := by
      intro i hi
      rw [List.getElem?_append_left (mem_range.mp hi)]
    rw [placed_concat, List.map_append, List.sum_append, ih, List.length_append,
      List.length_singleton, sum_range_succ, sum_congr rfl hsame]
    simp

theorem sum_filter_range (n : Nat) (P : Nat → Bool) (g : Nat → K) :
    (((List.range n).filter P).map g).sum = ∑ i ∈ range n, if P i = true then g i else 0 := by
  have hset : ((List.range n).filter P).toFinset = (range n).filter fun i => P i = true := by
    ext i
    simp
  rw [← sum_filter, ← hset, List.sum_toFinset g (List.nodup_range.filter _)]

namespace Forest

theorem depth_of_parent_none {f : Forest} {i : Nat} (h : f.parent? i = none) : f.depth i = 0 := by
  unfold depth ancestors
  cases f.size with
  | zero => rfl
  | succ n => rw [ancestorsWithin, h]; rfl

def isOuter (f : Forest) (i : Nat) : Bool := f.isClosed i && f.depth i % 2 == 0

def isHole (f : Forest) (i : Nat) : Bool := f.isClosed i && f.depth i % 2 == 1

/-- The parent of a hole is an outer figure, and the parent of an outer figure is a hole. -/
theorem Ranked.isOuter_parent {f : Forest} {rank : Nat → Nat} (ranked : f.Ranked rank)
    (closed : ∀ i p, f.parent? i = some p → f.isClosed i = true ∧ f.isClosed p = true)
    {j p : Nat} (hp : f.parent? j = some p) : f.isOuter p = f.isHole j := by
  obtain ⟨hj, hp'⟩ := closed j p hp
  rw [isOuter, isHole, hj, hp', ranked.depth_parent hp, Bool.true_and, Bool.true_and,
    Bool.eq_iff_iff, beq_iff_eq, beq_iff_eq]
  omega

theorem isHole_of_parent_none {f : Forest} {j : Nat} (h : f.parent? j = none) :
    f.isHole j = false := by
  simp [isHole, depth_of_parent_none h]

/-- A figure is a hole of exactly one region if it is a hole, and of none otherwise. -/
theorem sum_parent_outer {f : Forest} {rank : Nat → Nat} (ranked : f.Ranked rank)
    (closed : ∀ i p, f.parent? i = some p → f.isClosed i = true ∧ f.isClosed p = true)
    (j : Nat) (a : K) :
    (∑ i ∈ range f.size, if f.isOuter i = true then if (f.parent? j == some i) = true then a else 0
      else 0) = if f.isHole j = true then a else 0 := by
  cases hp : f.parent? j with
  | none => simp [isHole_of_parent_none hp]
  | some p =>
    have hmem : p ∈ range f.size := mem_range.mpr (lt_size_of_isClosed (closed j p hp).2)
    rw [sum_eq_single_of_mem p hmem, ranked.isOuter_parent closed hp]
    · simp
    · intro i _ hi
      simp [Ne.symm hi]

theorem sum_parents_outer {f : Forest} {rank : Nat → Nat} (ranked : f.Ranked rank)
    (closed : ∀ i p, f.parent? i = some p → f.isClosed i = true ∧ f.isClosed p = true)
    (a : Nat → K) : (∑ i ∈ range f.size, if f.isOuter i = true then
      ∑ j ∈ range f.size, if (f.parent? j == some i) = true then a j else 0 else 0) =
      ∑ j ∈ range f.size, if f.isHole j = true then a j else 0 := by
  have hin (i : Nat) : (if f.isOuter i = true then
      ∑ j ∈ range f.size, if (f.parent? j == some i) = true then a j else 0 else 0) =
      ∑ j ∈ range f.size, if f.isOuter i = true then
        if (f.parent? j == some i) = true then a j else 0 else 0 := by
    split
    · rfl
    · exact sum_const_zero.symm
  rw [sum_congr rfl fun i _ => hin i, sum_comm]
  exact sum_congr rfl fun j _ => sum_parent_outer ranked closed j (a j)

theorem outer_sub_hole (f : Forest) (i : Nat) (a : K) :
    (if f.isOuter i = true then a else 0) - (if f.isHole i = true then a else 0) =
      if f.isClosed i = true then (-1) ^ f.depth i * a else 0 := by
  cases hc : f.isClosed i with
  | false => simp [isOuter, isHole, hc]
  | true =>
    rcases Nat.mod_two_eq_zero_or_one (f.depth i) with h | h
    · rw [Even.neg_one_pow (Nat.even_iff.mpr h)]
      simp [isOuter, isHole, hc, h]
    · rw [Odd.neg_one_pow (Nat.odd_iff.mpr h)]
      simp [isOuter, isHole, hc, h]

variable [LinearOrder K] [IsStrictOrderedRing K] [Root K]

theorem region_area (f : Forest) (figures : List (Figure K)) (i : Nat) :
    Region.area figures ⟨i, f.children i⟩ = areaAt figures i -
      ∑ j ∈ range f.size, if (f.parent? j == some i) = true then areaAt figures j else 0 := by
  rw [← sum_filter_range]
  exact congrArg (areaAt figures i - ·) (Scalar.sum_exact _)

/-- The area of a forest counts every closed figure once, with the sign of its depth. -/
theorem sum_regions {f : Forest} {rank : Nat → Nat} (ranked : f.Ranked rank)
    (closed : ∀ i p, f.parent? i = some p → f.isClosed i = true ∧ f.isClosed p = true)
    (figures : List (Figure K)) : (f.regions.map (Region.area figures)).sum =
      ∑ i ∈ range f.size,
        if f.isClosed i = true then (-1) ^ f.depth i * areaAt figures i else 0 := by
  have houter : (f.regions.map (Region.area figures)).sum = ∑ i ∈ range f.size,
      if f.isOuter i = true then areaAt figures i -
        ∑ j ∈ range f.size, if (f.parent? j == some i) = true then areaAt figures j else 0
      else 0 := by
    rw [← sum_filter_range, regions, List.map_map]
    exact congrArg List.sum (List.map_congr_left fun i _ => region_area f figures i)
  have hsplit (i : Nat) (s : K) : (if f.isOuter i = true then areaAt figures i - s else 0) =
      (if f.isOuter i = true then areaAt figures i else 0) -
        if f.isOuter i = true then s else 0 := by
    split
    · rfl
    · exact (sub_zero 0).symm
  rw [houter, sum_congr rfl fun i _ => hsplit i _, sum_sub_distrib,
    sum_parents_outer ranked closed, ← sum_sub_distrib]
  exact sum_congr rfl fun i _ => outer_sub_hole f i _

end Forest

def Forest.share (f : Forest) (p : Placed K) : K :=
  if p.figure.closed = true then (-1) ^ f.depth p.index * p.figure.area else 0

variable [LinearOrder K] [IsStrictOrderedRing K] [Root K]

theorem composeFigures_forest (figures : List (Figure K)) :
    composeFigures figures .containmentForest =
      ((placed figures).map (Forest.build figures).share).sum := by
  have hsum := Forest.sum_regions (build_ranked figures) (Forest.build_closed figures) figures
  rw [composeFigures, Scalar.sum_exact, hsum, sum_placed, Forest.build_size]
  apply sum_congr rfl
  intro i hi
  have hi := mem_range.mp hi
  rw [Forest.isClosed, Forest.build, List.getElem?_map, placed_getElem?, areaAt,
    List.getElem?_eq_getElem hi]
  rfl

end Reaming
