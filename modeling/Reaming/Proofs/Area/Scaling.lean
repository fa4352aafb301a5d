import Reaming.Proofs.Area.Alternating
import Reaming.Proofs.Area.NetArea
import Reaming.Proofs.Geometry.Scaling

namespace Reaming

variable {K : Type} [Field K] [LinearOrder K] [Root K]

def Figure.scale (k : K) (f : Figure K) : Figure K := ⟨f.bounds.scale k, f.area * (k * k), f.closed⟩

def Placed.scale (k : K) (p : Placed K) : Placed K := ⟨p.index, p.figure.scale k⟩

theorem placed_scale (k : K) (figures : List (Figure K)) :
    placed (figures.map (Figure.scale k)) = (placed figures).map (Placed.scale k) := by
  rw [placed, placed, List.zipIdx_map, List.map_map, List.map_map]
  rfl

theorem closedOf_scale (k : K) (figures : List (Placed K)) :
    closedOf (figures.map (Placed.scale k)) = (closedOf figures).map (Placed.scale k) :=
  List.filter_map

variable [IsStrictOrderedRing K]

theorem Path.figure_scale {p : Path K} (h : p.Coherent) (k : K) :
    (p.scale k).figure = p.figure.scale k := by
  rw [figure_eq, figure_eq, bounds_scale h, area_scale h]
  rfl

section nonzero
variable {k : K} (hk : k ≠ 0)
include hk

namespace Forest

theorem holds_scale (outer inner : Placed K) :
    holds (outer.scale k) (inner.scale k) = holds outer inner := by
  have hencloses : (outer.scale k).figure.bounds.encloses (inner.scale k).figure.bounds =
      outer.figure.bounds.encloses inner.figure.bounds := Bounds.encloses_scale hk _ _
  have hbeq : ((outer.scale k).figure.bounds == (inner.scale k).figure.bounds) =
      (outer.figure.bounds == inner.figure.bounds) := Bounds.beq_scale hk _ _
  rw [holds, holds, hencloses, hbeq]
  rfl

theorem closer_scale (best : Option (Placed K)) (next : Placed K) :
    closer (best.map (Placed.scale k)) (next.scale k) =
      (closer best next).map (Placed.scale k) := by
  cases best with
  | none => rfl
  | some b =>
    have hlt := Bounds.area_lt_scale hk b.figure.bounds next.figure.bounds
    rw [closer, apply_ite (Option.map (Placed.scale k))]
    exact if_congr hlt rfl rfl

theorem chooseParent_scale (all : List (Placed K)) (inner : Placed K) :
    chooseParent (all.map (Placed.scale k)) (inner.scale k) = chooseParent all inner := by
  have hholds : (all.map (Placed.scale k)).filter (holds · (inner.scale k)) =
      (all.filter (holds · inner)).map (Placed.scale k) := by
    rw [List.filter_map]
    exact congrArg _ (List.filter_congr fun outer _ => holds_scale hk outer inner)
  have hfound := foldl_choose_map (closer_scale hk) (all.filter (holds · inner)) none
  rw [chooseParent, chooseParent, hholds]
  refine if_congr Iff.rfl ((congrArg (Option.map Placed.index) hfound).trans ?_) rfl
  rw [Option.map_map]
  rfl

/-- Scaling changes no nesting. -/
theorem build_scale (figures : List (Figure K)) :
    build (figures.map (Figure.scale k)) = build figures := by
  rw [build, build, placed_scale, List.map_map]
  refine congrArg Forest.mk (List.map_congr_left fun p _ => ?_)
  exact congrArg (Prod.mk p.figure.closed) (chooseParent_scale hk _ p)

end Forest

omit hk in
theorem areaAt_scale (figures : List (Figure K)) (i : Nat) :
    areaAt (figures.map (Figure.scale k)) i = areaAt figures i * (k * k) := by
  rw [areaAt, areaAt, List.getElem?_map]
  cases figures[i]? with
  | none => simp
  | some f => rfl

omit hk in
theorem Region.area_scale (figures : List (Figure K)) (r : Region) :
    r.area (figures.map (Figure.scale k)) = r.area figures * (k * k) := by
  have hholes : Scalar.sum (r.holes.map (areaAt (figures.map (Figure.scale k)))) =
      Scalar.sum (r.holes.map (areaAt figures)) * (k * k) := by
    rw [Scalar.sum_exact, Scalar.sum_exact, ← List.sum_map_mul_right]
    exact congrArg List.sum (List.map_congr_left fun i _ => areaAt_scale figures i)
  rw [area, area, areaAt_scale, hholes]
  exact (sub_mul _ _ _).symm

theorem insideSoFar_scale (this f : Placed K) (inside : List (Placed K)) :
    insideSoFar (this.scale k) (f.scale k) (inside.map (Placed.scale k)) =
      (insideSoFar this f inside).map (Placed.scale k) := by
  have hencloses : (this.scale k).figure.bounds.encloses (f.scale k).figure.bounds =
      this.figure.bounds.encloses f.figure.bounds := Bounds.encloses_scale hk _ _
  rw [insideSoFar, insideSoFar, hencloses]
  split
  · rw [List.map_append]
    rfl
  · rfl

theorem netArea_scale :
    (∀ (this : Placed K) (figures : List (Placed K)),
      netArea (this.scale k) (figures.map (Placed.scale k)) = netArea this figures * (k * k)) ∧
    ∀ (this : Placed K) (area : K) (inside figures : List (Placed K)),
      subtractNet (this.scale k) (area * (k * k)) (inside.map (Placed.scale k))
        (figures.map (Placed.scale k)) = subtractNet this area inside figures * (k * k) := by
  refine netArea.mutual_induct _ _ ?_ ?_ ?_ ?_
  · intro this figures ih
    rw [netArea, netArea, ← ih]
    rfl
  · intro this area inside
    rw [List.map_nil, subtractNet, subtractNet]
  · intro this area inside f figures hskip ih
    rw [List.map_cons, subtractNet, subtractNet, if_pos hskip, ← ih]
    exact if_pos hskip
  · intro this area inside f figures htake ihf ih
    rw [List.map_cons, subtractNet, subtractNet, if_neg htake, ← ih, insideSoFar_scale hk, ihf,
      sub_mul]
    exact if_neg htake

theorem largest?_scale (all : List (Placed K)) :
    largest? (all.map (Placed.scale k)) = (largest? all).map (Placed.scale k) := by
  have hwider (best : Option (Placed K)) (p : Placed K) :
      wider (best.map (Placed.scale k)) (p.scale k) = (wider best p).map (Placed.scale k) := by
    cases best with
    | none => rfl
    | some b =>
      have hlt := Bounds.area_lt_scale hk b.figure.bounds p.figure.bounds
      rw [wider, apply_ite (Option.map (Placed.scale k))]
      exact if_congr hlt rfl rfl
  change (closedOf (all.map (Placed.scale k))).foldl wider none = _
  rw [closedOf_scale]
  exact foldl_choose_map hwider (closedOf all) none

theorem largestMinusOthers_scale (figures : List (Figure K)) :
    largestMinusOthers (figures.map (Figure.scale k)) = largestMinusOthers figures * (k * k) := by
  unfold largestMinusOthers
  dsimp only
  rw [placed_scale, largest?_scale hk]
  cases largest? (placed figures) with
  | none => simp
  | some main => exact (netArea_scale hk).1 main (placed figures)

theorem composeFigures_scale (figures : List (Figure K)) (policy : AreaPolicy) :
    composeFigures (figures.map (Figure.scale k)) policy =
      composeFigures figures policy * (k * k) := by
  cases policy with
  | largestMinusOthers => exact largestMinusOthers_scale hk figures
  | containmentForest =>
    rw [composeFigures, composeFigures, Forest.build_scale hk, Scalar.sum_exact, Scalar.sum_exact,
      ← List.sum_map_mul_right]
    exact congrArg List.sum (List.map_congr_left fun r _ => r.area_scale figures)

end nonzero

/-- Figures without area make up none, however they are nested. -/
theorem composeFigures_zero {figures : List (Figure K)} (zero : ∀ f ∈ figures, f.area = 0)
    (policy : AreaPolicy) : composeFigures figures policy = 0 := by
  cases policy with
  | largestMinusOthers => exact largestMinusOthers_zero zero
  | containmentForest =>
    rw [composeFigures_forest]
    apply List.sum_eq_zero
    intro a ha
    obtain ⟨p, hp, rfl⟩ := List.mem_map.mp ha
    rw [Forest.share, zero p.figure (List.mem_of_getElem? (mem_placed.mp hp)), mul_zero, ite_self]

/-- The area of a drawing grows with the square of the factor by which its paths are scaled. -/
theorem composeArea_scale {paths : List (Path K)} (h : ∀ p ∈ paths, p.Coherent) (k : K)
    (policy : AreaPolicy) :
    composeArea (paths.map (Path.scale k)) policy = composeArea paths policy * (k * k) := by
  have hfigures : (paths.map (Path.scale k)).map Path.figure =
      (paths.map Path.figure).map (Figure.scale k) := by
    rw [List.map_map, List.map_map]
    exact List.map_congr_left fun p hp => Path.figure_scale (h p hp) k
  rw [composeArea, composeArea, hfigures]
  by_cases hk : k = 0
  · rw [hk, mul_zero, mul_zero]
    apply composeFigures_zero
    intro f hf
    obtain ⟨g, _, rfl⟩ := List.mem_map.mp hf
    exact (congrArg (g.area * ·) (mul_zero (0 : K))).trans (mul_zero g.area)
  · exact composeFigures_scale hk _ policy

end Reaming
