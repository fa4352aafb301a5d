import Mathlib.Data.List.Sort
import Mathlib.Data.Multiset.Basic
import Reaming.Proofs.Area.Partition

namespace Reaming

/-- Two tests that agree under a renaming pick the same members of two ranges. -/
theorem filter_range_renamed {m n : Nat} {P Q : Nat → Bool} {name : Nat → Nat}
    (injective : Function.Injective name) (same : ∀ i, Q (name i) = P i)
    (named : ∀ j, Q j = true → ∃ i, name i = j) (within : ∀ i, P i = true → i < m)
    (within' : ∀ j, Q j = true → j < n) :
    ((List.range n).filter Q).Perm (((List.range m).filter P).map name) := by
  have hnodup := (List.nodup_range (n := m)).filter P
  rw [List.perm_ext_iff_of_nodup (List.nodup_range.filter Q) (hnodup.map injective)]
  intro j
  rw [List.mem_filter, List.mem_range, List.mem_map]
  constructor
  · rintro ⟨_, hj⟩
    obtain ⟨i, rfl⟩ := named j hj
    rw [same] at hj
    exact ⟨i, List.mem_filter.mpr ⟨List.mem_range.mpr (within i hj), hj⟩, rfl⟩
  · rintro ⟨i, hi, rfl⟩
    have hi := (List.mem_filter.mp hi).2
    rw [← same] at hi
    exact ⟨within' _ hi, hi⟩

/-- A renaming that keeps the order keeps the list as well. -/
theorem filter_range_eq_of_perm {m n : Nat} {P Q : Nat → Bool} {name : Nat → Nat}
    (mono : StrictMono name)
    (perm : ((List.range n).filter Q).Perm (((List.range m).filter P).map name)) :
    (List.range n).filter Q = ((List.range m).filter P).map name := by
  have hrange (k : Nat) (R : Nat → Bool) : ((List.range k).filter R).Pairwise (· ≤ ·) :=
    List.pairwise_le_range.filter R
  exact perm.eq_of_pairwise' (hrange n Q) ((hrange m P).map name fun _ _ h => mono.monotone h)

def Region.rename (name : Nat → Nat) (r : Region) : Region := ⟨name r.outer, r.holes.map name⟩

def Region.unordered (r : Region) : Nat × Multiset Nat := (r.outer, r.holes)

/-- Figures that keep their areas under other names leave the areas of regions as they are. -/
theorem Region.area_rename {α : Type} [Scalar α] {name : Nat → Nat}
    {figures figures' : List (Figure α)}
    (same : ∀ i, areaAt figures' (name i) = areaAt figures i) (r : Region) :
    (r.rename name).area figures' = r.area figures := by
  rw [area, area, rename, same, List.map_map]
  exact congrArg (fun holes => _ - Scalar.sum holes) (List.map_congr_left fun i _ => same i)

namespace Forest

theorem lt_size_of_parent? {f : Forest} {i p : Nat} (h : f.parent? i = some p) : i < f.size := by
  apply Nat.lt_of_not_le
  intro hi
  rw [parent?, List.getElem?_eq_none hi] at h
  cases h

/-- The figures of `g` are those of `f` under other names. What has no name is open. -/
structure Renamed (name : Nat → Nat) (f g : Forest) : Prop where
  injective : Function.Injective name
  closed : ∀ i, g.isClosed (name i) = f.isClosed i
  parent : ∀ i, g.parent? (name i) = (f.parent? i).map name
  named : ∀ j, g.isClosed j = true → ∃ i, name i = j

section renamed

variable {name : Nat → Nat} {f g : Forest} (h : Renamed name f g)
include h

theorem Renamed.parent_eq_some_iff (j p : Nat) :
    g.parent? (name j) = some (name p) ↔ f.parent? j = some p := by
  rw [h.parent, Option.map_eq_some_iff]
  constructor
  · rintro ⟨q, hq, heq⟩
    rwa [← h.injective heq]
  · intro hp
    exact ⟨p, hp, rfl⟩

theorem Renamed.climbs {n i r : Nat} (hi : f.Climbs n i r) : g.Climbs n (name i) (name r) := by
  induction hi with
  | here i => exact .here (name i)
  | up parent rest ih => exact .up ((h.parent_eq_some_iff _ _).mpr parent) ih

theorem Renamed.roots_perm : g.roots.Perm (f.roots.map name) := by
  apply filter_range_renamed h.injective
  · intro i
    rw [h.closed, h.parent, Option.isNone_map]
  · intro j hj
    exact h.named j ((Bool.and_eq_true _ _).mp hj).1
  · intro i hi
    exact lt_size_of_isClosed ((Bool.and_eq_true _ _).mp hi).1
  · intro j hj
    exact lt_size_of_isClosed ((Bool.and_eq_true _ _).mp hj).1

theorem Renamed.children_perm (closed : ∀ j p, g.parent? j = some p → g.isClosed j = true)
    (i : Nat) : (g.children (name i)).Perm ((f.children i).map name) := by
  apply filter_range_renamed h.injective
  · intro j
    rw [Bool.eq_iff_iff, beq_iff_eq, beq_iff_eq]
    exact h.parent_eq_some_iff j i
  · intro j hj
    exact h.named j (closed j _ (beq_iff_eq.mp hj))
  · intro j hj
    exact lt_size_of_parent? (beq_iff_eq.mp hj)
  · intro j hj
    exact lt_size_of_parent? (beq_iff_eq.mp hj)

variable {rank rank' : Nat → Nat} (ranked : f.Ranked rank) (ranked' : g.Ranked rank')
include ranked ranked'

theorem Renamed.depth (i : Nat) : g.depth (name i) = f.depth i := by
  obtain ⟨r, hr, top, _⟩ := ranked.climbs_depth i
  apply ranked'.depth_eq (h.climbs hr)
  rw [h.parent, top]
  rfl

theorem Renamed.outer_perm : ((List.range g.size).filter g.isOuter).Perm
    (((List.range f.size).filter f.isOuter).map name) := by
  apply filter_range_renamed h.injective
  · intro i
    rw [isOuter, isOuter, h.closed, h.depth ranked ranked']
  · intro j hj
    exact h.named j ((Bool.and_eq_true _ _).mp hj).1
  · intro i hi
    exact lt_size_of_isClosed ((Bool.and_eq_true _ _).mp hi).1
  · intro j hj
    exact lt_size_of_isClosed ((Bool.and_eq_true _ _).mp hj).1

/-- The regions are the same under their new names, but for the order of drawing. -/
theorem Renamed.regions_perm (closed : ∀ j p, g.parent? j = some p → g.isClosed j = true) :
    (g.regions.map Region.unordered).Perm
      (f.regions.map fun r => (r.rename name).unordered) := by
  have houter := (h.outer_perm ranked ranked').map fun j => (j, (g.children j : Multiset Nat))
  rw [List.map_map] at houter
  have hregion : ∀ i, ((name i, (g.children (name i) : Multiset Nat)) : Nat × Multiset Nat) =
      (Region.rename name ⟨i, f.children i⟩).unordered := by
    intro i
    exact congrArg (Prod.mk (name i)) (Multiset.coe_eq_coe.mpr (h.children_perm closed i))
  rw [regions, regions, List.map_map, List.map_map]
  refine houter.trans (List.Perm.of_eq (List.map_congr_left fun i _ => ?_))
  exact hregion i

/-- Names in the order of drawing leave the regions as they are. -/
theorem Renamed.regions_eq (mono : StrictMono name)
    (closed : ∀ j p, g.parent? j = some p → g.isClosed j = true) :
    g.regions = f.regions.map (Region.rename name) := by
  have houter := filter_range_eq_of_perm mono (h.outer_perm ranked ranked')
  have hchildren (i : Nat) : g.children (name i) = (f.children i).map name :=
    filter_range_eq_of_perm mono (h.children_perm closed i)
  have hregions (k : Forest) : k.regions =
      ((List.range k.size).filter k.isOuter).map fun i => ⟨i, k.children i⟩ := rfl
  rw [hregions, hregions, houter, List.map_map, List.map_map]
  refine List.map_congr_left fun i _ => ?_
  exact congrArg (Region.mk (name i)) (hchildren i)

end renamed

end Forest

end Reaming
