import Mathlib.Logic.ExistsUnique
import Reaming.Area.Forest

namespace Reaming.Forest

/-- Following `n` parent links from `i` leads to `r`. -/
inductive Climbs (f : Forest) : Nat → Nat → Nat → Prop where
  | here (i : Nat) : f.Climbs 0 i i
  | up {n i p r : Nat} (parent : f.parent? i = some p) (rest : f.Climbs n p r) :
      f.Climbs (n + 1) i r

/-- Two climbs to figures without a parent are the same climb. -/
theorem Climbs.unique {f : Forest} {n m i r s : Nat} (hr : f.Climbs n i r)
    (top : f.parent? r = none) (hs : f.Climbs m i s) (top' : f.parent? s = none) :
    n = m ∧ r = s := by
  induction hr generalizing m with
  | here i =>
    cases hs with
    | here => exact ⟨rfl, rfl⟩
    | up parent rest =>
      rw [top] at parent
      cases parent
  | up parent rest ih =>
    cases hs with
    | here =>
      rw [top'] at parent
      cases parent
    | up parent' rest' =>
      obtain rfl := Option.some.inj (parent.symm.trans parent')
      obtain ⟨hn, h⟩ := ih top rest'
      exact ⟨congrArg (· + 1) hn, h⟩

theorem Climbs.length_ancestorsWithin {f : Forest} {n i r : Nat} (h : f.Climbs n i r)
    (top : f.parent? r = none) (steps : Nat) (enough : n ≤ steps) :
    (f.ancestorsWithin steps i).length = n := by
  induction h generalizing steps with
  | here i =>
    cases steps with
    | zero => rfl
    | succ steps => rw [ancestorsWithin, top]; rfl
  | up parent rest ih =>
    cases steps with
    | zero => cases enough
    | succ steps =>
      rw [ancestorsWithin, parent]
      exact congrArg (· + 1) (ih top steps (Nat.le_of_succ_le_succ enough))

theorem Climbs.closed {f : Forest} {n i r : Nat} (h : f.Climbs n i r)
    (start : f.isClosed i = true)
    (parents : ∀ i p, f.parent? i = some p → f.isClosed p = true) : f.isClosed r = true := by
  induction h with
  | here i => exact start
  | up parent rest ih => exact ih (parents _ _ parent)

structure Ranked (f : Forest) (rank : Nat → Nat) : Prop where
  parent : ∀ i p, f.parent? i = some p → rank p < rank i
  bounded : ∀ i, rank i ≤ f.size

section ranked

variable {f : Forest} {rank : Nat → Nat}

theorem Ranked.climb_le (h : f.Ranked rank) {n i r : Nat} (hr : f.Climbs n i r) :
    n + rank r ≤ rank i := by
  induction hr with
  | here i => exact Nat.le_of_eq (Nat.zero_add _)
  | up parent rest ih =>
    have hlt := h.parent _ _ parent
    omega

theorem Ranked.acyclic (h : f.Ranked rank) (n i : Nat) : ¬ f.Climbs (n + 1) i i := by
  intro hi
  have hle := h.climb_le hi
  omega

theorem Ranked.exists_top (h : f.Ranked rank) (i : Nat) :
    ∃ n ≤ rank i, ∃ r, f.Climbs n i r ∧ f.parent? r = none := by
  induction hk : rank i using Nat.strongRecOn generalizing i with
  | ind k ih =>
    cases hp : f.parent? i with
    | none => exact ⟨0, Nat.zero_le k, i, .here i, hp⟩
    | some p =>
      have hlt := h.parent i p hp
      rw [hk] at hlt
      obtain ⟨n, hn, r, hr, top⟩ := ih (rank p) hlt p rfl
      exact ⟨n + 1, by omega, r, .up hp hr, top⟩

theorem Ranked.depth_eq (h : f.Ranked rank) {n i r : Nat} (hr : f.Climbs n i r)
    (top : f.parent? r = none) : f.depth i = n := by
  obtain ⟨m, hm, s, hs, top'⟩ := h.exists_top i
  obtain ⟨rfl, rfl⟩ := hr.unique top hs top'
  exact hr.length_ancestorsWithin top f.size (Nat.le_trans hm (h.bounded i))

/-- Every figure climbs to one without a parent, in as many steps as its depth says. -/
theorem Ranked.climbs_depth (h : f.Ranked rank) (i : Nat) :
    ∃ r, f.Climbs (f.depth i) i r ∧ f.parent? r = none ∧ f.depth i ≤ f.size := by
  obtain ⟨n, hn, r, hr, top⟩ := h.exists_top i
  rw [h.depth_eq hr top]
  exact ⟨r, hr, top, Nat.le_trans hn (h.bounded i)⟩

theorem Ranked.depth_parent (h : f.Ranked rank) {i p : Nat} (hp : f.parent? i = some p) :
    f.depth i = f.depth p + 1 := by
  obtain ⟨r, hr, top, _⟩ := h.climbs_depth p
  exact h.depth_eq (.up hp hr) top

theorem lt_size_of_isClosed {i : Nat} (h : f.isClosed i = true) : i < f.size := by
  apply Nat.lt_of_not_le
  intro hi
  rw [isClosed, List.getElem?_eq_none hi] at h
  cases h

theorem mem_roots {r : Nat} :
    r ∈ f.roots ↔ f.isClosed r = true ∧ f.parent? r = none := by
  simp only [roots, List.mem_filter, List.mem_range, Bool.and_eq_true, Option.isNone_iff_eq_none]
  exact ⟨fun h => h.2, fun h => ⟨lt_size_of_isClosed h.1, h⟩⟩

/-- Every closed figure descends from one root and no other. -/
theorem Ranked.unique_root (h : f.Ranked rank)
    (parents : ∀ i p, f.parent? i = some p → f.isClosed p = true) {i : Nat}
    (hi : f.isClosed i = true) : ∃! r, r ∈ f.roots ∧ ∃ n, f.Climbs n i r := by
  obtain ⟨r, hr, top, _⟩ := h.climbs_depth i
  refine ⟨r, ⟨mem_roots.mpr ⟨hr.closed hi parents, top⟩, _, hr⟩, ?_⟩
  rintro s ⟨hs, m, hm⟩
  exact (hm.unique (mem_roots.mp hs).2 hr top).2

end ranked

end Reaming.Forest
