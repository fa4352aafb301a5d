import Reaming.Proofs.Ordered
import Reaming.Proofs.Area.Climbs
import Reaming.Proofs.Area.Placed

namespace Reaming

variable {α : Type} [Scalar α]

namespace Forest

theorem holds_iff {outer inner : Placed α} : holds outer inner = true ↔
    outer.index ≠ inner.index ∧ outer.figure.closed = true ∧
      outer.figure.bounds.encloses inner.figure.bounds = true ∧
        ((outer.figure.bounds == inner.figure.bounds) = true → outer.index ≤ inner.index) := by
  cases h : (outer.figure.bounds == inner.figure.bounds) <;> simp [holds, and_assoc, h]

theorem build_size (figures : List (Figure α)) : (build figures).size = figures.length := by
  simp [build, size, placed]

theorem build_isClosed {figures : List (Figure α)} {i : Nat} :
    (build figures).isClosed i = true ↔ ∃ f, figures[i]? = some f ∧ f.closed = true := by
  simp only [isClosed, build, List.getElem?_map, placed_getElem?]
  cases figures[i]? <;> simp

theorem closer_mem {xs : List (Placed α)} {o : Placed α} (h : xs.foldl closer none = some o) :
    o ∈ xs := by
  have either (best : Option (Placed α)) (x : Placed α) :
      closer best x = best ∨ closer best x = some x := by
    cases best with
    | none => exact .inr rfl
    | some b =>
      rw [closer]
      split
      · exact .inl rfl
      · exact .inr rfl
  exact mem_of_foldl_choose either h

/-- Whichever candidate wins, it is a closed figure that holds its child. -/
theorem build_parent {figures : List (Figure α)} {i p : Nat}
    (h : (build figures).parent? i = some p) : ∃ outer inner,
      figures[p]? = some outer ∧ figures[i]? = some inner ∧ inner.closed = true ∧
        holds ⟨p, outer⟩ ⟨i, inner⟩ = true := by
  simp only [parent?, build, List.getElem?_map, placed_getElem?, Option.bind_eq_some_iff,
    Option.map_eq_some_iff] at h
  obtain ⟨_, ⟨_, ⟨inner, hi, rfl⟩, rfl⟩, h⟩ := h
  simp only [chooseParent] at h
  split at h
  · rename_i hclosed
    obtain ⟨o, ho, rfl⟩ := Option.map_eq_some_iff.mp h
    obtain ⟨hmem, hholds⟩ := List.mem_filter.mp (closer_mem ho)
    exact ⟨o.figure, inner, mem_placed.mp hmem, hi, hclosed, hholds⟩
  · cases h

theorem closer_isSome (xs : List (Placed α)) (best : Option (Placed α))
    (h : best.isSome = true ∨ xs ≠ []) : (xs.foldl closer best).isSome = true := by
  induction xs generalizing best with
  | nil => exact h.resolve_right (· rfl)
  | cons x xs ih =>
    apply ih
    left
    cases best with
    | none => rfl
    | some b =>
      rw [closer]
      split <;> rfl

/-- If one figure alone may be the parent, it is. -/
theorem chooseParent_of_unique {all : List (Placed α)} {inner o : Placed α}
    (closed : inner.figure.closed = true) (mem : o ∈ all) (held : holds o inner = true)
    (unique : ∀ p ∈ all, holds p inner = true → p = o) :
    chooseParent all inner = some o.index := by
  have ho : o ∈ all.filter (holds · inner) := List.mem_filter.mpr ⟨mem, held⟩
  obtain ⟨p, hp⟩ := Option.isSome_iff_exists.mp
    (closer_isSome _ none (.inr (List.ne_nil_of_mem ho)))
  rw [chooseParent, if_pos closed, hp]
  obtain ⟨hmem, hheld⟩ := List.mem_filter.mp (closer_mem hp)
  rw [unique p hmem hheld]
  rfl

theorem chooseParent_of_none {all : List (Placed α)} {inner : Placed α}
    (none : ∀ p ∈ all, holds p inner = false) : chooseParent all inner = .none := by
  have hnil : all.filter (holds · inner) = [] := by
    rw [List.filter_eq_nil_iff]
    intro p hp
    rw [none p hp]
    exact Bool.false_ne_true
  rw [chooseParent, hnil]
  split <;> rfl

theorem parent?_of_mem {figures : List (Figure α)} {p : Placed α} (h : p ∈ placed figures) :
    (build figures).parent? p.index = chooseParent (placed figures) p := by
  rw [parent?, build, List.getElem?_map, placed_getElem?, mem_placed.mp h]
  rfl

theorem build_parent_isClosed {figures : List (Figure α)} (i p : Nat)
    (h : (build figures).parent? i = some p) : (build figures).isClosed p = true := by
  obtain ⟨outer, inner, ho, _, _, hh⟩ := build_parent h
  exact build_isClosed.mpr ⟨outer, ho, (holds_iff.mp hh).2.1⟩

theorem build_closed (figures : List (Figure α)) (i p : Nat)
    (h : (build figures).parent? i = some p) :
    (build figures).isClosed i = true ∧ (build figures).isClosed p = true := by
  obtain ⟨_, inner, _, hi, hc, _⟩ := build_parent h
  exact ⟨build_isClosed.mpr ⟨inner, hi, hc⟩, build_parent_isClosed i p h⟩

end Forest

/-- `outer` encloses `inner`, and was drawn earlier if they enclose each other. -/
def Above (outer inner : Placed α) : Prop :=
  outer.figure.bounds.encloses inner.figure.bounds = true ∧
    (inner.figure.bounds.encloses outer.figure.bounds = true → outer.index < inner.index)

instance (outer inner : Placed α) : Decidable (Above outer inner) :=
  inferInstanceAs (Decidable (_ ∧ (_ → _)))

theorem Above.irrefl (p : Placed α) : ¬ Above p p := by
  rintro ⟨h, hlt⟩
  exact Nat.lt_irrefl _ (hlt h)

section ordered

variable [Scalar.Ordered α]

theorem Above.trans {a b c : Placed α} (hab : Above a b) (hbc : Above b c) : Above a c := by
  refine ⟨Bounds.encloses_trans hab.1 hbc.1, ?_⟩
  intro hca
  have hba := Bounds.encloses_trans hbc.1 hca
  have hcb := Bounds.encloses_trans hca hab.1
  exact Nat.lt_trans (hab.2 hba) (hbc.2 hcb)

theorem above_of_holds {outer inner : Placed α} (h : Forest.holds outer inner = true) :
    Above outer inner := by
  obtain ⟨hne, _, henc, htie⟩ := Forest.holds_iff.mp h
  refine ⟨henc, ?_⟩
  intro hback
  have hle := htie (Bounds.beq_iff_encloses.mpr ⟨henc, hback⟩)
  exact Nat.lt_of_le_of_ne hle hne

def rankIn (figures : List (Figure α)) (i : Nat) : Nat :=
  match (placed figures)[i]? with
  | some inner => ((placed figures).filter fun outer => Above outer inner).length
  | none => 0

theorem length_above_lt {all : List (Placed α)} {outer inner : Placed α} (hmem : outer ∈ all)
    (h : Above outer inner) :
    (all.filter fun o => Above o outer).length < (all.filter fun o => Above o inner).length := by
  have hsub : (all.filter fun o => Above o outer) =
      (all.filter fun o => Above o inner).filter fun o => Above o outer := by
    rw [List.filter_filter]
    apply List.filter_congr
    intro o _
    by_cases ho : Above o outer
    · simp [ho, ho.trans h]
    · simp [ho]
  rw [hsub, List.length_filter_lt_length_iff_exists]
  exact ⟨outer, List.mem_filter.mpr ⟨hmem, decide_eq_true h⟩, by simp [Above.irrefl]⟩

theorem build_ranked (figures : List (Figure α)) :
    (Forest.build figures).Ranked (rankIn figures) where
  parent := by
    intro i p h
    obtain ⟨outer, inner, ho, hi, _, hh⟩ := Forest.build_parent h
    simp only [rankIn, placed_getElem?, ho, hi, Option.map_some]
    exact length_above_lt (mem_placed.mpr ho) (above_of_holds hh)
  bounded := by
    intro i
    rw [Forest.build_size]
    unfold rankIn
    split
    · exact Nat.le_trans (List.length_filter_le _ _) (by simp [placed])
    · exact Nat.zero_le _

end ordered

theorem build_isClosed_of_closed {paths : List (Path α)} {i : Nat} {p : Path α}
    (hp : paths[i]? = some p) (closed : p.closed = true) :
    (Forest.build (paths.map Path.figure)).isClosed i = true := by
  refine Forest.build_isClosed.mpr ⟨p.figure, ?_, closed⟩
  rw [List.getElem?_map, hp]
  rfl

theorem build_parent_encloses {paths : List (Path α)} {i p : Nat}
    (h : (Forest.build (paths.map Path.figure)).parent? i = some p) : ∃ outer inner,
      paths[p]? = some outer ∧ paths[i]? = some inner ∧ outer.closed = true ∧
        inner.closed = true ∧ outer.bounds.x0 ≤ inner.bounds.x0 ∧
        outer.bounds.y0 ≤ inner.bounds.y0 ∧ inner.bounds.x1 ≤ outer.bounds.x1 ∧
        inner.bounds.y1 ≤ outer.bounds.y1 := by
  obtain ⟨_, _, ho, hi, hclosed, hh⟩ := Forest.build_parent h
  rw [List.getElem?_map] at ho hi
  obtain ⟨outer, houter, rfl⟩ := Option.map_eq_some_iff.mp ho
  obtain ⟨inner, hinner, rfl⟩ := Option.map_eq_some_iff.mp hi
  obtain ⟨_, hout, henc, _⟩ := Forest.holds_iff.mp hh
  refine ⟨outer, inner, houter, hinner, hout, hclosed, ?_⟩
  rw [← outer.bounds_sampled, ← inner.bounds_sampled]
  exact Bounds.encloses_iff.mp henc

/-- Nesting is sound for whatever paths are drawn: no figure is above itself, every figure climbs
to a root in as many steps as its depth and no more than there are paths, a closed path belongs to
one root only, and parents are closed paths with their children in their bounds. -/
theorem build_nested (paths : List (Path Float)) :
    let f := Forest.build (paths.map Path.figure)
    (∀ n i, ¬ f.Climbs (n + 1) i i) ∧
    (∀ i, ∃ r, f.Climbs (f.depth i) i r ∧ f.parent? r = none ∧ f.depth i ≤ paths.length) ∧
    (∀ i p, f.parent? i = some p → f.depth i = f.depth p + 1) ∧
    (∀ i p, paths[i]? = some p → p.closed = true → ∃! r, r ∈ f.roots ∧ ∃ n, f.Climbs n i r) ∧
    (∀ i p, f.parent? i = some p → ∃ outer inner, paths[p]? = some outer ∧
      paths[i]? = some inner ∧ outer.closed = true ∧ inner.closed = true ∧
      outer.bounds.x0 ≤ inner.bounds.x0 ∧ outer.bounds.y0 ≤ inner.bounds.y0 ∧
      inner.bounds.x1 ≤ outer.bounds.x1 ∧ inner.bounds.y1 ≤ outer.bounds.y1) := by
  intro f
  have ranked := build_ranked (paths.map Path.figure)
  have parents : ∀ i p, f.parent? i = some p → f.isClosed p = true := Forest.build_parent_isClosed
  refine ⟨ranked.acyclic, ?_, ?_, ?_, ?_⟩
  · intro i
    obtain ⟨r, hr, top, hle⟩ := ranked.climbs_depth i
    rw [Forest.build_size, List.length_map] at hle
    exact ⟨r, hr, top, hle⟩
  · intro i p h
    exact ranked.depth_parent h
  · intro i p hp closed
    exact ranked.unique_root parents (build_isClosed_of_closed hp closed)
  · intro i p h
    exact build_parent_encloses h

/-- A square with two corners on the diagonal. -/
def block {α : Type} (low high : α) : Path α :=
  ⟨[.line ⟨low, low⟩ ⟨high, low⟩, .line ⟨high, low⟩ ⟨high, high⟩,
    .line ⟨high, high⟩ ⟨low, high⟩, .line ⟨low, high⟩ ⟨low, low⟩], true⟩

/-- Squares in each other, two of them the same, with an open path, a flat one, one that is no place
and one around everything. -/
def nest : List (Path Float) :=
  let infinite : Float := 1.0 / 0.0
  [block 2.0 8.0, block 1.0 9.0, block 1.0 9.0, { block 0.0 20.0 with closed := false },
    block 0.0 10.0, ⟨[.line ⟨3.0, 3.0⟩ ⟨5.0, 3.0⟩, .line ⟨5.0, 3.0⟩ ⟨3.0, 3.0⟩], true⟩,
    block (0.0 / 0.0) (0.0 / 0.0), block (-infinite) infinite]

theorem build_nested_nest :
    let f := Forest.build (nest.map Path.figure)
    (List.range 9).map f.parent? =
      [some 2, some 4, some 1, none, some 7, some 0, none, none, none] ∧
    f.roots = [6, 7] ∧ (List.range 9).map f.depth = [4, 2, 3, 0, 1, 5, 0, 0, 0] ∧
    (∃ r, f.Climbs 5 5 r ∧ f.parent? r = none) ∧
    (∃! r, r ∈ f.roots ∧ ∃ n, f.Climbs n 5 r) ∧ f.depth 5 = f.depth 0 + 1 := by
  intro f
  have hparents : (List.range 9).map f.parent? =
      [some 2, some 4, some 1, none, some 7, some 0, none, none, none] := by decide +kernel
  have hdepths : (List.range 9).map f.depth = [4, 2, 3, 0, 1, 5, 0, 0, 0] := by decide +kernel
  obtain ⟨_, climbs, above, descends, _⟩ := build_nested nest
  have hdepth : f.depth 5 = 5 := by decide +kernel
  obtain ⟨r, hr, top, _⟩ := climbs 5
  rw [hdepth] at hr
  exact ⟨hparents, by decide +kernel, hdepths, ⟨r, hr, top⟩, descends 5 _ rfl rfl,
    above 5 0 (by decide +kernel)⟩

end Reaming
