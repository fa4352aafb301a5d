import Mathlib.Data.List.Chain
import Reaming.Proofs.Area.Nesting
import Reaming.Proofs.Geometry.Flat

namespace Reaming

variable {α : Type}

theorem placed_sorted (figures : List (Figure α)) :
    (placed figures).Pairwise fun p q => p.index ≤ q.index := by
  have h : ((placed figures).map Placed.index).Pairwise (· ≤ ·) := by
    rw [placed_index]
    exact List.pairwise_le_range
  exact List.pairwise_map.mp h

variable [Scalar α]

namespace Forest

/-- Only a figure that nothing holds is without a parent. -/
theorem chooseParent_eq_none_iff {all : List (Placed α)} {inner : Placed α}
    (closed : inner.figure.closed = true) :
    chooseParent all inner = none ↔ ∀ p ∈ all, holds p inner = false := by
  refine ⟨fun h p hp => ?_, chooseParent_of_none⟩
  rw [chooseParent, if_pos closed, Option.map_eq_none_iff] at h
  refine Bool.eq_false_iff.mpr fun hheld => ?_
  have hsome := closer_isSome (all.filter (holds · inner)) none
    (.inr (List.ne_nil_of_mem (List.mem_filter.mpr ⟨hp, hheld⟩)))
  rw [h] at hsome
  cases hsome

/-- No figure has smaller bounds than `o`, and none of those behind it has bounds as small. -/
structure Closest (o : Placed α) (figures : List (Placed α)) : Prop where
  mem : o ∈ figures
  least : ∀ p ∈ figures, o.figure.bounds.area ≤ p.figure.bounds.area
  last : ∀ p ∈ figures, p.figure.bounds.area ≤ o.figure.bounds.area → p.index ≤ o.index

theorem Closest.unique {o o' : Placed α} {figures : List (Placed α)} (h : Closest o figures)
    (h' : Closest o' figures) : o.index = o'.index :=
  Nat.le_antisymm (h'.last o h.mem (h.least o' h'.mem)) (h.last o' h'.mem (h'.least o h.mem))

variable [Scalar.Ordered α]

/-- One more figure takes the place of the closest one unless its bounds are greater. -/
theorem Closest.closer {b x : Placed α} {figures : List (Placed α)} (h : Closest b figures)
    (number : x.figure.bounds.area ≤ x.figure.bounds.area)
    (behind : ∀ p ∈ figures, p.index ≤ x.index) :
    ∃ o, Forest.closer (some b) x = some o ∧ Closest o (figures ++ [x]) := by
  have hb := h.least b h.mem
  by_cases hlt : b.figure.bounds.area < x.figure.bounds.area
  · obtain ⟨hle, hnot⟩ := Scalar.Ordered.lt_iff.mp hlt
    refine ⟨b, if_pos hlt, List.mem_append_left _ h.mem, ?_, ?_⟩
    · exact List.forall_mem_append.mpr ⟨h.least, List.forall_mem_singleton.mpr hle⟩
    · exact List.forall_mem_append.mpr ⟨h.last, List.forall_mem_singleton.mpr fun hx =>
        absurd hx hnot⟩
  · have hle := Scalar.le_of_not_lt number hb hlt
    refine ⟨x, if_neg hlt, List.mem_append_right _ List.mem_cons_self, ?_, ?_⟩
    · exact List.forall_mem_append.mpr ⟨fun p hp => Scalar.Ordered.le_trans hle (h.least p hp),
        List.forall_mem_singleton.mpr number⟩
    · exact List.forall_mem_append.mpr ⟨fun p hp _ => behind p hp,
        List.forall_mem_singleton.mpr fun _ => Nat.le_refl _⟩

/-- In drawing order the choice comes down to the closest figure. -/
theorem foldl_closer {figures : List (Placed α)} (ne : figures ≠ [])
    (numbers : ∀ p ∈ figures, p.figure.bounds.area ≤ p.figure.bounds.area)
    (sorted : figures.Pairwise fun p q => p.index ≤ q.index) :
    ∃ o, figures.foldl closer none = some o ∧ Closest o figures := by
  induction figures using List.reverseRecOn with
  | nil => exact absurd rfl ne
  | append_singleton figures x ih =>
    obtain ⟨hnumbers, hx⟩ := List.forall_mem_append.mp numbers
    have hx := List.forall_mem_singleton.mp hx
    obtain ⟨hsorted, _, hbehind⟩ := List.pairwise_append.mp sorted
    rw [List.foldl_concat]
    by_cases hnil : figures = []
    · subst hnil
      exact ⟨x, rfl, List.mem_cons_self, List.forall_mem_singleton.mpr hx,
        List.forall_mem_singleton.mpr fun _ => Nat.le_refl _⟩
    · obtain ⟨b, hb, hclosest⟩ := ih hnil hnumbers hsorted
      rw [hb]
      exact hclosest.closer hx fun p hp => hbehind p hp x List.mem_cons_self

/-- The parent is the closest of the figures that may be it. -/
theorem chooseParent_eq_some_iff {figures : List (Figure α)} {inner : Placed α}
    (closed : inner.figure.closed = true)
    (numbers : ∀ p ∈ placed figures, holds p inner = true →
      p.figure.bounds.area ≤ p.figure.bounds.area) (j : Nat) :
    chooseParent (placed figures) inner = some j ↔
      ∃ o, Closest o ((placed figures).filter (holds · inner)) ∧ o.index = j := by
  have hspec (h : (placed figures).filter (holds · inner) ≠ []) := foldl_closer h
    (fun p hp => numbers p (List.mem_of_mem_filter hp) (List.mem_filter.mp hp).2)
    ((placed_sorted figures).filter _)
  rw [chooseParent, if_pos closed, Option.map_eq_some_iff]
  constructor
  · rintro ⟨o, ho, rfl⟩
    obtain ⟨o', ho', hclosest⟩ := hspec (List.ne_nil_of_mem (closer_mem ho))
    obtain rfl := Option.some.inj (ho.symm.trans ho')
    exact ⟨o, hclosest, rfl⟩
  · rintro ⟨o, hclosest, rfl⟩
    obtain ⟨o', ho', hclosest'⟩ := hspec (List.ne_nil_of_mem hclosest.mem)
    exact ⟨o', ho', hclosest'.unique hclosest⟩

end Forest

/-- The path `q` at `j` may be the parent of the path `p` at `i`: it is another closed path, and its
bounds enclose those of `p`. If the bounds are equal, it is drawn earlier. -/
structure Candidate (paths : List (Path α)) (i : Nat) (p : Path α) (j : Nat) (q : Path α) :
    Prop where
  drawn : paths[j]? = some q
  other : j ≠ i
  closed : q.closed = true
  encloses : q.bounds.encloses p.bounds = true
  earlier : (q.bounds == p.bounds) = true → j < i

/-- The figures that may hold a path are those of its candidates. -/
theorem mem_holding_iff {paths : List (Path α)} {i : Nat} {p : Path α} {o : Placed α} :
    o ∈ (placed (paths.map Path.figure)).filter (Forest.holds · ⟨i, p.figure⟩) ↔
      ∃ q, o = ⟨o.index, q.figure⟩ ∧ Candidate paths i p o.index q := by
  obtain ⟨j, f⟩ := o
  rw [List.mem_filter, mem_placed, List.getElem?_map, Option.map_eq_some_iff]
  constructor
  · rintro ⟨⟨q, hq, rfl⟩, hholds⟩
    obtain ⟨hne, hclosed, henc, hle⟩ := Forest.holds_iff.mp hholds
    simp only [Path.figure_eq] at hclosed henc hle
    exact ⟨q, rfl, hq, hne, hclosed, henc, fun h => Nat.lt_of_le_of_ne (hle h) hne⟩
  · rintro ⟨q, h, hq, hne, hclosed, henc, hearlier⟩
    cases h
    refine ⟨⟨q, hq, rfl⟩, Forest.holds_iff.mpr ?_⟩
    simp only [Path.figure_eq]
    exact ⟨hne, hclosed, henc, fun h => Nat.le_of_lt (hearlier h)⟩

theorem Candidate.mem_holding {paths : List (Path α)} {i j : Nat} {p q : Path α}
    (h : Candidate paths i p j q) :
    ⟨j, q.figure⟩ ∈ (placed (paths.map Path.figure)).filter (Forest.holds · ⟨i, p.figure⟩) :=
  mem_holding_iff.mpr ⟨q, rfl, h⟩

section parent
variable {paths : List (Path α)} {i : Nat} {p : Path α}

theorem parent?_of_path (hp : paths[i]? = some p) :
    (Forest.build (paths.map Path.figure)).parent? i =
      Forest.chooseParent (placed (paths.map Path.figure)) ⟨i, p.figure⟩ := by
  refine Forest.parent?_of_mem (p := ⟨i, p.figure⟩) (mem_placed.mpr ?_)
  rw [List.getElem?_map, hp]
  rfl

theorem parent?_eq_none_iff_candidate (hp : paths[i]? = some p) (closed : p.closed = true) :
    (Forest.build (paths.map Path.figure)).parent? i = none ↔
      ∀ j q, ¬Candidate paths i p j q := by
  rw [parent?_of_path hp, Forest.chooseParent_eq_none_iff (by rwa [Path.figure_eq])]
  constructor
  · intro h j q hq
    obtain ⟨hmem, hholds⟩ := List.mem_filter.mp hq.mem_holding
    rw [h _ hmem] at hholds
    cases hholds
  · intro h o ho
    refine Bool.eq_false_iff.mpr fun hholds => ?_
    obtain ⟨q, _, hq⟩ := mem_holding_iff.mp (List.mem_filter.mpr ⟨ho, hholds⟩)
    exact h _ q hq

variable [Scalar.Ordered α]

theorem parent?_eq_some_iff_candidate (hp : paths[i]? = some p) (closed : p.closed = true)
    (numbers : ∀ j q, Candidate paths i p j q → Scalar.isNaN q.bounds.area = false) (j : Nat) :
    (Forest.build (paths.map Path.figure)).parent? i = some j ↔
      ∃ q, Candidate paths i p j q ∧ ∀ k r, Candidate paths i p k r →
        q.bounds.area ≤ r.bounds.area ∧ (r.bounds.area ≤ q.bounds.area → k ≤ j) := by
  have hnumbers : ∀ o ∈ placed (paths.map Path.figure), Forest.holds o ⟨i, p.figure⟩ = true →
      o.figure.bounds.area ≤ o.figure.bounds.area := by
    intro o ho hholds
    obtain ⟨q, h, hq⟩ := mem_holding_iff.mp (List.mem_filter.mpr ⟨ho, hholds⟩)
    rw [h, q.figure_eq]
    exact Scalar.isNaN_iff.mp (numbers _ q hq)
  rw [parent?_of_path hp, Forest.chooseParent_eq_some_iff (by rwa [Path.figure_eq]) hnumbers]
  constructor
  · rintro ⟨o, hclosest, rfl⟩
    obtain ⟨q, h, hq⟩ := mem_holding_iff.mp hclosest.mem
    refine ⟨q, hq, fun k r hr => ?_⟩
    have hleast := hclosest.least _ hr.mem_holding
    have hlast := hclosest.last _ hr.mem_holding
    rw [h, q.figure_eq, r.figure_eq] at hleast hlast
    exact ⟨hleast, hlast⟩
  · rintro ⟨q, hq, hbest⟩
    refine ⟨⟨j, q.figure⟩, ⟨hq.mem_holding, ?_, ?_⟩, rfl⟩
    · intro o ho
      obtain ⟨r, h, hr⟩ := mem_holding_iff.mp ho
      rw [h, q.figure_eq, r.figure_eq]
      exact (hbest _ r hr).1
    · intro o ho hle
      obtain ⟨r, h, hr⟩ := mem_holding_iff.mp ho
      rw [h, q.figure_eq, r.figure_eq] at hle
      exact (hbest _ r hr).2 hle

end parent

def alike (paths : List (Path α)) (b : Bounds α) : List Nat :=
  (List.range paths.length).filter fun i =>
    paths[i]?.any fun p => p.closed && p.bounds == b

theorem mem_alike {paths : List (Path α)} {b : Bounds α} {i : Nat} : i ∈ alike paths b ↔
    ∃ p, paths[i]? = some p ∧ p.closed = true ∧ (p.bounds == b) = true := by
  rw [alike, List.mem_filter, List.mem_range]
  constructor
  · rintro ⟨_, h⟩
    simpa [Option.any_eq_true] using h
  · rintro ⟨p, hp, hclosed, hb⟩
    refine ⟨(List.getElem?_eq_some_iff.mp hp).1, ?_⟩
    simp [hp, hclosed, hb]

theorem alike_sorted (paths : List (Path α)) (b : Bounds α) : (alike paths b).Pairwise (· < ·) :=
  List.pairwise_lt_range.filter _

/-- In a sorted list each member comes right behind the greatest of those below it. -/
theorem isChain_of_sorted {is : List Nat} (sorted : is.Pairwise (· < ·)) {R : Nat → Nat → Prop}
    (next : ∀ i ∈ is, ∀ j ∈ is, i < j → (∀ k ∈ is, k < j → k ≤ i) → R i j) : is.IsChain R := by
  rw [List.isChain_iff_getElem]
  intro n hn
  have hlt := List.pairwise_iff_getElem.mp sorted
  refine next _ (List.getElem_mem _) _ (List.getElem_mem _) (hlt _ _ _ _ (Nat.lt_succ_self n)) ?_
  intro k hk hkj
  obtain ⟨m, hm, rfl⟩ := List.mem_iff_getElem.mp hk
  have hmn : m ≤ n := by
    apply Nat.le_of_not_lt
    intro hnm
    rcases Nat.lt_or_eq_of_le hnm with h | rfl
    · exact Nat.lt_asymm hkj (hlt _ _ _ _ h)
    · exact Nat.lt_irrefl _ hkj
  rcases Nat.lt_or_eq_of_le hmn with h | rfl
  · exact Nat.le_of_lt (hlt _ _ _ _ h)
  · exact Nat.le_refl _

section exact
variable {K : Type} [Field K] [LinearOrder K] [IsStrictOrderedRing K] [Root K]

omit [IsStrictOrderedRing K] in
theorem Bounds.beq_exact {a b : Bounds K} : (a == b) = true ↔ a = b := by
  rw [Bounds.beq_iff]
  obtain ⟨x0, y0, x1, y1⟩ := a
  obtain ⟨u0, v0, u1, v1⟩ := b
  simp only [beq_iff_eq, Bounds.mk.injEq]

variable {paths : List (Path K)} {b : Bounds K}

omit [IsStrictOrderedRing K] in
theorem mem_alike_exact {i : Nat} : i ∈ alike paths b ↔
    ∃ p, paths[i]? = some p ∧ p.closed = true ∧ p.bounds = b := by
  simp only [mem_alike, Bounds.beq_exact]

/-- A box around one with area has more area, if it is not the same box. -/
theorem Candidate.area_cases {i j : Nat} {p q : Path K} (h : Candidate paths i p j q)
    (hp : p.bounds.area ≠ 0) :
    (q.bounds = p.bounds ∧ j < i) ∨ p.bounds.area < q.bounds.area := by
  by_cases hback : p.bounds.encloses q.bounds = true
  · have hbeq := Bounds.beq_iff_encloses.mpr ⟨h.encloses, hback⟩
    exact .inl ⟨Bounds.beq_exact.mp hbeq, h.earlier hbeq⟩
  · refine .inr (Bounds.area_lt p.bounds_upright h.encloses (Bool.eq_false_iff.mpr hback) ?_)
    intro hflat
    have := Bounds.flat_of_encloses p.bounds_upright h.encloses hflat
    exact hp (mul_eq_zero.mpr this)

theorem isChain_alike (pos : 0 < b.area) : (alike paths b).IsChain fun i j =>
    (Forest.build (paths.map Path.figure)).parent? j = some i := by
  refine isChain_of_sorted (alike_sorted paths b) fun i hi j hj hij hlast => ?_
  obtain ⟨q, hq, hqclosed, rfl⟩ := mem_alike_exact.mp hi
  obtain ⟨p, hp, hpclosed, hbounds⟩ := mem_alike_exact.mp hj
  have hpos : p.bounds.area ≠ 0 := hbounds ▸ ne_of_gt pos
  rw [parent?_eq_some_iff_candidate hp hpclosed fun _ _ _ => Scalar.isNaN_exact _]
  have hself : p.bounds.encloses p.bounds = true :=
    (Bounds.beq_iff_encloses.mp (Bounds.beq_exact.mpr rfl)).1
  refine ⟨q, ⟨hq, Nat.ne_of_lt hij, hqclosed, ?_, fun _ => hij⟩, fun k r hr => ?_⟩
  · rwa [← hbounds]
  · rw [← hbounds]
    rcases hr.area_cases hpos with ⟨hsame, hkj⟩ | hlt
    · rw [hsame]
      refine ⟨le_refl _, fun _ => hlast k (mem_alike_exact.mpr ⟨r, hr.drawn, hr.closed, ?_⟩) hkj⟩
      rw [hsame, hbounds]
    · exact ⟨le_of_lt hlt, fun hle => absurd hlt (not_lt.mpr hle)⟩

omit [IsStrictOrderedRing K] in
/-- The first of the paths with the same bounds has its parent among the others, if it has one. -/
theorem parent_head_alike {first parent : Nat} (hfirst : (alike paths b).head? = some first)
    (h : (Forest.build (paths.map Path.figure)).parent? first = some parent) :
    parent ∉ alike paths b := by
  intro hmem
  obtain ⟨p, hp, hclosed, hbounds⟩ := mem_alike_exact.mp (List.mem_of_mem_head? hfirst)
  obtain ⟨q, hq, _⟩ := (parent?_eq_some_iff_candidate hp hclosed
    (fun _ _ _ => Scalar.isNaN_exact _) parent).mp h
  obtain ⟨q', hq', _, hsame⟩ := mem_alike_exact.mp hmem
  obtain rfl := Option.some.inj (hq.drawn.symm.trans hq')
  have hlt : parent < first := hq.earlier (Bounds.beq_exact.mpr (hsame.trans hbounds.symm))
  obtain ⟨rest, hrest⟩ : ∃ rest, alike paths b = first :: rest := by
    obtain ⟨rest, hrest⟩ := List.head?_eq_some_iff.mp hfirst
    exact ⟨rest, hrest⟩
  have hsorted := alike_sorted paths b
  rw [hrest] at hmem hsorted
  rcases List.mem_cons.mp hmem with rfl | hlater
  · exact Nat.lt_irrefl _ hlt
  · exact Nat.lt_asymm hlt ((List.pairwise_cons.mp hsorted).1 parent hlater)

end exact

/-- A closed path is a root exactly if no other closed path may be its parent. Otherwise its parent
is the candidate with the smallest bounds, the last one of those in drawing order, as long as the
areas of the bounds are numbers. In exact arithmetic all closed paths with the same bounds, which
have some area, make one chain in drawing order, and whatever encloses them comes before the
first. -/
theorem build_parent_closest [Scalar.Ordered α] {K : Type} [Field K] [LinearOrder K]
    [IsStrictOrderedRing K] [Root K] :
    (∀ (paths : List (Path α)) (i : Nat) (p : Path α), paths[i]? = some p → p.closed = true →
      let f := Forest.build (paths.map Path.figure)
      (f.parent? i = none ↔ ∀ j q, ¬Candidate paths i p j q) ∧
      ((∀ j q, Candidate paths i p j q → Scalar.isNaN q.bounds.area = false) →
        ∀ j, f.parent? i = some j ↔ ∃ q, Candidate paths i p j q ∧
          ∀ k r, Candidate paths i p k r → q.bounds.area ≤ r.bounds.area ∧
            (r.bounds.area ≤ q.bounds.area → k ≤ j))) ∧
    ∀ (paths : List (Path K)) (b : Bounds K), 0 < b.area →
      let f := Forest.build (paths.map Path.figure)
      (alike paths b).IsChain (fun i j => f.parent? j = some i) ∧
      ∀ first parent, (alike paths b).head? = some first → f.parent? first = some parent →
        parent ∉ alike paths b := by
  constructor
  · intro paths i p hp hclosed
    exact ⟨parent?_eq_none_iff_candidate hp hclosed, fun numbers =>
      parent?_eq_some_iff_candidate hp hclosed numbers⟩
  · intro paths b pos
    exact ⟨isChain_alike pos, fun _ _ => parent_head_alike⟩

/-- A small square in two others that are the same, and these in a large one drawn last. -/
def twins : List (Path α) := [block 2.0 8.0, block 1.0 9.0, block 1.0 9.0, block 0.0 10.0]

theorem build_parent_closest_twins :
    let paths : List (Path Float) := twins
    let exact : List (Path ℚ) := twins
    (Forest.build (paths.map Path.figure)).parent? 0 = some 2 ∧
      (∃ q, Candidate paths 0 (block 2.0 8.0) 2 q ∧ ∀ k r, Candidate paths 0 (block 2.0 8.0) k r →
        q.bounds.area ≤ r.bounds.area ∧ (r.bounds.area ≤ q.bounds.area → k ≤ 2)) ∧
      alike exact ⟨1, 1, 9, 9⟩ = [1, 2] ∧
      (alike exact ⟨1, 1, 9, 9⟩).IsChain fun i j =>
        (Forest.build (exact.map Path.figure)).parent? j = some i := by
  intro paths exact
  obtain ⟨hclosest, hchain⟩ := build_parent_closest (α := Float) (K := ℚ)
  have hparent : (Forest.build (paths.map Path.figure)).parent? 0 = some 2 := by decide +kernel
  have hnumbers : ∀ q ∈ paths, Scalar.isNaN q.bounds.area = false := by decide +kernel
  have hfirst := (hclosest paths 0 (block 2.0 8.0) rfl rfl).2 fun j q hq =>
    hnumbers q (List.mem_of_getElem? hq.drawn)
  exact ⟨hparent, (hfirst 2).mp hparent, by decide +kernel,
    (hchain exact ⟨1, 1, 9, 9⟩ (by decide +kernel)).1⟩

end Reaming
