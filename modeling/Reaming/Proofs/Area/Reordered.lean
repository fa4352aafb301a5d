import Mathlib.Logic.Equiv.Basic
import Mathlib.Algebra.Group.End
import Reaming.Proofs.Area.Closest
import Reaming.Proofs.Area.Renamed
import Reaming.Proofs.Decimal.EqualDoubles

namespace Reaming

section places

variable {β : Type}

/-- What stands at a place of `xs` stands in `ys` where `σ` puts it. -/
def Reordered (σ : Equiv.Perm Nat) (xs ys : List β) : Prop := ∀ i, ys[σ i]? = xs[i]?

def behindFirst (σ : Equiv.Perm Nat) : Equiv.Perm Nat where
  toFun
    | 0 => 0
    | i + 1 => σ i + 1
  invFun
    | 0 => 0
    | i + 1 => σ.symm i + 1
  left_inv := by rintro (_ | i) <;> simp
  right_inv := by rintro (_ | i) <;> simp

theorem Reordered.cons {σ : Equiv.Perm Nat} {xs ys : List β} (h : Reordered σ xs ys) (x : β) :
    Reordered (behindFirst σ) (x :: xs) (x :: ys) := by
  rintro (_ | i)
  · rfl
  · exact h i

theorem reordered_swap (x y : β) (xs : List β) :
    Reordered (Equiv.swap 0 1) (x :: y :: xs) (y :: x :: xs) := by
  rintro (_ | _ | i)
  · rfl
  · rfl
  · rw [Equiv.swap_apply_of_ne_of_ne (by omega) (by omega)]
    rfl

theorem Reordered.trans {σ τ : Equiv.Perm Nat} {xs ys zs : List β} (h : Reordered σ xs ys)
    (h' : Reordered τ ys zs) : Reordered (σ.trans τ) xs zs :=
  fun i => (h' (σ i)).trans (h i)

theorem Reordered.map {γ : Type} {σ : Equiv.Perm Nat} {xs ys : List β} (h : Reordered σ xs ys)
    (f : β → γ) : Reordered σ (xs.map f) (ys.map f) := by
  intro i
  rw [List.getElem?_map, List.getElem?_map, h i]

/-- Every permutation of a list moves its places. -/
theorem exists_reordered {xs ys : List β} (h : xs.Perm ys) : ∃ σ, Reordered σ xs ys := by
  induction h with
  | nil => exact ⟨1, fun i => rfl⟩
  | cons x _ ih =>
    obtain ⟨σ, hσ⟩ := ih
    exact ⟨behindFirst σ, hσ.cons x⟩
  | swap x y xs => exact ⟨Equiv.swap 0 1, reordered_swap y x xs⟩
  | trans _ _ ih ih' =>
    obtain ⟨σ, hσ⟩ := ih
    obtain ⟨τ, hτ⟩ := ih'
    exact ⟨σ.trans τ, hσ.trans hτ⟩

end places

section sizes

variable {α : Type} [Scalar α]

/-- The bounds of the closed paths have areas that are numbers, and no two of them the same. -/
structure DistinctSizes (paths : List (Path α)) : Prop where
  number : ∀ p ∈ paths, p.closed = true → Scalar.isNaN p.bounds.area = false
  distinct : paths.Pairwise fun p q => p.closed = true → q.closed = true →
    (p.bounds.area == q.bounds.area) = false

theorem Bounds.area_alike [Scalar.Congruent α] {a b : Bounds α} (h : (a == b) = true) :
    Scalar.Alike a.area b.area := by
  obtain ⟨hx₀, hy₀, hx₁, hy₁⟩ := beq_iff.mp h
  exact Scalar.Congruent.mul (Scalar.Congruent.sub (.inl hx₁) (.inl hx₀))
    (Scalar.Congruent.sub (.inl hy₁) (.inl hy₀))

variable [Scalar.Ordered α] {paths others : List (Path α)}

theorem DistinctSizes.perm (h : DistinctSizes paths) (perm : paths.Perm others) :
    DistinctSizes others := by
  refine ⟨fun p hp => h.number p (perm.mem_iff.mpr hp), ?_⟩
  refine perm.pairwise h.distinct fun hpq hq hp => ?_
  have hne := hpq hp hq
  rw [Bool.eq_false_iff, ne_eq, Scalar.Ordered.beq_iff] at hne ⊢
  exact fun heq => hne heq.symm

/-- Closed paths whose bounds have equal areas are one path. -/
theorem DistinctSizes.place_eq (h : DistinctSizes paths) {i j : Nat} {p q : Path α}
    (hp : paths[i]? = some p) (hq : paths[j]? = some q) (hpc : p.closed = true)
    (hqc : q.closed = true) (hle : p.bounds.area ≤ q.bounds.area)
    (hge : q.bounds.area ≤ p.bounds.area) : i = j := by
  obtain ⟨hi, rfl⟩ := List.getElem?_eq_some_iff.mp hp
  obtain ⟨hj, rfl⟩ := List.getElem?_eq_some_iff.mp hq
  have hdistinct := List.pairwise_iff_getElem.mp h.distinct
  rcases Nat.lt_trichotomy i j with hij | hij | hij
  · have hne := hdistinct i j hi hj hij hpc hqc
    rw [Scalar.Ordered.beq_iff.mpr ⟨hle, hge⟩] at hne
    cases hne
  · exact hij
  · have hne := hdistinct j i hj hi hij hqc hpc
    rw [Scalar.Ordered.beq_iff.mpr ⟨hge, hle⟩] at hne
    cases hne

/-- The parent is the candidate with the smallest bounds: no two have equally small ones. -/
theorem DistinctSizes.parent_eq_some_iff (h : DistinctSizes paths) {i : Nat} {p : Path α}
    (hp : paths[i]? = some p) (hpc : p.closed = true) (j : Nat) :
    (Forest.build (paths.map Path.figure)).parent? i = some j ↔
      ∃ q, Candidate paths i p j q ∧ ∀ k r, Candidate paths i p k r →
        q.bounds.area ≤ r.bounds.area := by
  rw [parent?_eq_some_iff_candidate hp hpc fun k r hr =>
    h.number r (List.mem_of_getElem? hr.drawn) hr.closed]
  constructor
  · rintro ⟨q, hq, hbest⟩
    exact ⟨q, hq, fun k r hr => (hbest k r hr).1⟩
  · rintro ⟨q, hq, hbest⟩
    refine ⟨q, hq, fun k r hr => ⟨hbest k r hr, fun hle => ?_⟩⟩
    exact Nat.le_of_eq
      (h.place_eq hr.drawn hq.drawn hr.closed hq.closed hle (hbest k r hr))

variable [Scalar.Congruent α]

/-- No other path has the same bounds, so that the order of drawing says nothing. -/
theorem DistinctSizes.candidate_iff (h : DistinctSizes paths) {i j : Nat} {p q : Path α}
    (hp : paths[i]? = some p) (hpc : p.closed = true) :
    Candidate paths i p j q ↔ paths[j]? = some q ∧ j ≠ i ∧ q.closed = true ∧
      q.bounds.encloses p.bounds = true := by
  constructor
  · intro hq
    exact ⟨hq.drawn, hq.other, hq.closed, hq.encloses⟩
  · rintro ⟨hq, hne, hqc, henc⟩
    refine ⟨hq, hne, hqc, henc, fun hsame => ?_⟩
    have hnumber := h.number q (List.mem_of_getElem? hq) hqc
    rcases Bounds.area_alike hsame with heq | ⟨hnan, _⟩
    · obtain ⟨hle, hge⟩ := Scalar.Ordered.beq_iff.mp heq
      exact absurd (h.place_eq hq hp hqc hpc hle hge) hne
    · rw [hnumber] at hnan
      cases hnan

section moved

variable (h : DistinctSizes paths) (h' : DistinctSizes others) {σ : Equiv.Perm Nat}
  (moved : Reordered σ paths others)
include h h' moved

/-- What may hold a path may hold it wherever both are drawn. -/
theorem DistinctSizes.candidate_reordered {i : Nat} {p : Path α} (hp : paths[i]? = some p)
    (hpc : p.closed = true) (j : Nat) (q : Path α) :
    Candidate others (σ i) p (σ j) q ↔ Candidate paths i p j q := by
  rw [h.candidate_iff hp hpc, h'.candidate_iff ((moved i).trans hp) hpc, moved j,
    σ.injective.ne_iff]

theorem DistinctSizes.parent_reordered (i j : Nat) :
    (Forest.build (others.map Path.figure)).parent? (σ i) = some (σ j) ↔
      (Forest.build (paths.map Path.figure)).parent? i = some j := by
  have hsame {p : Path α} (hp : paths[i]? = some p) (hpc : p.closed = true) :
      (Forest.build (others.map Path.figure)).parent? (σ i) = some (σ j) ↔
        (Forest.build (paths.map Path.figure)).parent? i = some j := by
    have hcandidate := h.candidate_reordered h' moved hp hpc
    rw [h.parent_eq_some_iff hp hpc, h'.parent_eq_some_iff ((moved i).trans hp) hpc]
    refine exists_congr fun q => and_congr (hcandidate j q) ?_
    rw [σ.surjective.forall]
    exact forall_congr' fun k => forall_congr' fun r => imp_congr_left (hcandidate k r)
  constructor
  · intro hj
    obtain ⟨_, p, _, hp, _, hpc, _⟩ := build_parent_encloses hj
    exact (hsame ((moved i).symm.trans hp) hpc).mp hj
  · intro hj
    obtain ⟨_, p, _, hp, _, hpc, _⟩ := build_parent_encloses hj
    exact (hsame hp hpc).mpr hj

/-- Where sizes tell closed paths apart, another order of drawing only renames them. -/
theorem DistinctSizes.renamed :
    Forest.Renamed σ (.build (paths.map Path.figure)) (.build (others.map Path.figure)) where
  injective := σ.injective
  closed := by
    intro i
    rw [Bool.eq_iff_iff, Forest.build_isClosed, Forest.build_isClosed, moved.map]
  parent := by
    intro i
    cases hf : (Forest.build (paths.map Path.figure)).parent? i with
    | some j => exact (h.parent_reordered h' moved i j).mpr hf
    | none =>
      cases hg : (Forest.build (others.map Path.figure)).parent? (σ i) with
      | none => rfl
      | some k =>
        obtain ⟨j, rfl⟩ := σ.surjective k
        rw [(h.parent_reordered h' moved i j).mp hg] at hf
        cases hf
  named := fun j _ => σ.surjective j

end moved

end sizes

section areas

variable {K : Type} [Field K] [LinearOrder K] [IsStrictOrderedRing K] [Root K]

omit [IsStrictOrderedRing K] in
theorem Scalar.alike_exact {a b : K} : Scalar.Alike a b ↔ a = b := by
  simp [Alike]

instance : Scalar.Congruent K where
  sub := by
    intro a b c d hac hbd
    rw [Scalar.alike_exact] at *
    rw [hac, hbd]
  mul := by
    intro a b c d hac hbd
    rw [Scalar.alike_exact] at *
    rw [hac, hbd]

def areaOfUnordered (figures : List (Figure K)) (u : Nat × Multiset Nat) : K :=
  areaAt figures u.1 - (u.2.map (areaAt figures)).sum

theorem Region.area_unordered (figures : List (Figure K)) (r : Region) :
    r.area figures = areaOfUnordered figures r.unordered := by
  rw [area, Scalar.sum_exact]
  rfl

/-- Regions that are the same but for names and order have the same area in all. -/
theorem sum_area_of_perm {name : Nat → Nat} {rs ss : List Region}
    (perm : (ss.map Region.unordered).Perm (rs.map fun r => (r.rename name).unordered))
    {figures figures' : List (Figure K)}
    (same : ∀ i, areaAt figures' (name i) = areaAt figures i) :
    Scalar.sum (ss.map (Region.area figures')) = Scalar.sum (rs.map (Region.area figures)) := by
  rw [Scalar.sum_exact, Scalar.sum_exact]
  calc (ss.map (Region.area figures')).sum
      = ((ss.map Region.unordered).map (areaOfUnordered figures')).sum := by
        rw [List.map_map]
        exact congrArg List.sum (List.map_congr_left fun r _ => r.area_unordered figures')
    _ = ((rs.map fun r => (r.rename name).unordered).map (areaOfUnordered figures')).sum :=
        (perm.map _).sum_eq
    _ = (rs.map (Region.area figures)).sum := by
        rw [List.map_map]
        refine congrArg List.sum (List.map_congr_left fun r _ => ?_)
        exact ((r.rename name).area_unordered figures').symm.trans (r.area_rename same)

variable {α : Type} [Scalar α] [Scalar.Ordered α] [Scalar.Congruent α]

/-- The area of nested paths does not hang on their order, as far as sizes tell them apart. -/
theorem DistinctSizes.nestedArea_eq {paths others : List (Path α)} (h : DistinctSizes paths)
    (h' : DistinctSizes others) {σ : Equiv.Perm Nat} (moved : Reordered σ paths others)
    (value : α → K) : nestedArea value others = nestedArea value paths := by
  have hregions := (h.renamed h' moved).regions_perm (build_ranked _) (build_ranked _)
    fun j p hj => (Forest.build_closed _ j p hj).1
  rw [nestedArea, nestedArea]
  apply sum_area_of_perm hregions
  intro i
  rw [areaAt, areaAt, moved.map]

end areas

/-- Where the bounds of closed paths have areas that differ, nesting does not hang on the order of
drawing: paths drawn in another order have the same parents, depths, children, roots and regions
under their new places, and so the same area. -/
theorem build_reordered {α : Type} [Scalar α] [Scalar.Ordered α] [Scalar.Congruent α] {K : Type}
    [Field K] [LinearOrder K] [IsStrictOrderedRing K] [Root K] (value : α → K) :
    (∀ paths others : List (Path α), paths.Perm others → DistinctSizes paths →
      (∃ σ, Reordered σ paths others) ∧
      ∀ σ, Reordered σ paths others →
        let f := Forest.build (paths.map Path.figure)
        let g := Forest.build (others.map Path.figure)
        (∀ i, g.parent? (σ i) = (f.parent? i).map σ) ∧
        (∀ i, g.depth (σ i) = f.depth i) ∧
        (∀ i, (g.children (σ i)).Perm ((f.children i).map σ)) ∧
        g.roots.Perm (f.roots.map σ) ∧
        (g.regions.map Region.unordered).Perm
          (f.regions.map fun r => (r.rename σ).unordered) ∧
        nestedArea value others = nestedArea value paths) ∧
    ∀ paths others : List (Path K), paths.Perm others → DistinctSizes paths →
      composeArea others .containmentForest = composeArea paths .containmentForest := by
  constructor
  · intro paths others perm sizes
    refine ⟨exists_reordered perm, fun σ moved => ?_⟩
    have sizes' := sizes.perm perm
    have renamed := sizes.renamed sizes' moved
    have ranked := build_ranked (paths.map Path.figure)
    have ranked' := build_ranked (others.map Path.figure)
    have closed (j p : Nat) (hj : (Forest.build (others.map Path.figure)).parent? j = some p) :=
      (Forest.build_closed _ j p hj).1
    exact ⟨renamed.parent, renamed.depth ranked ranked', renamed.children_perm closed,
      renamed.roots_perm, renamed.regions_perm ranked ranked' closed,
      sizes.nestedArea_eq sizes' moved value⟩
  · intro paths others perm sizes
    obtain ⟨σ, moved⟩ := exists_reordered perm
    rw [composeArea_eq_nestedArea, composeArea_eq_nestedArea]
    exact sizes.nestedArea_eq (sizes.perm perm) moved id

section stack

def stack : List (Path Float) :=
  [block 1.0 9.0, ⟨[.line ⟨0.0, 0.0⟩ ⟨10.0, 10.0⟩], false⟩, block 0.0 10.0, block 4.0 6.0]

theorem build_reordered_stack :
    stack.Perm stack.reverse ∧ DistinctSizes stack ∧
      (Forest.build (stack.map Path.figure)).regions = [⟨2, [0]⟩, ⟨3, []⟩] ∧
      ((Forest.build (stack.reverse.map Path.figure)).regions.map Region.unordered).Perm
        [(1, {3}), (0, 0)] ∧
      nestedArea (fun x => (Decimal.value? x).getD 0) stack.reverse = (40 : ℚ) := by
  have hperm : stack.Perm stack.reverse := stack.reverse_perm.symm
  have hsizes : DistinctSizes stack := ⟨by decide +kernel, by decide +kernel⟩
  obtain ⟨⟨σ, moved⟩, hsame⟩ := (build_reordered (K := ℚ) fun x : Float =>
    (Decimal.value? x).getD 0).1 stack stack.reverse hperm hsizes
  obtain ⟨_, _, _, _, _, harea⟩ := hsame σ moved
  refine ⟨hperm, hsizes, by decide +kernel, by decide +kernel, harea.trans (by decide +kernel)⟩

end stack

end Reaming
