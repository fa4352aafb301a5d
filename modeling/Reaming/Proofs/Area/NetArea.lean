import Mathlib.Tactic.Ring
import Reaming.Area.Policy
import Reaming.Proofs.Exact
import Reaming.Proofs.Area.Placed

namespace Reaming

section scalar

variable {α : Type} [Scalar α]

def isOther (this f : Placed α) : Bool := f.index != this.index && f.figure.closed

theorem subtractNet_skip {this f : Placed α} (area : α) (inside figures : List (Placed α))
    (h : isOther this f = false) :
    subtractNet this area inside (f :: figures) = subtractNet this area inside figures := by
  rw [subtractNet, if_pos]
  simp only [isOther, Bool.and_eq_false_iff, bne_eq_false_iff_eq] at h
  rcases h with h | h
  · simp [h]
  · simp [h]

theorem subtractNet_take {this f : Placed α} (area : α) (inside figures : List (Placed α))
    (h : isOther this f = true) :
    subtractNet this area inside (f :: figures) =
      subtractNet this (area - netArea f (insideSoFar this f inside)) (insideSoFar this f inside)
        figures := by
  rw [subtractNet, if_neg]
  simp only [isOther, Bool.and_eq_true, bne_iff_ne] at h
  simp [h.1, h.2]

/-- Figures that are not subtracted may as well be absent. -/
theorem subtractNet_filter (this : Placed α) (area : α) (inside figures : List (Placed α)) :
    subtractNet this area inside figures =
      subtractNet this area inside (figures.filter (isOther this)) := by
  induction figures generalizing area inside with
  | nil => rfl
  | cons f figures ih =>
    cases h : isOther this f with
    | false => rw [subtractNet_skip _ _ _ h, List.filter_cons_of_neg (by simp [h]), ih]
    | true =>
      rw [subtractNet_take _ _ _ h, List.filter_cons_of_pos h, subtractNet_take _ _ _ h, ih]

theorem netArea_alone (this : Placed α) : netArea this [] = this.figure.area := by
  rw [netArea, subtractNet]

theorem largest?_mem {all : List (Placed α)} {p : Placed α} (h : largest? all = some p) :
    p ∈ closedOf all := by
  refine mem_of_foldl_choose ?_ h
  intro best f
  cases best with
  | none => exact .inr rfl
  | some b =>
    dsimp only
    split
    · exact .inr rfl
    · exact .inl rfl

end scalar

section exact

variable {K : Type} [Field K] [LinearOrder K] [Root K]

def areas (figures : List (Placed K)) : List K := figures.map fun f => f.figure.area

/-- Around `this` lie none of the `figures`: each is taken off whole. -/
theorem subtractNet_apart {this : Placed K} (area : K) {figures : List (Placed K)}
    (others : ∀ f ∈ figures, isOther this f = true)
    (apart : ∀ f ∈ figures, this.figure.bounds.encloses f.figure.bounds = false) :
    subtractNet this area [] figures = area - (areas figures).sum := by
  induction figures generalizing area with
  | nil =>
    rw [subtractNet]
    exact (sub_zero area).symm
  | cons f figures ih =>
    have hinside : insideSoFar this f [] = [] := by
      rw [insideSoFar, apart f List.mem_cons_self, if_neg Bool.false_ne_true]
    rw [subtractNet_take _ _ _ (others f List.mem_cons_self), hinside, netArea_alone,
      ih _ (fun g hg => others g (List.mem_cons_of_mem f hg))
        (fun g hg => apart g (List.mem_cons_of_mem f hg))]
    change area - f.figure.area - (areas figures).sum = area - (f.figure.area + (areas figures).sum)
    ring

/-- What siblings give back: each is added again for every one drawn after it. -/
def surplus : List K → K
  | [] => 0
  | a :: rest => rest.length * a + surplus rest

def Beside (f g : Placed K) : Prop :=
  f.index ≠ g.index ∧ f.figure.bounds.encloses g.figure.bounds = false ∧
    g.figure.bounds.encloses f.figure.bounds = false

/-- A figure loses its siblings drawn before it, which its parent has handed down. -/
theorem netArea_siblings {f : Placed K} {earlier : List (Placed K)}
    (closed : ∀ g ∈ earlier, g.figure.closed = true) (beside : ∀ g ∈ earlier, Beside g f) :
    netArea f (earlier ++ [f]) = f.figure.area - (areas earlier).sum := by
  have hself : isOther f f = false := by simp [isOther]
  have hothers (g : Placed K) (hg : g ∈ earlier) : isOther f g = true := by
    simp [isOther, closed g hg, (beside g hg).1]
  have hfilter : (earlier ++ [f]).filter (isOther f) = earlier := by
    rw [List.filter_append, List.filter_eq_self.mpr hothers,
      List.filter_cons_of_neg (by simp [hself]), List.filter_nil, List.append_nil]
  rw [netArea, subtractNet_filter, hfilter]
  exact subtractNet_apart _ hothers fun g hg => (beside g hg).2.2

/-- What is left of an outline once some siblings have been met and more are to come. -/
theorem subtractNet_siblings {this : Placed K} (area : K) (earlier : List (Placed K))
    {later : List (Placed K)} (others : ∀ f ∈ later, isOther this f = true)
    (contains : ∀ f ∈ later, this.figure.bounds.encloses f.figure.bounds = true)
    (closed : ∀ f ∈ earlier ++ later, f.figure.closed = true)
    (beside : (earlier ++ later).Pairwise Beside) :
    subtractNet this area earlier later = area - (areas later).sum +
      later.length * (areas earlier).sum + surplus (areas later) := by
  induction later generalizing area earlier with
  | nil =>
    rw [subtractNet]
    simp [areas, surplus]
  | cons f later ih =>
    have hinside : insideSoFar this f earlier = earlier ++ [f] := by
      rw [insideSoFar, contains f List.mem_cons_self, if_pos rfl]
    have hnet : netArea f (earlier ++ [f]) = f.figure.area - (areas earlier).sum := by
      apply netArea_siblings
      · intro g hg
        exact closed g (List.mem_append_left _ hg)
      · intro g hg
        exact (List.pairwise_append.mp beside).2.2 g hg f List.mem_cons_self
    rw [List.append_cons] at closed beside
    rw [subtractNet_take _ _ _ (others f List.mem_cons_self), hinside, hnet,
      ih _ _ (fun g hg => others g (List.mem_cons_of_mem f hg))
        (fun g hg => contains g (List.mem_cons_of_mem f hg)) closed beside]
    simp only [areas, surplus, List.map_append, List.map_cons, List.map_nil, List.sum_append,
      List.sum_cons, List.sum_nil, List.length_cons, List.length_map]
    push_cast
    ring

theorem subtractNet_zero :
    (∀ (this : Placed K) (figures : List (Placed K)), this.figure.area = 0 →
      (∀ f ∈ figures, f.figure.area = 0) → netArea this figures = 0) ∧
    ∀ (this : Placed K) (area : K) (inside figures : List (Placed K)), area = 0 →
      (∀ f ∈ inside, f.figure.area = 0) → (∀ f ∈ figures, f.figure.area = 0) →
      subtractNet this area inside figures = 0 := by
  refine netArea.mutual_induct _ _ ?_ ?_ ?_ ?_
  · intro this figures ih harea hfigures
    rw [netArea]
    exact ih harea (fun f hf => absurd hf List.not_mem_nil) hfigures
  · intro this area inside harea _ _
    rw [subtractNet]
    exact harea
  · intro this area inside f figures hskip ih harea hinside hfigures
    rw [subtractNet, if_pos hskip]
    exact ih harea hinside fun g hg => hfigures g (List.mem_cons_of_mem f hg)
  · intro this area inside f figures htake ihf ih harea hinside hfigures
    have hf := hfigures f List.mem_cons_self
    have hinside' : ∀ g ∈ insideSoFar this f inside, g.figure.area = 0 := by
      intro g hg
      rw [insideSoFar] at hg
      split at hg
      · rcases List.mem_append.mp hg with hg | hg
        · exact hinside g hg
        · rw [List.mem_singleton.mp hg]
          exact hf
      · exact hinside g hg
    have hnet := ihf hf hinside'
    rw [subtractNet, if_neg htake]
    refine ih ?_ hinside' fun g hg => hfigures g (List.mem_cons_of_mem f hg)
    rw [harea, hnet]
    exact sub_zero 0

section widest

variable {o : Placed K} {before after : List (Placed K)}

def wider (best : Option (Placed K)) (f : Placed K) : Option (Placed K) :=
  match best with
  | some b => if b.figure.bounds.area < f.figure.bounds.area then some f else some b
  | none => some f

theorem foldl_wider_keep {figures : List (Placed K)}
    (less : ∀ p ∈ figures, p.figure.bounds.area < o.figure.bounds.area) :
    figures.foldl wider (some o) = some o := by
  induction figures with
  | nil => rfl
  | cons p figures ih =>
    have hp := less p List.mem_cons_self
    rw [List.foldl_cons, wider, if_neg (not_lt.mpr (le_of_lt hp))]
    exact ih fun q hq => less q (List.mem_cons_of_mem p hq)

theorem foldl_wider_less {figures : List (Placed K)} {best : Option (Placed K)}
    (first : ∀ p ∈ best, p.figure.bounds.area < o.figure.bounds.area)
    (less : ∀ p ∈ figures, p.figure.bounds.area < o.figure.bounds.area) :
    ∀ p ∈ figures.foldl wider best, p.figure.bounds.area < o.figure.bounds.area := by
  induction figures generalizing best with
  | nil => exact first
  | cons q figures ih =>
    refine ih ?_ fun p hp => less p (List.mem_cons_of_mem q hp)
    have hq := less q List.mem_cons_self
    cases best with
    | none =>
      rintro p ⟨⟩
      exact hq
    | some b =>
      intro p hp
      rw [wider] at hp
      split at hp
      · cases hp
        exact hq
      · exact first p hp

theorem largest?_of_widest (closed : o.figure.closed = true)
    (less : ∀ p ∈ closedOf (before ++ after),
      p.figure.bounds.area < o.figure.bounds.area) :
    largest? (before ++ o :: after) = some o := by
  rw [closedOf_append] at less
  change (closedOf (before ++ o :: after)).foldl wider none = some o
  rw [closedOf_append, closedOf_cons_closed closed, List.foldl_append, List.foldl_cons]
  have hfirst : ∀ p ∈ (closedOf before).foldl wider none,
      p.figure.bounds.area < o.figure.bounds.area := by
    apply foldl_wider_less
    · rintro p ⟨⟩
    · intro p hp
      exact less p (List.mem_append_left _ hp)
  have htake : wider ((closedOf before).foldl wider none) o = some o := by
    cases hb : (closedOf before).foldl wider none with
    | none => rfl
    | some b => rw [wider, if_pos (hfirst b hb)]
  rw [htake]
  exact foldl_wider_keep fun p hp => less p (List.mem_append_right _ hp)

theorem largestMinusOthers_zero [IsStrictOrderedRing K] {figures : List (Figure K)}
    (zero : ∀ f ∈ figures, f.area = 0) :
    largestMinusOthers figures = 0 := by
  have hplaced : ∀ p ∈ placed figures, p.figure.area = 0 := by
    intro p hp
    exact zero p.figure (List.mem_of_getElem? (mem_placed.mp hp))
  unfold largestMinusOthers
  dsimp only
  split
  · rename_i main hmain
    exact subtractNet_zero.1 main _ (hplaced main (mem_closedOf.mp (largest?_mem hmain)).1) hplaced
  · exact zero_decimal

end widest

variable [IsStrictOrderedRing K]

theorem surplus_nonneg {as : List K} (nonneg : ∀ a ∈ as, 0 ≤ a) : 0 ≤ surplus as := by
  induction as with
  | nil => exact le_refl _
  | cons a as ih =>
    exact add_nonneg (mul_nonneg (Nat.cast_nonneg _) (nonneg a List.mem_cons_self))
      (ih fun b hb => nonneg b (List.mem_cons_of_mem a hb))

/-- Nothing is given back exactly if no sibling but the last has any area. -/
theorem surplus_eq_zero_iff {as : List K} (nonneg : ∀ a ∈ as, 0 ≤ a) :
    surplus as = 0 ↔ ∀ a ∈ as.dropLast, a = 0 := by
  induction as with
  | nil => simp [surplus]
  | cons a as ih =>
    have hrest : ∀ b ∈ as, 0 ≤ b := fun b hb => nonneg b (List.mem_cons_of_mem a hb)
    rw [surplus, add_eq_zero_iff_of_nonneg
      (mul_nonneg (Nat.cast_nonneg _) (nonneg a List.mem_cons_self)) (surplus_nonneg hrest),
      ih hrest]
    cases as with
    | nil => simp
    | cons b as =>
      have hne : ((b :: as).length : K) ≠ 0 := by
        exact_mod_cast Nat.succ_ne_zero as.length
      rw [List.dropLast_cons_cons, List.forall_mem_cons, mul_eq_zero, or_iff_right hne]

end exact

end Reaming
