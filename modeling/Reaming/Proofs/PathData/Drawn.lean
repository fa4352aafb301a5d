import Mathlib.Algebra.Ring.Nat
import Reaming.Proofs.PathData.Grammar

namespace Reaming.PathData

variable {α : Type}

namespace Sketch

/-- Every subpath starts where its moveto went, and the pen waits there for its first segment. -/
structure AtHome (s : Sketch α) : Prop where
  starts : ∀ q ∈ s.subpaths, ∀ first, q.path.start? = some first → first = q.home
  fresh : ∀ q, s.current = some q → q.path.segments = [] → s.pen = q.home

theorem AtHome.onPath {s : Sketch α} (h : s.AtHome) (f : Path α → Path α) (pen : Point α)
    (starts : ∀ q, s.current = some q → ∀ first, (f q.path).start? = some first → first = q.home)
    (fresh : ∀ q, s.current = some q → (f q.path).segments = [] → pen = q.home) :
    AtHome { s with current := s.onPath f, pen := pen } := by
  constructor
  · intro q hq
    rcases List.mem_append.mp hq with hq | hq
    · exact h.starts q (List.mem_append_left _ hq)
    · obtain ⟨q', hq', rfl⟩ := Option.map_eq_some_iff.mp (Option.mem_toList.mp hq)
      exact starts q' hq'
  · intro q hq
    obtain ⟨q', hq', rfl⟩ := Option.map_eq_some_iff.mp hq
    exact fresh q' hq'

theorem AtHome.draw {s : Sketch α} (h : s.AtHome) {c : Curve α} (hc : c.start = s.pen) :
    (s.draw c).AtHome := by
  refine h.onPath _ _ ?_ ?_
  · intro q hq first hfirst
    cases hsegments : q.path.segments with
    | nil =>
      have hpen := h.fresh q hq hsegments
      simp only [Path.start?, Path.push, hsegments, List.nil_append, List.head?_cons,
        Option.map_some, Option.some.injEq] at hfirst
      rw [← hfirst, ← hpen, ← hc]
      rfl
    | cons s ss =>
      refine h.starts q (List.mem_append_right _ (Option.mem_toList.mpr hq)) first ?_
      simp only [Path.start?, Path.push, hsegments] at hfirst ⊢
      exact hfirst
  · intro q hq hnil
    simp [Path.push] at hnil

theorem start?_snapTo (p : Path α) (first : Point α) : (p.snapTo first).start? = p.start? := by
  obtain ⟨segments, closed⟩ := p
  match segments with
  | [] => rfl
  | [s] => exact congrArg some (Curve.start_withStop s.curve first)
  | s :: t :: ss => rfl

variable [Scalar α]

theorem start?_close (p : Path α) (pen : Point α) : (p.close pen).start? = p.start? := by
  unfold Path.close
  cases hstart : p.start? with
  | none => exact hstart
  | some first =>
    dsimp only
    split
    · exact (start?_snapTo p first).trans hstart
    · obtain ⟨s, hs, hfirst⟩ := Option.map_eq_some_iff.mp hstart
      simp [Path.start?, Path.push, hs, hfirst]

theorem AtHome.put {s : Sketch α} (h : s.AtHome) (k : Stroke α) : (s.put k).AtHome := by
  cases k with
  | moveTo p =>
    constructor
    · intro q hq first hfirst
      rcases List.mem_append.mp hq with hq | hq
      · exact h.starts q hq first hfirst
      · cases List.mem_singleton.mp hq
        cases hfirst
    · rintro q ⟨⟩ _
      rfl
  | close =>
    refine h.onPath (·.close s.pen) _ ?_ ?_
    · intro q hq
      rw [start?_close]
      exact h.starts q (List.mem_append_right _ (Option.mem_toList.mpr hq))
    · intro q hq _
      rw [hq]
      rfl
  | lineTo | quadraticTo | cubicTo => exact h.draw rfl

theorem AtHome.step {s : Sketch α} (h : s.AtHome) (i : Item α) : (s.step i).AtHome := by
  cases i with
  | group c g => exact h.put _
  | letter c =>
    obtain ⟨v, relative⟩ := c
    cases v
    case moveTo | arcTo => exact h
    case closePath => exact h.put .close
    all_goals
      refine h.onPath (fun p => { p with closed := false }) s.pen ?_ ?_
      · intro q hq
        exact h.starts q (List.mem_append_right _ (Option.mem_toList.mpr hq))
      · exact h.fresh

theorem AtHome.after {s : Sketch α} (h : s.AtHome) (is : List (Item α)) : (s.after is).AtHome := by
  induction is generalizing s with
  | nil => exact h
  | cons i is ih => exact ih (h.step i)

end Sketch

end Reaming.PathData
