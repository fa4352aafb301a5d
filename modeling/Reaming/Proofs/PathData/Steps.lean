import Reaming.PathData.Reader

namespace Reaming

/-- A good result that was mapped was good before. -/
theorem exists_of_map_ok {ε β γ : Type} {x : Except ε β} {f : β → γ} {c : γ}
    (h : x.map f = .ok c) : ∃ b, x = .ok b ∧ f b = c := by
  cases x with
  | error e => cases h
  | ok b => exact ⟨b, rfl, Except.ok.inj h⟩

end Reaming

namespace Reaming.PathData

variable {α : Type}

def Verb.draws : Verb → Bool
  | .moveTo | .closePath | .arcTo => false
  | _ => true

def Group.isMove : Group α → Bool
  | .moveTo _ => true
  | _ => false

theorem draws_of_group {v : Verb} {ops : List α} {g : Group α}
    (h : Group.of? v ops = some g) (hg : g.isMove = false) : v.draws = true := by
  unfold Group.of? at h
  split at h <;> cases h <;> first | rfl | cases hg

namespace Reader

theorem checkComplete_ok {r : Reader α} (h : r.checkComplete = .ok ()) : r.operands = [] := by
  unfold checkComplete at h
  split at h
  · rename_i he
    exact List.isEmpty_iff.mp he
  · cases h

theorem reopen_cases {r s : Reader α} (h : r.reopen = .ok s) :
    ∃ p, r.current = some p ∧ s = { r with current := some { p with closed := false } } := by
  unfold reopen at h
  split at h
  · cases h
  · rename_i p hp
    cases h
    exact ⟨p, hp, rfl⟩

theorem draw_cases {r s : Reader α} {c : Curve α} (h : r.draw c = .ok s) :
    ∃ p, r.current = some p ∧
      s = { r with current := some (p.push (.ofCurve c)), pen := c.stop } := by
  unfold draw at h
  split at h
  · cases h
  · rename_i p hp
    cases h
    exact ⟨p, hp, rfl⟩

theorem finish_cases {r : Reader α} {ps : List (Path α)} (h : r.finish = .ok ps) :
    r.operands = [] ∧ ps = r.paths := by
  unfold finish at h
  cases hc : r.checkComplete with
  | error why => rw [hc] at h; cases h
  | ok u =>
    rw [hc] at h
    cases h
    exact ⟨checkComplete_ok hc, rfl⟩

variable [Scalar α]

/-- A letter is taken between two groups only. It closes the subpath, reopens it, or leaves the
drawing alone until operands come. -/
theorem begin_cases {r s : Reader α} {c : Command} (h : r.begin c = .ok s) :
    r.operands = [] ∧
      ((c.verb = .moveTo ∧ s = { r with command := c }) ∨
        (c.verb = .closePath ∧ { r with command := c }.closePath = .ok s) ∨
        (c.verb.draws = true ∧ { r with command := c }.reopen = .ok s)) := by
  unfold begin at h
  cases hc : r.checkComplete with
  | error why => rw [hc] at h; cases h
  | ok u =>
    rw [hc] at h
    refine ⟨checkComplete_ok hc, ?_⟩
    dsimp only [bind, Except.bind] at h
    cases hv : c.verb <;> rw [hv] at h
    case arcTo => cases h
    case moveTo => cases h; exact .inl ⟨rfl, rfl⟩
    case closePath => exact .inr (.inl ⟨rfl, h⟩)
    all_goals exact .inr (.inr ⟨rfl, h⟩)

theorem closePath_cases {r s : Reader α} (h : r.closePath = .ok s) :
    ∃ p, r.current = some p ∧ s = { r with current := some (p.close r.pen), pen := r.home } := by
  unfold closePath at h
  split at h
  · cases h
  · rename_i p hp
    cases h
    exact ⟨p, hp, rfl⟩

/-- A group begins a subpath or draws one curve, and every curve starts at the pen. -/
theorem perform_cases {r s : Reader α} {g : Group α} (h : r.perform g = .ok s) :
    (g.isMove = true ∧ ∃ p, s = r.moveTo p) ∨
      (g.isMove = false ∧ ∃ c : Curve α, c.start = r.pen ∧ r.draw c = .ok s) := by
  cases g with
  | moveTo p => cases h; exact .inl ⟨rfl, _, rfl⟩
  | lineTo | horizontalTo | verticalTo | cubicTo | quadraticTo =>
    exact .inr ⟨rfl, _, rfl, h⟩
  | smoothCubicTo b p =>
    simp only [perform] at h
    split at h
    · exact .inr ⟨rfl, _, rfl, h⟩
    · cases h
  | smoothQuadraticTo p =>
    simp only [perform] at h
    split at h
    · exact .inr ⟨rfl, _, rfl, h⟩
    · cases h

/-- An operand waits for the rest of its group or completes it. -/
theorem operand_cases {r s : Reader α} {text : List Char} {value : α}
    (h : r.operand text value = .ok s) :
    r.command.verb ≠ .closePath ∧
      ((Group.of? r.command.verb (r.operands ++ [value]) = none ∧
          s = { r with operands := r.operands ++ [value] }) ∨
        ∃ g, Group.of? r.command.verb (r.operands ++ [value]) = some g ∧
          { r with operands := [] }.perform g = .ok s) := by
  unfold operand at h
  split at h
  · cases h
  · rename_i hv
    refine ⟨hv, ?_⟩
    dsimp only at h
    split at h
    · rename_i hg
      cases h
      exact .inl ⟨hg, rfl⟩
    · rename_i g hg
      exact .inr ⟨g, hg, h⟩

theorem feed_number_cases {r s : Reader α} {text : List Char}
    (h : r.feed (.number text) = .ok s) :
    ∃ value, Scalar.read? text = some value ∧ r.operand text value = .ok s := by
  simp only [feed] at h
  split at h
  · cases h
  · rename_i value hv
    exact ⟨value, hv, h⟩

/-- What every token preserves holds at the end of the data. -/
theorem foldlM_feed_invariant {P : Reader α → Prop}
    (step : ∀ {r s : Reader α} {t : Token}, P r → r.feed t = .ok s → P s)
    {ts : List Token} {r s : Reader α} (hr : P r) (h : ts.foldlM feed r = .ok s) : P s := by
  induction ts generalizing r with
  | nil => cases h; exact hr
  | cons t ts ih =>
    rw [List.foldlM_cons] at h
    cases hf : r.feed t with
    | error why => rw [hf] at h; cases h
    | ok q =>
      rw [hf] at h
      exact ih (step hr hf) h

end Reader

/-- Data that reads well has a last state, and its paths are the answer. -/
theorem readTokens_cases {α : Type} [Scalar α] {ts : List Token} {ps : List (Path α)}
    (h : readTokens ts = .ok ps) :
    ∃ s : Reader α, ts.foldlM Reader.feed Reader.initial = .ok s ∧ s.operands = [] ∧
      ps = s.paths := by
  unfold readTokens at h
  cases hf : ts.foldlM Reader.feed (Reader.initial : Reader α) with
  | error why => rw [hf] at h; cases h
  | ok s =>
    rw [hf] at h
    obtain ⟨ho, hp⟩ := Reader.finish_cases h
    exact ⟨s, rfl, ho, hp⟩

end Reaming.PathData
