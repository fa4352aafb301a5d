import Mathlib.Algebra.BigOperators.Ring.List
import Mathlib.Tactic.Linarith
import Mathlib.Tactic.Ring
import Reaming.Proofs.Exact
import Reaming.Proofs.Geometry.Box

namespace Reaming

theorem ringEdges_fst {α : Type} (ps : List (Point α)) : (ringEdges ps).map Prod.fst = ps := by
  cases ps with
  | nil => rfl
  | cons p ps => exact List.map_fst_zip (by simp)

theorem ringEdges_snd {α : Type} (ps : List (Point α)) :
    (ringEdges ps).map Prod.snd = ps.tail ++ ps.head?.toList := by
  cases ps with
  | nil => rfl
  | cons p ps => exact List.map_snd_zip (by simp)

/-- Both ends of an edge are points of the ring. -/
theorem mem_of_mem_ringEdges {α : Type} {ps : List (Point α)} {e : Point α × Point α}
    (h : e ∈ ringEdges ps) : e.1 ∈ ps ∧ e.2 ∈ ps := by
  obtain ⟨h₁, h₂⟩ := List.of_mem_zip h
  refine ⟨h₁, ?_⟩
  rcases List.mem_append.mp h₂ with h | h
  · exact List.mem_of_mem_tail h
  · exact List.mem_of_mem_head? (Option.mem_toList.mp h)

variable {K : Type} [Field K] [LinearOrder K] [IsStrictOrderedRing K] [Root K]

omit [IsStrictOrderedRing K] in
theorem Path.bounds_upright (p : Path K) : p.bounds.Upright := by
  have hzero : (Bounds.zero : Bounds K).Upright := ⟨le_refl _, le_refl _⟩
  have hpoints (ps : List (Point K)) : (Bounds.ofPoints ps).Upright := by
    cases ps with
    | nil => exact hzero
    | cons p ps => exact Bounds.Upright.foldl Bounds.grows_extend ps ⟨le_refl _, le_refl _⟩
  unfold bounds
  cases p.segments with
  | nil => exact hzero
  | cons s ss => exact Bounds.Upright.foldl Bounds.grows_union_left _ (hpoints s.polyline)

/-- The sides of a box that lies in another are no longer. -/
theorem Bounds.sides_le {a b : Bounds K} (hb : b.Upright) (henc : a.encloses b = true) :
    0 ≤ b.width ∧ b.width ≤ a.width ∧ 0 ≤ b.height ∧ b.height ≤ a.height := by
  obtain ⟨h₁, h₂, h₃, h₄⟩ := encloses_iff.mp henc
  exact ⟨sub_nonneg.mpr hb.x, sub_le_sub h₃ h₁, sub_nonneg.mpr hb.y, sub_le_sub h₄ h₂⟩

/-- A box that lies in another, and is not all of it, has less area, unless neither has any. -/
theorem Bounds.area_lt {a b : Bounds K} (hb : b.Upright)
    (henc : a.encloses b = true) (hnot : b.encloses a = false) (hpos : a.area ≠ 0) :
    b.area < a.area := by
  obtain ⟨hw₀, hw, hh₀, hh⟩ := sides_le hb henc
  obtain ⟨h₁, h₂, h₃, h₄⟩ := encloses_iff.mp henc
  have hside : b.width < a.width ∨ b.height < a.height := by
    by_contra hsame
    obtain ⟨hw', hh'⟩ := not_or.mp hsame
    refine Bool.eq_false_iff.mp hnot (encloses_iff.mpr ?_)
    have hw' : a.x1 - a.x0 ≤ b.x1 - b.x0 := not_lt.mp hw'
    have hh' : a.y1 - a.y0 ≤ b.y1 - b.y0 := not_lt.mp hh'
    change a.x0 ≤ b.x0 at h₁
    change a.y0 ≤ b.y0 at h₂
    change b.x1 ≤ a.x1 at h₃
    change b.y1 ≤ a.y1 at h₄
    exact ⟨by linarith, by linarith, by linarith, by linarith⟩
  have hpos : 0 < a.width * a.height :=
    lt_of_le_of_ne (mul_nonneg (le_trans hw₀ hw) (le_trans hh₀ hh)) (Ne.symm hpos)
  change b.width * b.height < a.width * a.height
  rcases hside with h | h
  · have hheight : 0 < a.height := pos_of_mul_pos_right hpos (le_trans hw₀ hw)
    calc b.width * b.height ≤ b.width * a.height := mul_le_mul_of_nonneg_left hh hw₀
      _ < a.width * a.height := mul_lt_mul_of_pos_right h hheight
  · have hwidth : 0 < a.width := pos_of_mul_pos_left hpos (le_trans hh₀ hh)
    calc b.width * b.height ≤ a.width * b.height := mul_le_mul_of_nonneg_right hw hh₀
      _ < a.width * a.height := mul_lt_mul_of_pos_left h hwidth

theorem Bounds.flat_of_encloses {a b : Bounds K} (hb : b.Upright)
    (henc : a.encloses b = true) (hflat : a.area = 0) : b.width = 0 ∨ b.height = 0 := by
  obtain ⟨hw₀, hw, hh₀, hh⟩ := sides_le hb henc
  rcases mul_eq_zero.mp hflat with h | h
  · exact .inl (le_antisymm (hw.trans (le_of_eq h)) hw₀)
  · exact .inr (le_antisymm (hh.trans (le_of_eq h)) hh₀)

theorem Path.area_nonneg (p : Path K) : 0 ≤ p.area := by
  unfold area
  split
  · exact abs_nonneg (signedArea p.polyline)
  · exact le_of_eq zero_decimal.symm

theorem signedArea_exact (ps : List (Point K)) :
    signedArea ps = ((ringEdges ps).map fun e => shoelaceTerm e.1 e.2).sum := by
  have h := Scalar.foldl_add_exact (fun e => shoelaceTerm e.1 e.2) (ringEdges ps) (0.0 : K)
  exact h.trans (by rw [zero_decimal, zero_add])

/-- Around a ring every step forward is taken back. -/
theorem ringEdges_steps (ps : List (Point K)) :
    ((ringEdges ps).map fun e => e.1.x - e.2.x).sum = 0 := by
  have hfst : ((ringEdges ps).map fun e => e.1.x).sum = (ps.map Point.x).sum := by
    conv_rhs => rw [← ringEdges_fst ps, List.map_map]
    rfl
  have hsnd : ((ringEdges ps).map fun e => e.2.x).sum = (ps.map Point.x).sum := by
    have h : ((ringEdges ps).map fun e => e.2.x) = (ps.tail ++ ps.head?.toList).map Point.x := by
      rw [← ringEdges_snd, List.map_map]
      rfl
    rw [h]
    cases ps with
    | nil => rfl
    | cons p ps => simp [add_comm]
  have hadd : ((ringEdges ps).map fun e => e.1.x - e.2.x).sum +
      ((ringEdges ps).map fun e => e.2.x).sum = ((ringEdges ps).map fun e => e.1.x).sum := by
    rw [← List.sum_map_add]
    simp only [sub_add_cancel]
  rw [hfst, hsnd] at hadd
  exact add_eq_right.mp hadd

theorem signedArea_of_x {ps : List (Point K)} {c : K} (h : ∀ p ∈ ps, p.x = c) :
    signedArea ps = 0 := by
  rw [signedArea_exact]
  apply List.sum_eq_zero
  intro a ha
  obtain ⟨e, he, rfl⟩ := List.mem_map.mp ha
  obtain ⟨h₁, h₂⟩ := mem_of_mem_ringEdges he
  change (e.1.y + e.2.y) * (e.1.x - e.2.x) * 0.5 = 0
  rw [h _ h₁, h _ h₂, sub_self, mul_zero, zero_mul]

theorem signedArea_of_y {ps : List (Point K)} {c : K} (h : ∀ p ∈ ps, p.y = c) :
    signedArea ps = 0 := by
  have hterm : (ringEdges ps).map (fun e => shoelaceTerm e.1 e.2) =
      (ringEdges ps).map fun e => c * (e.1.x - e.2.x) := by
    apply List.map_congr_left
    intro e he
    obtain ⟨h₁, h₂⟩ := mem_of_mem_ringEdges he
    change (e.1.y + e.2.y) * (e.1.x - e.2.x) * 0.5 = c * (e.1.x - e.2.x)
    rw [h _ h₁, h _ h₂]
    ring
  rw [signedArea_exact, hterm, List.sum_map_mul_left, ringEdges_steps, mul_zero]

theorem Path.area_of_open {p : Path K} (h : p.closed = false) : p.area = 0 := by
  rw [area, h, if_neg Bool.false_ne_true, zero_decimal]

/-- A path whose box has no width or no height encloses no area. -/
theorem Path.area_of_flat {p : Path K} (h : p.bounds.width = 0 ∨ p.bounds.height = 0) :
    p.area = 0 := by
  have hzero : signedArea p.polyline = 0 := by
    rcases h with h | h
    · apply signedArea_of_x (c := p.bounds.x0)
      intro q hq
      obtain ⟨h₀, h₁⟩ := (p.covers_polyline hq).x (le_refl _)
      change p.bounds.x1 - p.bounds.x0 = 0 at h
      change p.bounds.x0 ≤ q.x at h₀
      change q.x ≤ p.bounds.x1 at h₁
      linarith
    · apply signedArea_of_y (c := p.bounds.y0)
      intro q hq
      obtain ⟨h₀, h₁⟩ := (p.covers_polyline hq).y (le_refl _)
      change p.bounds.y1 - p.bounds.y0 = 0 at h
      change p.bounds.y0 ≤ q.y at h₀
      change q.y ≤ p.bounds.y1 at h₁
      linarith
  unfold area
  split
  · rw [hzero]
    exact abs_zero
  · exact zero_decimal

end Reaming
