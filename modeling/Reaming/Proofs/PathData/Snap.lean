import Reaming.Proofs.Decimal.Distance
import Reaming.Proofs.PathData.RoundTrip

namespace Reaming

variable {α : Type}

@[simp] theorem Segment.withStop_withStop (s : Segment α) (p q : Point α) :
    (s.withStop p).withStop q = s.withStop q := by
  obtain ⟨curve, cache⟩ := s
  cases curve <;> rfl

namespace Path

variable [Scalar α] {p : Path α} {pen home : Point α}

/-- A path that has been closed stays as it is when it is closed again, if its start counts as near
itself. -/
theorem close_close (trail : Trail home p.segments pen) (ne : p.segments ≠ [])
    (self : home.near home = true) : (p.close pen).close home = p.close pen := by
  obtain ⟨ss, last, segments⟩ := List.eq_nil_or_concat' p.segments |>.resolve_left ne
  have start := start?_eq_of_trail trail ne
  have hstart : (p.close pen).start? = some home :=
    start?_eq_of_trail (trail_close trail) fun h => ne (close_segments_eq_nil h)
  cases hnear : pen.near home with
  | true =>
    rw [close_near segments start hnear] at hstart ⊢
    rw [close_near rfl hstart self, Segment.withStop_withStop]
  | false =>
    rw [close_far segments start hnear, List.append_cons] at hstart ⊢
    rw [close_near rfl hstart self]
    rfl

end Path

namespace PathData.Reader

variable [Scalar α] {r : Reader α} {p : Path α}

theorem begin_closePath {c : Command} (h : c.verb = .closePath) :
    r.begin c = r.checkComplete >>= fun _ => { r with command := c }.closePath := by
  rw [begin, h]

theorem closePath_of_current (current : r.current = some p) :
    r.closePath = .ok { r with current := some (p.close r.pen), pen := r.home } := by
  rw [closePath, current]

/-- A letter that closes the subpath again does no more than it would have done at first. -/
theorem feed_closePath_twice (current : r.current = some p)
    (settled : (p.close r.pen).close r.home = p.close r.pen) {c d : Command}
    (hc : c.verb = .closePath) (hd : d.verb = .closePath) :
    r.feed (.command c) >>= (·.feed (.command d)) = r.feed (.command d) := by
  change r.begin c >>= (·.begin d) = r.begin d
  rw [begin_closePath hc, begin_closePath hd]
  cases hcheck : r.checkComplete with
  | error why => rfl
  | ok u =>
    have hoperands := checkComplete_ok hcheck
    calc { r with command := c }.closePath >>= (·.begin d)
        = { r with command := c, current := some (p.close r.pen), pen := r.home }.begin d := by
          rw [closePath_of_current (r := { r with command := c }) current]
          rfl
      _ = { r with command := d, current := some (p.close r.pen), pen := r.home }.closePath := by
          rw [begin_closePath hd, checkComplete, hoperands]
          rfl
      _ = { r with command := d }.closePath := by
          rw [closePath_of_current (r := { r with command := d }) current,
            closePath_of_current rfl, settled]

end PathData.Reader

section doubles
open Decimal

/-- Both stand for numbers, which are less than a tenth apart, as doubles are subtracted and
exactly. -/
structure WithinTenth (x y : Float) : Prop where
  computed : Scalar.abs (x - y) < 0.1
  exact : ∃ v w, value? x = some v ∧ value? y = some w ∧ |v - w| < 1 / 10

/-- Both stand for numbers, which are at least a tenth apart as doubles are subtracted. Their exact
distance may fall short of a tenth by what rounding hides. -/
structure TenthApart (x y : Float) : Prop where
  computed : 0.1 ≤ Scalar.abs (x - y)
  exact : ∃ v w, value? x = some v ∧ value? y = some w ∧ 1 / 10 - 1 / 10 ^ 17 < |v - w|

theorem withinTenth {x y : Float} (hx : (value? x).isSome = true) (hy : (value? y).isSome = true)
    (h : Scalar.abs (x - y) < 0.1) : WithinTenth x y := by
  obtain ⟨v, hv⟩ := Option.isSome_iff_exists.mp hx
  obtain ⟨w, hw⟩ := Option.isSome_iff_exists.mp hy
  exact ⟨h, v, w, hv, hw, abs_sub_lt_tenth hv hw h⟩

theorem tenthApart {x y : Float} (hx : (value? x).isSome = true) (hy : (value? y).isSome = true)
    (h : ¬ Scalar.abs (x - y) < 0.1) : TenthApart x y := by
  obtain ⟨v, hv⟩ := Option.isSome_iff_exists.mp hx
  obtain ⟨w, hw⟩ := Option.isSome_iff_exists.mp hy
  obtain ⟨hle, hlt⟩ := tenth_le_abs_sub hv hw h
  exact ⟨hle, v, w, hv, hw, hlt⟩

variable {p q : Point Float}

theorem Point.within_of_near (hp : p.Finite) (hq : q.Finite) (h : p.near q = true) :
    WithinTenth p.x q.x ∧ WithinTenth p.y q.y := by
  obtain ⟨hx, hy⟩ := (Bool.and_eq_true _ _).mp h
  exact ⟨withinTenth hp.1 hq.1 (of_decide_eq_true hx), withinTenth hp.2 hq.2 (of_decide_eq_true hy)⟩

theorem Point.apart_of_far (hp : p.Finite) (hq : q.Finite) (h : p.near q = false) :
    TenthApart p.x q.x ∨ TenthApart p.y q.y :=
  (Bool.and_eq_false_iff.mp h).imp (fun h => tenthApart hp.1 hq.1 (of_decide_eq_false h))
    fun h => tenthApart hp.2 hq.2 (of_decide_eq_false h)

end doubles

namespace PathData
open Reader

/-- Whatever was read before, a close-path on a subpath with a segment closes it and changes at most
its last segment. A pen within a tenth of the start on both axes is snapped onto it by moving that
segment's end; any other is joined to it by a line. The subpath then ends, and the pen stands, at the
very start, and to close it once more changes nothing, also when the rest of the data is read. -/
theorem closePath_settles {ts : List Token} {r : Reader Float} {p : Path Float}
    (reached : ts.foldlM feed initial = .ok r) (current : r.current = some p)
    (drawn : p.segments ≠ []) (pen : r.pen.Finite) (home : r.home.Finite) :
    ∃ ss last s q,
      p.segments = ss ++ [last] ∧ last.stop = r.pen ∧ p.start? = some r.home ∧
      r.closePath = .ok s ∧ s = { r with current := some q, pen := r.home } ∧
      ((r.pen.near r.home = true ∧
          WithinTenth r.pen.x r.home.x ∧ WithinTenth r.pen.y r.home.y ∧
          q = ⟨ss ++ [last.withStop r.home], true⟩) ∨
        (r.pen.near r.home = false ∧
          (TenthApart r.pen.x r.home.x ∨ TenthApart r.pen.y r.home.y) ∧
          q = ⟨ss ++ [last, .line r.pen r.home], true⟩)) ∧
      q.segments.getLast?.map Segment.stop = some r.home ∧
      s.closePath = .ok s ∧
      ∀ c d rest, c.verb = .closePath → d.verb = .closePath →
        readTokens (α := Float) (ts ++ .command c :: .command d :: rest) =
          readTokens (ts ++ .command d :: rest) := by
  have trail := (foldlM_feed_invariant Tracked.feed initial_tracked reached).trail p current
  obtain ⟨ss, last, segments⟩ := List.eq_nil_or_concat' p.segments |>.resolve_left drawn
  have start := Path.start?_eq_of_trail trail drawn
  have settled := Path.close_close trail drawn (near_self home)
  refine ⟨ss, last, _, p.close r.pen, segments, trail.last_stop last (by simp [segments]), start,
    closePath_of_current current, rfl, ?_, ?_, ?_, ?_⟩
  · cases hnear : r.pen.near r.home with
    | true =>
      obtain ⟨hx, hy⟩ := Point.within_of_near pen home hnear
      exact .inl ⟨rfl, hx, hy, Path.close_near segments start hnear⟩
    | false =>
      exact .inr ⟨rfl, Point.apart_of_far pen home hnear, Path.close_far segments start hnear⟩
  · exact (Path.trail_close trail).stop_getLast? fun h => drawn (Path.close_segments_eq_nil h)
  · rw [closePath_of_current rfl, settled]
  · intro c d rest hc hd
    have hrun : (.command c :: .command d :: rest).foldlM feed r =
        (.command d :: rest).foldlM feed r := by
      rw [List.foldlM_cons, List.foldlM_cons, ← feed_closePath_twice current settled hc hd]
      cases r.feed (.command c) with
      | error why => rfl
      | ok s => rfl
    rw [readTokens, readTokens, List.foldlM_append, List.foldlM_append, reached]
    exact congrArg (· >>= Reader.finish) hrun

/-- An arch that comes back to within a tenth of where its subpath began, and one that stays away on
one axis, each drawn onto a subpath that had been closed before. -/
theorem closePath_settles_arch :
    (∃ (r s : Reader Float) (p q : Path Float), p.segments.length = 4 ∧ q.segments.length = 4 ∧
      (tokens "M1 1H9V9ZM1 1H9V9ZQ5 5 1.05 1.05".toList).foldlM feed initial = .ok r ∧
      r.current = some p ∧ r.closePath = .ok s ∧ s.current = some q ∧ s.closePath = .ok s) ∧
    ∃ (r s : Reader Float) (p q : Path Float), p.segments.length = 4 ∧ q.segments.length = 5 ∧
      (tokens "M1 1H9V9ZM1 1H9V9ZQ5 5 1.05 1.1".toList).foldlM feed initial = .ok r ∧
      r.current = some p ∧ r.closePath = .ok s ∧ s.current = some q ∧ s.closePath = .ok s := by
  have hsettles {text : String} (near : Bool)
      (hview : ((tokens text.toList).foldlM feed (initial : Reader Float)).map (fun r =>
        (r.current.map (·.segments.length), r.pen.near r.home,
          decide (r.pen.Finite ∧ r.home.Finite))) = .ok (some 4, near, true)) :
      ∃ (r s : Reader Float) (p q : Path Float), p.segments.length = 4 ∧
        q.segments.length = (if near then 4 else 5) ∧
        (tokens text.toList).foldlM feed initial = .ok r ∧
        r.current = some p ∧ r.closePath = .ok s ∧ s.current = some q ∧ s.closePath = .ok s := by
    obtain ⟨r, hr, hview⟩ := exists_of_map_ok hview
    simp only [Prod.mk.injEq, Option.map_eq_some_iff, decide_eq_true_eq] at hview
    obtain ⟨⟨p, hp, hlength⟩, hnear, hpen, hhome⟩ := hview
    have hne : p.segments ≠ [] := by
      rintro hnil
      simp [hnil] at hlength
    obtain ⟨ss, last, s, q, hsegments, _, _, hclose, hs, hcases, _, hagain, _⟩ :=
      closePath_settles hr hp hne hpen hhome
    have hcount : ss.length = 3 := by
      rw [hsegments, List.length_append, List.length_singleton] at hlength
      exact Nat.succ.inj hlength
    refine ⟨r, s, p, q, hlength, ?_, hr, hp, hclose, congrArg Reader.current hs, hagain⟩
    rw [← hnear]
    rcases hcases with ⟨h, _, _, rfl⟩ | ⟨h, _, rfl⟩
    · simp [h, hcount]
    · simp [h, hcount]
  exact ⟨hsettles true (by decide +kernel), hsettles false (by decide +kernel)⟩

end PathData

end Reaming
