import Mathlib.Data.List.Forall2
import Reaming.Proofs.PathData.Chained
import Reaming.Proofs.PathData.Words

namespace Reaming

def Curve.points {α : Type} : Curve α → List (Point α)
  | .line a b => [a, b]
  | .quadratic a b c => [a, b, c]
  | .cubic a b c d => [a, b, c, d]

theorem Curve.start_mem_points {α : Type} (c : Curve α) : c.start ∈ c.points := by
  cases c <;> exact List.mem_cons_self

theorem Curve.stop_mem_points {α : Type} (c : Curve α) : c.stop ∈ c.points := by
  cases c <;> simp [Curve.stop, Curve.points]

@[simp] theorem Segment.start_map {α : Type} (f : Point α → Point α) (s : Segment α) :
    (s.map f).start = f s.start :=
  Curve.start_map f s.curve

@[simp] theorem Segment.stop_map {α : Type} (f : Point α → Point α) (s : Segment α) :
    (s.map f).stop = f s.stop :=
  Curve.stop_map f s.curve

def Path.Finite (p : Path Float) : Prop :=
  ∀ s ∈ p.segments, ∀ q ∈ s.curve.points, q.Finite

instance (p : Path Float) : Decidable p.Finite :=
  inferInstanceAs (Decidable (∀ s ∈ p.segments, ∀ q ∈ s.curve.points, q.Finite))

theorem Path.Finite.start {p : Path Float} (h : p.Finite) {s : Segment Float}
    (hs : s ∈ p.segments) : s.start.Finite :=
  h s hs s.start s.curve.start_mem_points

theorem Path.Finite.stop {p : Path Float} (h : p.Finite) {s : Segment Float}
    (hs : s ∈ p.segments) : s.stop.Finite :=
  h s hs s.stop s.curve.stop_mem_points

/-- A path whose segments share their ends, as far as comparing doubles tells: zeros of either
sign are one end. -/
structure Path.Joined (p : Path Float) : Prop where
  nonempty : p.segments ≠ []
  linked : p.segments.IsChain fun s t => (s.stop == t.start) = true
  returns : p.closed = true → ∀ first last,
    p.segments.head? = some first → p.segments.getLast? = some last →
      (last.stop == first.start) = true

/-- The reader of path data promises more of a path: ends that are the very same. -/
theorem Path.Chained.joined {p : Path Float} (h : p.Chained) (finite : p.Finite) :
    p.Joined := by
  have hself {q : Point Float} (hq : q.Finite) : (q == q) = true :=
    (Bool.and_eq_true _ _).mpr ⟨Decimal.beq_self hq.1, Decimal.beq_self hq.2⟩
  refine ⟨h.nonempty, ?_, ?_⟩
  · apply h.linked.imp_of_mem_imp
    intro s t hs _ hst
    rw [← hst]
    exact hself (finite.stop hs)
  · intro hc first last hf hl
    rw [← h.returns hc first last hf hl]
    exact hself (finite.stop (List.mem_of_getLast? hl))

def Point.reread (p : Point Float) : Point Float :=
  ⟨Decimal.reread p.x, Decimal.reread p.y⟩

def Point.Close (p q : Point Float) : Prop :=
  Decimal.WithinThousandth p.x q.x ∧ Decimal.WithinThousandth p.y q.y

inductive Curve.Close : Curve Float → Curve Float → Prop where
  | line {a b a' b' : Point Float} (start : a.Close a') (stop : b.Close b') :
      Curve.Close (.line a b) (.line a' b')
  | quadratic {a b c a' b' c' : Point Float} (start : a.Close a') (control : b.Close b')
      (stop : c.Close c') : Curve.Close (.quadratic a b c) (.quadratic a' b' c')
  | cubic {a b c d a' b' c' d' : Point Float} (start : a.Close a') (control₁ : b.Close b')
      (control₂ : c.Close c') (stop : d.Close d') :
      Curve.Close (.cubic a b c d) (.cubic a' b' c' d')

namespace PathData
open Decimal

theorem close_reread {p : Point Float} (h : p.Finite) : p.Close p.reread :=
  ⟨withinThousandth_reread h.1, withinThousandth_reread h.2⟩

theorem close_map_reread {c : Curve Float} (h : ∀ q ∈ c.points, q.Finite) :
    c.Close (c.map Point.reread) := by
  have hclose : ∀ q ∈ c.points, q.Close q.reread := fun q hq => close_reread (h q hq)
  cases c with
  | line a b =>
    simp only [Curve.points, List.forall_mem_cons] at hclose
    obtain ⟨ha, hb, _⟩ := hclose
    exact .line ha hb
  | quadratic a b c =>
    simp only [Curve.points, List.forall_mem_cons] at hclose
    obtain ⟨ha, hb, hc, _⟩ := hclose
    exact .quadratic ha hb hc
  | cubic a b c d =>
    simp only [Curve.points, List.forall_mem_cons] at hclose
    obtain ⟨ha, hb, hc, hd, _⟩ := hclose
    exact .cubic ha hb hc hd

theorem reread_eq_of_beq {p q : Point Float} (hp : p.Finite) (hq : q.Finite)
    (h : (p == q) = true) : p.reread = q.reread := by
  obtain ⟨hx, hy⟩ := (Bool.and_eq_true _ _).mp h
  exact congrArg₂ Point.mk (reread_congr hp.1 hq.1 hx) (reread_congr hp.2 hq.2 hy)

/-- Rounding brings ends together that differ in the sign of a zero only. -/
theorem chained_reread {p : Path Float} (joined : p.Joined) (finite : p.Finite) :
    (p.map Point.reread).Chained := by
  refine ⟨?_, ?_, ?_⟩
  · intro hn
    exact joined.nonempty (List.map_eq_nil_iff.mp hn)
  · refine List.isChain_map _ |>.mpr ?_
    apply joined.linked.imp_of_mem_imp
    intro s t hs ht h
    rw [Segment.stop_map, Segment.start_map]
    exact reread_eq_of_beq (finite.stop hs) (finite.start ht) h
  · intro hc first last hf hl
    change (p.segments.map _).head? = _ at hf
    change (p.segments.map _).getLast? = _ at hl
    rw [List.head?_map] at hf
    rw [List.getLast?_map] at hl
    obtain ⟨s, hs, rfl⟩ := Option.map_eq_some_iff.mp hf
    obtain ⟨t, ht, rfl⟩ := Option.map_eq_some_iff.mp hl
    rw [Segment.stop_map, Segment.start_map]
    exact reread_eq_of_beq (finite.stop (List.mem_of_getLast? ht))
      (finite.start (List.mem_of_head? hs)) (joined.returns hc s t hs ht)

theorem finite_reread {q : Point Float} (h : q.Finite) : q.reread.Finite := by
  obtain ⟨⟨_, _, _, hx, _⟩, _, _, _, hy, _⟩ := close_reread h
  exact ⟨Option.isSome_of_eq_some hx, Option.isSome_of_eq_some hy⟩

theorem near_self {q : Point Float} (h : q.Finite) : q.near q = true := by
  have hsub {x : Float} (hx : (value? x).isSome = true) : Scalar.abs (x - x) < (0.1 : Float) := by
    obtain ⟨v, hv⟩ := Option.isSome_iff_exists.mp hx
    obtain ⟨negative, units, hs, _⟩ := value?_cases hv
    rw [sub_self_of_finite hs]
    decide +kernel
  exact (Bool.and_eq_true _ _).mpr ⟨decide_eq_true (hsub h.1), decide_eq_true (hsub h.2)⟩

/-- Closing a path that comes back to its start neither adds nor moves a segment. -/
theorem close_of_trail {p : Path Float} {b : Point Float} (ne : p.segments ≠ [])
    (finite : p.Finite) (h : Trail b (p.map Point.reread).segments b) :
    (p.map Point.reread).close b = { p.map Point.reread with closed := true } := by
  obtain ⟨ss, last, hp⟩ := List.eq_nil_or_concat' p.segments |>.resolve_left ne
  have hlast : last ∈ p.segments := by simp [hp]
  have hb : last.stop.reread = b := by
    rw [← Segment.stop_map Point.reread last]
    exact h.last_stop _ (by simp [Path.map, hp])
  subst hb
  have hsegments : (p.map Point.reread).segments =
      ss.map (Segment.map Point.reread) ++ [last.map Point.reread] := by
    simp [Path.map, hp]
  have hstop : (last.map Point.reread).withStop last.stop.reread = last.map Point.reread := by
    obtain ⟨curve, cache⟩ := last
    cases curve <;> rfl
  have hstart := Path.start?_eq_of_trail h (by simp [hsegments])
  rw [Path.close_near hsegments hstart (near_self (finite_reread (finite.stop hlast))), hstop,
    ← hsegments]

namespace Reader

theorem feed_number (r : Reader Float) (x : Float) :
    r.feed (.number (fixed3 x).toList) = r.operand (fixed3 x).toList (readBack x) := by
  simp only [feed, read?_fixed3]

theorem feed_moveTo (p : Point Float) :
    (strokeTokens (.moveTo p)).foldlM feed initial = .ok (initial.moveTo p.reread) := by
  simp only [strokeTokens, strokeCommand, strokePoints, pointTokens, List.flatMap_cons,
    List.flatMap_nil, List.cons_append, List.nil_append, List.foldlM_cons, feed_number]
  rfl

theorem feed_stroke {r : Reader Float} {p : Path Float} {c : Curve Float}
    (hops : r.operands = []) (hcurrent : r.current = some p) (hpen : c.start.reread = r.pen) :
    (strokeTokens c.stroke).foldlM feed r = .ok { r with
      current := some ({ p with closed := false }.push (.ofCurve (c.map Point.reread)))
      pen := c.stop.reread
      command := strokeCommand c.stroke } := by
  obtain ⟨finished, current, pen, home, command, operands⟩ := r
  cases hops
  cases hcurrent
  cases hpen
  cases c <;>
    simp only [Curve.stroke, strokeTokens, strokeCommand, strokePoints, pointTokens,
      List.flatMap_cons, List.flatMap_nil, List.cons_append, List.nil_append, List.foldlM_cons,
      feed_number] <;>
    rfl

/-- The strokes of some segments draw them from the pen on, and leave the pen at their end. -/
theorem foldlM_strokes {ss : List (Segment Float)} {drawn : List (Segment Float)}
    {r : Reader Float} {b : Point Float} (hops : r.operands = [])
    (hcurrent : r.current = some ⟨drawn, false⟩)
    (h : Trail r.pen (ss.map (Segment.map Point.reread)) b) :
    ∃ c, (ss.flatMap fun s => strokeTokens s.curve.stroke).foldlM feed r = .ok { r with
      current := some ⟨drawn ++ ss.map (Segment.map Point.reread), false⟩
      pen := b
      command := c } := by
  induction ss generalizing r drawn with
  | nil =>
    obtain ⟨finished, current, pen, home, command, operands⟩ := r
    cases hcurrent
    cases h
    refine ⟨command, ?_⟩
    rw [List.map_nil, List.append_nil]
    rfl
  | cons s ss ih =>
    obtain ⟨hs, ht⟩ := h
    rw [Segment.start_map] at hs
    rw [Segment.stop_map] at ht
    obtain ⟨c, hc⟩ := ih (r := { r with
      current := some ⟨drawn ++ [s.map Point.reread], false⟩
      pen := s.stop.reread
      command := strokeCommand s.curve.stroke }) hops rfl ht
    refine ⟨c, ?_⟩
    rw [List.flatMap_cons, List.foldlM_append, feed_stroke hops hcurrent hs]
    apply hc.trans
    rw [List.append_assoc]
    rfl

theorem feed_close {r : Reader Float} {p : Path Float} (hops : r.operands = [])
    (hcurrent : r.current = some p) : r.feed (.command ⟨.closePath, false⟩) = .ok { r with
      current := some (p.close r.pen)
      pen := r.home
      command := ⟨.closePath, false⟩ } := by
  obtain ⟨finished, current, pen, home, command, operands⟩ := r
  cases hops
  cases hcurrent
  rfl

theorem finish_ok {r : Reader Float} {p : Path Float} (hops : r.operands = [])
    (hfinished : r.finished = []) (hcurrent : r.current = some p) (shown : p.isEmpty = false) :
    r.finish = .ok [p] := by
  have hpaths : r.paths = [p] := by simp [paths, hfinished, hcurrent, shown]
  rw [finish, hpaths, checkComplete, hops]
  rfl

end Reader

theorem finite_strokePoints {p : Path Float} (finite : p.Finite) :
    ∀ t ∈ p.strokes, ∀ q ∈ strokePoints t, q.Finite := by
  intro t ht q hq
  have hcurve (c : Curve Float) (hc : q ∈ strokePoints c.stroke) : q ∈ c.points := by
    cases c <;> exact List.mem_cons_of_mem _ hc
  rw [Path.strokes] at ht
  rcases List.mem_append.mp ht with ht | ht
  · rcases List.mem_append.mp ht with ht | ht
    · obtain ⟨first, hf, rfl⟩ := Option.map_eq_some_iff.mp (Option.mem_toList.mp ht)
      obtain ⟨s, hs, rfl⟩ := Option.map_eq_some_iff.mp hf
      cases List.mem_singleton.mp hq
      exact finite.start (List.mem_of_head? hs)
    · obtain ⟨s, hs, rfl⟩ := List.mem_map.mp ht
      exact finite s hs q (hcurve s.curve hq)
  · split at ht
    · cases List.mem_singleton.mp ht
      cases hq
    · cases ht

theorem tokens_strokes {p : Path Float} {first : Segment Float} {rest : List (Segment Float)}
    (h : p.segments = first :: rest) : p.strokes.flatMap strokeTokens =
      strokeTokens (.moveTo first.start) ++
        (p.segments.flatMap fun s => strokeTokens s.curve.stroke) ++
          if p.closed then [.command ⟨.closePath, false⟩] else [] := by
  have hstart : p.start? = some first.start := by
    rw [Path.start?, h]
    rfl
  rw [Path.strokes, hstart, List.flatMap_append, List.flatMap_append, List.flatMap_map]
  cases p.closed <;> rfl

/-- What the reader holds after all strokes of a path but the closing one. -/
theorem foldlM_path {p : Path Float} {a b : Point Float}
    (h : Trail a.reread (p.map Point.reread).segments b) :
    ∃ r : Reader Float,
      (strokeTokens (.moveTo a) ++ p.segments.flatMap fun s => strokeTokens s.curve.stroke).foldlM
        Reader.feed Reader.initial = .ok r ∧
      r.operands = [] ∧ r.finished = [] ∧ r.pen = b ∧
      r.current = some ⟨(p.map Point.reread).segments, false⟩ := by
  obtain ⟨c, hc⟩ := Reader.foldlM_strokes (r := Reader.initial.moveTo a.reread) rfl rfl h
  refine ⟨{ Reader.initial.moveTo a.reread with
    current := some ⟨(p.map Point.reread).segments, false⟩
    pen := b
    command := c }, ?_, rfl, rfl, rfl, rfl⟩
  rw [List.foldlM_append, Reader.feed_moveTo]
  exact hc

/-- What is read where a path was written is the same path with every point rounded. -/
theorem read_write_eq {p : Path Float} (joined : p.Joined) (finite : p.Finite) :
    read (write p) = .ok [p.map Point.reread] := by
  have hchained := chained_reread joined finite
  obtain ⟨first, rest, hp⟩ := List.exists_cons_of_ne_nil joined.nonempty
  have hmap : (p.map Point.reread).segments =
      first.map Point.reread :: rest.map (Segment.map Point.reread) := by
    rw [Path.map, hp]
    rfl
  have hshown : (p.map Point.reread).isEmpty = false := by
    rw [Path.isEmpty, hmap]
    rfl
  obtain ⟨last, hlast, htrail⟩ := trail_of_isChain (hmap ▸ hchained.linked)
  rw [← hmap] at hlast htrail
  rw [Segment.start_map] at htrail
  obtain ⟨r, hr, hops, hfinished, hpen, hcurrent⟩ := foldlM_path htrail
  rw [read, tokens_write joined.nonempty (finite_strokePoints finite), tokens_strokes hp,
    readTokens, List.foldlM_append, hr]
  cases hclosed : p.closed with
  | false =>
    change r.finish = _
    refine Reader.finish_ok hops hfinished (hcurrent.trans ?_) hshown
    rw [← hclosed]
    rfl
  | true =>
    have hback : last.stop = first.start.reread := by
      rw [← Segment.start_map Point.reread first]
      exact hchained.returns hclosed (first.map Point.reread) last (by rw [hmap]; rfl) hlast
    rw [hback] at htrail hpen
    change (r.feed (.command ⟨.closePath, false⟩) >>= pure) >>= Reader.finish = _
    rw [Reader.feed_close hops hcurrent, hpen]
    refine Reader.finish_ok hops hfinished (congrArg some ?_) hshown
    refine (close_of_trail (p := { p with closed := false }) joined.nonempty finite htrail).trans ?_
    rw [← hclosed]
    rfl

/-- Path data that a path was written to reads as one path, closed if the first one is, with the
same kinds of segments and every coordinate within a thousandth. -/
theorem read_write {p : Path Float} (joined : p.Joined) (finite : p.Finite) :
    ∃ q : Path Float, read (write p) = .ok [q] ∧ q.closed = p.closed ∧
      List.Forall₂ (fun s t => s.curve.Close t.curve) p.segments q.segments := by
  refine ⟨p.map Point.reread, read_write_eq joined finite, rfl, ?_⟩
  apply List.forall₂_map_right_iff.mpr
  apply List.forall₂_same.mpr
  intro s hs
  exact close_map_reread (finite s hs)

/-- A closed path over a tie between two thousandths, the largest and the least double, with
zeros that change their sign where segments meet. -/
def extremePath : Path Float where
  segments :=
    [.line ⟨0.0, 0.0625⟩ ⟨1.7976931348623157e308, -0.0⟩,
      .ofCurve (.quadratic ⟨1.7976931348623157e308, 0.0⟩ ⟨5e-324, -0.0004⟩ ⟨-2.5, 1e23⟩),
      .ofCurve (.cubic ⟨-2.5, 1e23⟩ ⟨0.001, 999.9995⟩ ⟨-1e16, 0.1⟩ ⟨-0.0, 0.0625⟩)]
  closed := true

theorem extremePath_joined : extremePath.Joined := by
  refine ⟨List.cons_ne_nil _ _, ?_, ?_⟩
  · exact .cons_cons (by decide +kernel) (.cons_cons (by decide +kernel) (.singleton _))
  · intro _ first last hf hl
    cases hf
    cases hl
    decide +kernel

theorem read_write_extremePath : extremePath.Joined ∧ extremePath.Finite ∧ ∃ q : Path Float,
    read (write extremePath) = .ok [q] ∧ q.closed = true ∧
      List.Forall₂ (fun s t => s.curve.Close t.curve) extremePath.segments q.segments := by
  have finite : extremePath.Finite := by decide +kernel
  exact ⟨extremePath_joined, finite, read_write extremePath_joined finite⟩

end PathData

end Reaming
