import Mathlib.Data.List.Chain
import Reaming.Proofs.PathData.Steps

namespace Reaming

variable {α : Type}

/-- Segments that lead from `a` to `b`, each one starting at the very point where the one before
stops. -/
def Trail (a : Point α) : List (Segment α) → Point α → Prop
  | [], b => a = b
  | s :: ss, b => s.start = a ∧ Trail s.stop ss b

theorem trail_append {a b : Point α} {ss ts : List (Segment α)} :
    Trail a (ss ++ ts) b ↔ ∃ m, Trail a ss m ∧ Trail m ts b := by
  induction ss generalizing a with
  | nil => exact ⟨fun h => ⟨a, rfl, h⟩, fun ⟨m, hm, h⟩ => hm ▸ h⟩
  | cons s ss ih =>
    simp only [List.cons_append, Trail, ih]
    constructor
    · rintro ⟨hs, m, hm, ht⟩
      exact ⟨m, ⟨hs, hm⟩, ht⟩
    · rintro ⟨m, ⟨hs, hm⟩, ht⟩
      exact ⟨hs, m, hm, ht⟩

theorem Trail.concat {a b : Point α} {ss : List (Segment α)} {s : Segment α}
    (h : Trail a ss b) (hs : s.start = b) : Trail a (ss ++ [s]) s.stop :=
  trail_append.mpr ⟨b, h, hs, rfl⟩

theorem Trail.isChain {a b : Point α} {ss : List (Segment α)} (h : Trail a ss b) :
    ss.IsChain (fun s t => s.stop = t.start) := by
  induction ss generalizing a with
  | nil => exact .nil
  | cons s ss ih =>
    cases ss with
    | nil => exact .singleton s
    | cons t ts => exact .cons_cons h.2.1.symm (ih h.2)

theorem trail_of_isChain {s : Segment α} {ss : List (Segment α)}
    (h : (s :: ss).IsChain (fun s t => s.stop = t.start)) :
    ∃ last, (s :: ss).getLast? = some last ∧ Trail s.start (s :: ss) last.stop := by
  induction ss generalizing s with
  | nil => exact ⟨s, rfl, rfl, rfl⟩
  | cons t ts ih =>
    obtain ⟨hst, ht⟩ := List.isChain_cons_cons.mp h
    obtain ⟨last, hlast, htrail⟩ := ih ht
    rw [← hst] at htrail
    exact ⟨last, hlast, rfl, htrail⟩

theorem Trail.head_start {a b : Point α} {ss : List (Segment α)} (h : Trail a ss b)
    (s : Segment α) (hs : ss.head? = some s) : s.start = a := by
  cases ss with
  | nil => cases hs
  | cons t ts =>
    cases hs
    exact h.1

theorem Trail.last_stop {a b : Point α} {ss : List (Segment α)} (h : Trail a ss b)
    (s : Segment α) (hs : ss.getLast? = some s) : s.stop = b := by
  obtain ⟨ts, rfl⟩ := List.getLast?_eq_some_iff.mp hs
  obtain ⟨m, _, _, hb⟩ := trail_append.mp h
  exact hb

theorem Trail.stop_getLast? {a b : Point α} {ss : List (Segment α)} (h : Trail a ss b)
    (ne : ss ≠ []) : ss.getLast?.map Segment.stop = some b := by
  obtain ⟨ts, s, rfl⟩ := List.eq_nil_or_concat' ss |>.resolve_left ne
  rw [List.getLast?_concat, Option.map_some, h.last_stop s List.getLast?_concat]

@[simp] theorem Segment.start_withStop (s : Segment α) (q : Point α) :
    (s.withStop q).start = s.start :=
  Curve.start_withStop s.curve q

@[simp] theorem Segment.stop_withStop (s : Segment α) (q : Point α) : (s.withStop q).stop = q :=
  Curve.stop_withStop s.curve q

namespace Path

/-- What the reader of path data promises of a path. It has a segment, every segment starts at
the very point where the one before stops, and a closed path stops where it starts. -/
structure Chained (p : Path α) : Prop where
  nonempty : p.segments ≠ []
  linked : p.segments.IsChain (fun s t => s.stop = t.start)
  returns : p.closed = true → ∀ first last,
    p.segments.head? = some first → p.segments.getLast? = some last → last.stop = first.start

theorem start?_of_trail {p : Path α} {a b : Point α} (h : Trail a p.segments b)
    {first : Point α} (hf : p.start? = some first) : first = a := by
  obtain ⟨s, hs, rfl⟩ := Option.map_eq_some_iff.mp hf
  exact h.head_start s hs

theorem start?_eq_of_trail {p : Path α} {a b : Point α} (h : Trail a p.segments b)
    (ne : p.segments ≠ []) : p.start? = some a := by
  obtain ⟨s, ss, hp⟩ := List.exists_cons_of_ne_nil ne
  rw [hp] at h
  rw [start?, hp]
  exact congrArg some h.1

/-- Moving the last stop changes where the trail leads, and nothing before. -/
theorem trail_snapTo {p : Path α} {a b : Point α} (h : Trail a p.segments b)
    (hne : p.segments ≠ []) (q : Point α) : Trail a (p.snapTo q).segments q := by
  obtain ⟨ss, s, hp⟩ := List.eq_nil_or_concat' p.segments |>.resolve_left hne
  rw [hp] at h
  obtain ⟨m, hm, hs, _⟩ := trail_append.mp h
  have hseg : (p.snapTo q).segments = ss ++ [s.withStop q] := by simp [snapTo, hp]
  rw [hseg]
  exact trail_append.mpr ⟨m, hm, by rwa [Segment.start_withStop], Segment.stop_withStop s q⟩

variable [Scalar α]

section close
variable {p : Path α} {ss : List (Segment α)} {last : Segment α} {pen home : Point α}

theorem close_near (segments : p.segments = ss ++ [last]) (start : p.start? = some home)
    (near : pen.near home = true) : p.close pen = ⟨ss ++ [last.withStop home], true⟩ := by
  rw [close, start]
  simp [near, snapTo, segments]

theorem close_far (segments : p.segments = ss ++ [last]) (start : p.start? = some home)
    (far : pen.near home = false) : p.close pen = ⟨ss ++ [last, .line pen home], true⟩ := by
  rw [close, start]
  simp [far, push, segments]

end close

/-- Closing leads a path back to where it began, by a snap or by a line. -/
theorem trail_close {p : Path α} {a b : Point α} (h : Trail a p.segments b) :
    Trail a (p.close b).segments a := by
  unfold close
  split
  · rename_i hs
    have hn : p.segments = [] := by simpa [start?] using hs
    rw [hn]
    rfl
  · rename_i first hs
    have ha := start?_of_trail h hs
    subst ha
    have hne : p.segments ≠ [] := by
      intro hn
      simp [start?, hn] at hs
    dsimp only
    split
    · exact trail_snapTo h hne first
    · exact h.concat rfl

theorem close_segments_eq_nil {p : Path α} {b : Point α} (h : (p.close b).segments = []) :
    p.segments = [] := by
  unfold close at h
  split at h
  · exact h
  · dsimp only at h
    split at h
    · cases hp : p.segments.getLast? with
      | none => exact List.getLast?_eq_none_iff.mp hp
      | some s => simp [snapTo, hp] at h
    · simp [push] at h

theorem closed_close {p : Path α} {b : Point α} (h : p.segments = []) : p.close b = p := by
  simp [close, start?, h]

end Path

namespace PathData

namespace Reader

/-- The pen stands where the current subpath leads, home is where it began, and a subpath is
closed only between a close-path and the next stroke. -/
structure Tracked (r : Reader α) : Prop where
  finished : ∀ p ∈ r.finished, p.Chained
  trail : ∀ p, r.current = some p → Trail r.home p.segments r.pen
  closed : ∀ p, r.current = some p → p.closed = true →
    p.segments ≠ [] ∧ r.pen = r.home ∧ r.command.verb.draws = false

theorem Tracked.current_chained {r : Reader α} (h : r.Tracked) {p : Path α}
    (hp : r.current = some p) (hne : p.segments ≠ []) : p.Chained := by
  have ht := h.trail p hp
  refine ⟨hne, ht.isChain, ?_⟩
  intro hc first last hf hl
  rw [ht.last_stop last hl, ht.head_start first hf]
  exact (h.closed p hp hc).2.1

theorem Tracked.paths_chained {r : Reader α} (h : r.Tracked) : ∀ p ∈ r.paths, p.Chained := by
  intro p hp
  rcases List.mem_append.mp hp with hp | hp
  · exact h.finished p hp
  · obtain ⟨hc, he⟩ := Option.filter_eq_some_iff.mp (Option.mem_toList.mp hp)
    exact h.current_chained hc (by simpa [Path.isEmpty] using he)

theorem Tracked.operands {r : Reader α} (h : r.Tracked) (ops : List α) :
    Tracked { r with operands := ops } :=
  ⟨h.finished, h.trail, h.closed⟩

theorem Tracked.moveTo {r : Reader α} (h : r.Tracked) (p : Point α) : (r.moveTo p).Tracked := by
  refine ⟨h.paths_chained, ?_, ?_⟩
  · rintro q ⟨⟩
    rfl
  · rintro q ⟨⟩ hq
    cases hq

theorem Tracked.draw {r s : Reader α} {c : Curve α} (h : r.Tracked) (hc : c.start = r.pen)
    (hv : r.command.verb.draws = true) (hd : r.draw c = .ok s) : s.Tracked := by
  obtain ⟨p, hp, rfl⟩ := draw_cases hd
  refine ⟨h.finished, ?_, ?_⟩
  · rintro q ⟨⟩
    exact (h.trail p hp).concat hc
  · rintro q ⟨⟩ hq
    have := (h.closed p hp hq).2.2
    rw [hv] at this
    cases this

variable [Scalar α]

theorem initial_tracked : (initial : Reader α).Tracked := by
  refine ⟨?_, ?_, ?_⟩
  · intro p hp
    cases hp
  · intro p hp
    cases hp
  · intro p hp
    cases hp

theorem Tracked.closePath {r s : Reader α} (h : r.Tracked) (hv : r.command.verb.draws = false)
    (hs : r.closePath = .ok s) : s.Tracked := by
  obtain ⟨p, hp, rfl⟩ := closePath_cases hs
  refine ⟨h.finished, ?_, ?_⟩
  · rintro q ⟨⟩
    exact Path.trail_close (h.trail p hp)
  · rintro q ⟨⟩ hq
    refine ⟨?_, rfl, hv⟩
    intro hn
    have hp' := Path.close_segments_eq_nil hn
    rw [Path.closed_close hp'] at hq
    exact (h.closed p hp hq).1 hp'

theorem Tracked.begin {r s : Reader α} {c : Command} (h : r.Tracked) (hs : r.begin c = .ok s) :
    s.Tracked := by
  obtain ⟨_, ⟨hv, rfl⟩ | ⟨hv, hs⟩ | ⟨_, hs⟩⟩ := begin_cases hs
  · refine ⟨h.finished, h.trail, ?_⟩
    intro p hp hc
    obtain ⟨hne, hpen, _⟩ := h.closed p hp hc
    exact ⟨hne, hpen, by rw [hv]; rfl⟩
  · -- The command changes first, so the closed subpath meets the new verb, which draws nothing.
    have hr : Tracked { r with command := c } := by
      refine ⟨h.finished, h.trail, ?_⟩
      intro p hp hc
      obtain ⟨hne, hpen, _⟩ := h.closed p hp hc
      exact ⟨hne, hpen, by rw [hv]; rfl⟩
    exact hr.closePath (by rw [hv]; rfl) hs
  · obtain ⟨p, hp, rfl⟩ := reopen_cases hs
    refine ⟨h.finished, ?_, ?_⟩
    · rintro q ⟨⟩
      exact h.trail p hp
    · rintro q ⟨⟩ hq
      cases hq

theorem Tracked.operand {r s : Reader α} {text : List Char} {value : α} (h : r.Tracked)
    (hs : r.operand text value = .ok s) : s.Tracked := by
  obtain ⟨_, ⟨_, rfl⟩ | ⟨g, hg, hs⟩⟩ := operand_cases hs
  · exact h.operands _
  · rcases perform_cases hs with ⟨_, p, rfl⟩ | ⟨hm, c, hc, hd⟩
    · exact (h.operands []).moveTo p
    · exact (h.operands []).draw hc (draws_of_group hg hm) hd

/-- One token keeps the reader on its trail. -/
theorem Tracked.feed {r s : Reader α} {t : Token} (h : r.Tracked) (hs : r.feed t = .ok s) :
    s.Tracked := by
  cases t with
  | command c => exact h.begin hs
  | number text =>
    obtain ⟨value, _, hs⟩ := feed_number_cases hs
    exact h.operand hs

end Reader

theorem readTokens_tracked [Scalar α] {ts : List Token} {ps : List (Path α)}
    (h : readTokens ts = .ok ps) : ∃ s : Reader α, s.Tracked ∧ s.operands = [] ∧ ps = s.paths := by
  obtain ⟨s, hs, ho, hp⟩ := readTokens_cases h
  exact ⟨s, Reader.foldlM_feed_invariant Reader.Tracked.feed Reader.initial_tracked hs, ho, hp⟩

/-- Every path read from path data is chained: it has a segment, its segments share their ends
exactly, and it comes back to its start if it is closed. -/
theorem read_chained [Scalar α] {text : String} {ps : List (Path α)} (h : read text = .ok ps) :
    ∀ p ∈ ps, p.Chained := by
  obtain ⟨s, hs, _, rfl⟩ := readTokens_tracked h
  exact hs.paths_chained

/-- A run with snapped and repeated closings that overflows to infinity and to no number at all. -/
theorem read_chained_overflow : ∃ ps : List (Path Float),
    read "1 1 2 0,1.05 1.05Zz l1e308 0 1e308 0-1e400 0Z" = .ok ps ∧
      ps.map (fun p => (p.segments.length, p.closed)) = [(6, true)] ∧ ∀ p ∈ ps, p.Chained := by
  have h : (read "1 1 2 0,1.05 1.05Zz l1e308 0 1e308 0-1e400 0Z").map
      (List.map fun p : Path Float => (p.segments.length, p.closed)) = .ok [(6, true)] := by
    decide +kernel
  cases hr : (read "1 1 2 0,1.05 1.05Zz l1e308 0 1e308 0-1e400 0Z" : Except _ (List (Path Float)))
  with
  | error why =>
    rw [hr] at h
    cases h
  | ok ps =>
    rw [hr] at h
    exact ⟨ps, rfl, Except.ok.inj h, read_chained hr⟩

end PathData

/-- Path data that is seen to hold one path has that path. -/
theorem exists_read_singleton [Scalar α] {β : Type} {text : String} {view : Path α → β} {b : β}
    (h : (PathData.read text).map (List.map view) = .ok [b]) :
    ∃ p, PathData.read text = .ok [p] ∧ view p = b := by
  obtain ⟨ps, hread, hview⟩ := exists_of_map_ok h
  obtain ⟨p, rfl, hp⟩ := List.map_eq_singleton_iff.mp hview
  exact ⟨p, hread, hp⟩

end Reaming
