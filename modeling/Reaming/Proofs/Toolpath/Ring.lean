import Mathlib.Data.List.Rotate
import Mathlib.Data.Nat.ModEq
import Reaming.Proofs.PathData.Chained
import Reaming.Toolpath.Ring

namespace Reaming

section edits

variable {α : Type}

inductive RingEdit where
  | select (i : Nat) (selected : Bool)
  /-- The path is to start at the vertex. -/
  | start (i : Nat)
  deriving DecidableEq, Repr

/-- The vertices after an edit. One that is refused changes nothing. -/
def RingEdit.apply (closed : Bool) (vs : List (Vertex α)) : RingEdit → List (Vertex α)
  | .select i selected => selectAt vs i selected
  | .start i =>
    match setStart vs i closed with
    | .ok turned => turned
    | .error _ => vs

structure RingTally where
  /-- How many places the ring has been turned. -/
  turned : Nat
  /-- The marks that were accepted, in order, each with the segment that its vertex ends. -/
  marks : List (Nat × Bool)
  deriving DecidableEq, Repr

namespace RingTally

def zero : RingTally := ⟨0, []⟩

/-- The segment whose end stands at place `j` of a ring of `n`. -/
def segmentAt (t : RingTally) (n j : Nat) : Nat := (j + t.turned) % n

/-- The last mark of the vertex at the end of a segment. All are selected at first. -/
def mark (t : RingTally) (segment : Nat) : Bool :=
  ((t.marks.filter fun m => m.1 == segment).getLast?.map Prod.snd).getD true

def marking (t : RingTally) (segment : Nat) (selected : Bool) : RingTally :=
  { t with marks := t.marks ++ [(segment, selected)] }

def turning (t : RingTally) (i : Nat) : RingTally := { t with turned := t.turned + i }

/-- The vertices between the first and the last may be marked, and a closed path may start at
them. -/
def note (closed : Bool) (n : Nat) (t : RingTally) : RingEdit → RingTally
  | .select i selected =>
    if 0 < i ∧ i < n then t.marking (t.segmentAt n (i - 1)) selected else t
  | .start i => if closed = true ∧ 0 < i ∧ i < n then t.turning i else t

@[simp] theorem segmentAt_marking (t : RingTally) (k : Nat) (selected : Bool) (n j : Nat) :
    (t.marking k selected).segmentAt n j = t.segmentAt n j := rfl

theorem mark_marking (t : RingTally) (k : Nat) (selected : Bool) (segment : Nat) :
    (t.marking k selected).mark segment = if segment = k then selected else t.mark segment := by
  by_cases h : segment = k
  · simp [mark, marking, List.filter_append, h]
  · simp [mark, marking, List.filter_append, h, Ne.symm h]

theorem segmentAt_turning (t : RingTally) (n i j : Nat) :
    (t.turning i).segmentAt n j = t.segmentAt n ((j + i) % n) := by
  rw [turning, segmentAt, segmentAt, Nat.mod_add_mod, Nat.add_assoc, Nat.add_comm t.turned]

/-- Two places of a ring are ends of two segments. -/
theorem segmentAt_inj (t : RingTally) {n i j : Nat} (hi : i < n) (hj : j < n) :
    t.segmentAt n i = t.segmentAt n j ↔ i = j := by
  refine ⟨fun h => ?_, congrArg _⟩
  have hmod : i ≡ j [MOD n] := Nat.ModEq.add_right_cancel' t.turned h
  rwa [Nat.ModEq, Nat.mod_eq_of_lt hi, Nat.mod_eq_of_lt hj] at hmod

end RingTally

theorem Vertex.select_of_bound {v : Vertex α} (h : (v.isStart || v.isEnd) = true)
    (selected : Bool) : v.select selected = v :=
  if_pos h

theorem Vertex.select_of_inner {v : Vertex α} (h : (v.isStart || v.isEnd) = false)
    (selected : Bool) : v.select selected = { v with selected } :=
  if_neg (by simp [h])

theorem markEnd_getElem? (vs : List (Vertex α)) (j : Nat) :
    (markEnd vs)[j]? = vs[j]?.map fun v => { v with isEnd := j + 1 == vs.length } := by
  induction vs generalizing j with
  | nil => rfl
  | cons v vs ih =>
    cases j with
    | zero =>
      have hlast : vs.isEmpty = (0 + 1 == (v :: vs).length) := by
        cases vs <;> simp
      simp [markEnd, hlast]
    | succ j => simp [markEnd, ih]

theorem length_markEnd (vs : List (Vertex α)) : (markEnd vs).length = vs.length := by
  induction vs with
  | nil => rfl
  | cons v vs ih => exact congrArg (· + 1) ih

theorem turn_rotate (start chosen : Vertex α) {ring : List (Vertex α)} {i : Nat}
    (hi : i < ring.length) : turn start ring i chosen =
      { start with position := chosen.position } :: markEnd (ring.rotate i) := by
  rw [turn, ← List.rotate_eq_drop_append_take (Nat.le_of_lt hi)]
  dsimp only
  rw [if_neg]
  intro hnil
  rw [List.isEmpty_iff, List.rotate_eq_nil_iff] at hnil
  rw [hnil] at hi
  exact Nat.not_lt_zero i hi

variable [Scalar α]

theorem segmentVertices_getElem? (ss : List (Segment α)) (j : Nat) : (segmentVertices ss)[j]? =
    ss[j]?.map fun s => ⟨s.stop, s.length, false, j + 1 == ss.length, true⟩ := by
  induction ss generalizing j with
  | nil => rfl
  | cons s ss ih =>
    cases j with
    | zero =>
      have hlast : ss.isEmpty = (0 + 1 == (s :: ss).length) := by
        cases ss <;> simp
      simp [segmentVertices, hlast]
    | succ j => simp [segmentVertices, ih]

theorem length_segmentVertices (ss : List (Segment α)) :
    (segmentVertices ss).length = ss.length := by
  induction ss with
  | nil => rfl
  | cons s ss ih => exact congrArg (· + 1) ih

namespace Path

theorem vertices_eq {p : Path α} {s : Segment α} {ss : List (Segment α)}
    (hs : p.segments = s :: ss) :
    p.vertices = ⟨s.start, 0.0, true, false, true⟩ :: segmentVertices p.segments := by
  simp [vertices, start?, hs]

def ringVertex? (p : Path α) (t : RingTally) (j : Nat) : Option (Vertex α) :=
  p.segments[t.segmentAt p.segments.length j]?.map fun s =>
    ⟨s.stop, s.length, false, j + 1 == p.segments.length,
      t.mark (t.segmentAt p.segments.length j)⟩

/-- The vertices are those of the path after edits that came to `t`. -/
structure Ringed (p : Path α) (t : RingTally) (vs : List (Vertex α)) : Prop where
  length : vs.length = p.segments.length + 1
  start : ∃ q, vs[0]? = some ⟨q, 0.0, true, false, true⟩ ∧
    (p.closed = true → ∃ last, vs[p.segments.length]? = some last ∧ last.position = q)
  ring : ∀ j < p.segments.length, vs[j + 1]? = p.ringVertex? t j

theorem Chained.ringed {p : Path α} (h : p.Chained) : p.Ringed .zero p.vertices := by
  obtain ⟨s, ss, hs⟩ := List.exists_cons_of_ne_nil h.nonempty
  have hvertices := vertices_eq hs
  refine ⟨?_, ⟨s.start, ?_, ?_⟩, ?_⟩
  · rw [hvertices, List.length_cons, length_segmentVertices]
  · rw [hvertices]
    rfl
  · intro hclosed
    obtain ⟨last, hlast⟩ := Option.isSome_iff_exists.mp (List.getLast?_isSome.mpr h.nonempty)
    have hreturn := h.returns hclosed s last (by rw [hs]; rfl) hlast
    obtain ⟨n, hn⟩ : ∃ n, p.segments.length = n + 1 := ⟨ss.length, by rw [hs]; rfl⟩
    rw [List.getLast?_eq_getElem?, hn, Nat.add_sub_cancel] at hlast
    refine ⟨⟨last.stop, last.length, false, true, true⟩, ?_, hreturn⟩
    rw [hvertices, hn, List.getElem?_cons_succ, segmentVertices_getElem?, hlast]
    simp [hn]
  · intro j hj
    have hplace : RingTally.zero.segmentAt p.segments.length j = j := Nat.mod_eq_of_lt hj
    rw [hvertices, List.getElem?_cons_succ, segmentVertices_getElem?, ringVertex?, hplace]
    rfl

theorem Ringed.bounds {p : Path α} {t : RingTally} {vs : List (Vertex α)} (h : p.Ringed t vs)
    (hn : 0 < p.segments.length) {i : Nat} {v : Vertex α} (hv : vs[i]? = some v) :
    v.isStart = (i == 0) ∧ v.isEnd = (i == p.segments.length) := by
  cases i with
  | zero =>
    obtain ⟨q, hq, _⟩ := h.start
    cases hq.symm.trans hv
    exact ⟨rfl, (beq_false_of_ne (Nat.ne_of_lt hn)).symm⟩
  | succ j =>
    have hj : j < p.segments.length := by
      have hlt := (List.getElem?_eq_some_iff.mp hv).1
      rw [h.length] at hlt
      exact Nat.lt_of_succ_lt_succ hlt
    rw [h.ring j hj, ringVertex?] at hv
    obtain ⟨s, _, rfl⟩ := Option.map_eq_some_iff.mp hv
    exact ⟨rfl, rfl⟩

theorem Ringed.select {p : Path α} {t : RingTally} {vs : List (Vertex α)} (h : p.Ringed t vs)
    (hn : 0 < p.segments.length) (i : Nat) (selected : Bool) :
    p.Ringed (t.note p.closed p.segments.length (.select i selected)) (selectAt vs i selected) := by
  rw [RingTally.note, selectAt]
  split
  · rename_i hi
    obtain ⟨q, hq, hlast⟩ := h.start
    refine ⟨(List.length_modify ..).trans h.length, ⟨q, ?_, ?_⟩, ?_⟩
    · rwa [List.getElem?_modify_ne _ _ (Nat.ne_of_gt hi.1)]
    · rwa [List.getElem?_modify_ne _ _ (Nat.ne_of_lt hi.2)]
    · intro j hj
      rw [List.getElem?_modify, h.ring j hj, ringVertex?, ringVertex?, RingTally.segmentAt_marking,
        RingTally.mark_marking, Option.map_eq_map, Option.map_map]
      congr 1
      funext s
      by_cases hij : i = j + 1
      · subst hij
        have hinner : (j + 1 == p.segments.length) = false := beq_false_of_ne (Nat.ne_of_lt hi.2)
        rw [Function.comp_apply, if_pos rfl, Nat.add_sub_cancel, if_pos rfl,
          Vertex.select_of_inner]
        exact hinner
      · have hne : ¬ t.segmentAt p.segments.length j = t.segmentAt p.segments.length (i - 1) := by
          rw [t.segmentAt_inj hj (Nat.lt_of_le_of_lt (Nat.sub_le i 1) hi.2)]
          omega
        rw [Function.comp_apply, if_neg hij, if_neg hne]
  · rename_i hi
    have hsame : vs.modify i (·.select selected) = vs := by
      apply List.ext_getElem?
      intro k
      rw [List.getElem?_modify]
      cases hv : vs[k]? with
      | none => rfl
      | some v =>
        by_cases hik : i = k
        · subst hik
          have hlt := (List.getElem?_eq_some_iff.mp hv).1
          rw [h.length] at hlt
          obtain ⟨hstart, hend⟩ := h.bounds hn hv
          have hbounds : (v.isStart || v.isEnd) = true := by
            rw [hstart, hend, Bool.or_eq_true, beq_iff_eq, beq_iff_eq]
            omega
          simp [Vertex.select_of_bound hbounds]
        · simp [hik]
    rw [hsame]
    exact h

/-- A vertex is taken for the start exactly if the path is closed and the vertex lies between the
first and the last. -/
theorem Ringed.setStart_cases {p : Path α} {t : RingTally} {vs : List (Vertex α)}
    (h : p.Ringed t vs) (hn : 0 < p.segments.length) (i : Nat) :
    ((p.closed = true ∧ 0 < i ∧ i < p.segments.length) ∧ ∃ start ring chosen,
      vs = start :: ring ∧ vs[i]? = some chosen ∧
      setStart vs i p.closed =
        .ok ({ start with position := chosen.position } :: markEnd (ring.rotate i))) ∨
    (¬ (p.closed = true ∧ 0 < i ∧ i < p.segments.length) ∧
      ∃ e, setStart vs i p.closed = .error e) := by
  obtain ⟨start, ring, hvs⟩ := List.exists_cons_of_length_eq_add_one h.length
  have hring : ring.length = p.segments.length := by
    have hlength := h.length
    rw [hvs] at hlength
    exact Nat.succ.inj hlength
  cases hclosed : p.closed with
  | false => exact .inr ⟨nofun, .openPath, rfl⟩
  | true =>
    cases hchosen : vs[i]? with
    | none =>
      have hle := List.getElem?_eq_none_iff.mp hchosen
      rw [h.length] at hle
      refine .inr ⟨fun hi => by omega, .noSuchVertex i, ?_⟩
      rw [hvs] at hchosen ⊢
      simp [setStart, hchosen]
    | some chosen =>
      obtain ⟨hstart, hend⟩ := h.bounds hn hchosen
      have hlt := (List.getElem?_eq_some_iff.mp hchosen).1
      rw [h.length] at hlt
      by_cases hi : 0 < i ∧ i < p.segments.length
      · have hinner : (chosen.isStart || chosen.isEnd) = false := by
          rw [hstart, hend, Bool.or_eq_false_iff, beq_eq_false_iff_ne, beq_eq_false_iff_ne]
          omega
        refine .inl ⟨⟨rfl, hi⟩, start, ring, chosen, hvs, rfl, ?_⟩
        rw [← turn_rotate start chosen (hring.symm ▸ hi.2)]
        rw [hvs] at hchosen ⊢
        simp [setStart, hchosen, hinner]
      · have hbounds : (chosen.isStart || chosen.isEnd) = true := by
          rw [hstart, hend, Bool.or_eq_true, beq_iff_eq, beq_iff_eq]
          omega
        refine .inr ⟨fun h => hi h.2, .boundsPath i, ?_⟩
        rw [hvs] at hchosen ⊢
        simp [setStart, hchosen, hbounds]

/-- Turning the ring to a vertex makes it the last, and its position that of the start. -/
theorem Ringed.turn {p : Path α} {t : RingTally} {start chosen : Vertex α}
    {ring : List (Vertex α)} (h : p.Ringed t (start :: ring)) {i : Nat} (hi : 0 < i)
    (hlt : i < p.segments.length) (hchosen : (start :: ring)[i]? = some chosen) :
    p.Ringed (t.turning i)
      ({ start with position := chosen.position } :: markEnd (ring.rotate i)) := by
  have hlength : ring.length = p.segments.length := Nat.succ.inj h.length
  have hrotate (j : Nat) (hj : j < p.segments.length) : (markEnd (ring.rotate i))[j]? =
      (p.ringVertex? t ((j + i) % p.segments.length)).map fun v =>
        { v with isEnd := j + 1 == p.segments.length } := by
    rw [markEnd_getElem?, List.length_rotate, List.getElem?_rotate (hlength.symm ▸ hj), hlength,
      ← h.ring _ (Nat.mod_lt _ (Nat.zero_lt_of_lt hj)), List.getElem?_cons_succ]
  obtain ⟨q, hq, _⟩ := h.start
  cases hq
  refine ⟨?_, ⟨chosen.position, rfl, ?_⟩, ?_⟩
  · rw [List.length_cons, length_markEnd, List.length_rotate, hlength]
  · intro _
    obtain ⟨k, rfl⟩ : ∃ k, i = k + 1 := ⟨i - 1, by omega⟩
    obtain ⟨m, hm⟩ : ∃ m, p.segments.length = m + 1 := ⟨p.segments.length - 1, by omega⟩
    have hwrap : (m + (k + 1)) % p.segments.length = k := by
      rw [hm, ← Nat.add_assoc, Nat.add_right_comm, Nat.add_mod_left, Nat.mod_eq_of_lt]
      omega
    have hlast := hrotate m (by omega)
    rw [hwrap, ← h.ring k (by omega), hchosen] at hlast
    refine ⟨{ chosen with isEnd := m + 1 == p.segments.length }, ?_, rfl⟩
    conv_lhs => rw [hm]
    exact hlast
  · intro j hj
    rw [List.getElem?_cons_succ, hrotate j hj, ringVertex?, ringVertex?, Option.map_map,
      RingTally.segmentAt_turning]
    rfl

theorem Ringed.apply {p : Path α} {t : RingTally} {vs : List (Vertex α)} (h : p.Ringed t vs)
    (hn : 0 < p.segments.length) (e : RingEdit) :
    p.Ringed (t.note p.closed p.segments.length e) (e.apply p.closed vs) := by
  cases e with
  | select i selected => exact h.select hn i selected
  | start i =>
    rw [RingTally.note, RingEdit.apply]
    rcases h.setStart_cases hn i with ⟨hi, start, ring, chosen, rfl, hchosen, hset⟩ | ⟨hi, e, hset⟩
    · rw [if_pos hi, hset]
      exact h.turn hi.2.1 hi.2.2 hchosen
    · rw [if_neg hi, hset]
      exact h

def edited (p : Path α) (es : List RingEdit) : List (Vertex α) :=
  es.foldl (RingEdit.apply p.closed) p.vertices

def tally (p : Path α) (es : List RingEdit) : RingTally :=
  es.foldl (RingTally.note p.closed p.segments.length) .zero

theorem Chained.edited {p : Path α} (h : p.Chained) (es : List RingEdit) :
    p.Ringed (p.tally es) (p.edited es) := by
  have hn : 0 < p.segments.length := List.length_pos_iff.mpr h.nonempty
  have hrun (t : RingTally) (vs : List (Vertex α)) (hvs : p.Ringed t vs) :
      p.Ringed (es.foldl (RingTally.note p.closed p.segments.length) t)
        (es.foldl (RingEdit.apply p.closed) vs) := by
    induction es generalizing t vs with
    | nil => exact hvs
    | cons e es ih => exact ih _ _ (hvs.apply hn e)
  exact hrun _ _ h.ringed

/-- Marks and bounds aside, the ring is the one it was, turned. -/
theorem Ringed.rotated {p : Path α} {t : RingTally} {vs : List (Vertex α)} (h : p.Ringed t vs)
    (hne : p.segments ≠ []) : vs.tail.map (fun v => (v.position, v.arcLength)) =
      (p.vertices.tail.map fun v => (v.position, v.arcLength)).rotate t.turned := by
  obtain ⟨s, ss, hs⟩ := List.exists_cons_of_ne_nil hne
  have htail : p.vertices.tail = segmentVertices p.segments := congrArg List.tail (vertices_eq hs)
  have hlength : vs.tail.length = p.segments.length := by
    rw [List.length_tail, h.length, Nat.add_sub_cancel]
  rw [htail]
  apply List.ext_getElem?
  intro j
  by_cases hj : j < p.segments.length
  · have hrotate : j < ((segmentVertices p.segments).map fun v =>
        (v.position, v.arcLength)).length := by
      rwa [List.length_map, length_segmentVertices]
    rw [List.getElem?_rotate hrotate, List.getElem?_map, List.getElem?_map, List.getElem?_tail,
      h.ring j hj, ringVertex?, segmentVertices_getElem?, List.length_map,
      length_segmentVertices, Option.map_map, Option.map_map]
    rfl
  · rw [List.getElem?_eq_none, List.getElem?_eq_none]
    · rw [List.length_rotate, List.length_map, length_segmentVertices]
      exact Nat.le_of_not_lt hj
    · rw [List.length_map, hlength]
      exact Nat.le_of_not_lt hj

end Path

end edits

/-- Whatever is marked and whichever start is asked for, the vertices of a path stay a start and a
ring of segment ends that has been turned. The start alone begins the path and the last vertex alone
ends it, both at one point if the path is closed; every vertex keeps its last accepted mark, and what
is refused changes nothing. -/
theorem edited_ring {α : Type} [Scalar α] {text : String} {ps : List (Path α)}
    (read : PathData.read text = .ok ps) {p : Path α} (mem : p ∈ ps) (es : List RingEdit) :
    let n := p.segments.length
    let vs := p.edited es
    let t := p.tally es
    0 < n ∧ vs.length = n + 1 ∧
    (∀ i v, vs[i]? = some v → (v.isStart = true ↔ i = 0) ∧ (v.isEnd = true ↔ i = n)) ∧
    (∃ start, vs.head? = some start ∧ start.arcLength = 0.0 ∧
      (p.closed = true → ∃ last, vs.getLast? = some last ∧ last.position = start.position)) ∧
    vs.tail.map (fun v => (v.position, v.arcLength)) =
      (p.vertices.tail.map fun v => (v.position, v.arcLength)).rotate t.turned ∧
    (∀ j < n, ∃ v, vs[j + 1]? = some v ∧ v.selected = t.mark ((j + t.turned) % n)) ∧
    ∀ i, ((∃ turned, setStart vs i p.closed = .ok turned) ↔ p.closed = true ∧ 0 < i ∧ i < n) ∧
      ∀ e, setStart vs i p.closed = .error e → p.edited (es ++ [.start i]) = vs := by
  intro n vs t
  have chained := PathData.read_chained read p mem
  have hn : 0 < n := List.length_pos_iff.mpr chained.nonempty
  have ringed : p.Ringed t vs := chained.edited es
  refine ⟨hn, ringed.length, ?_, ?_, ringed.rotated chained.nonempty, ?_, ?_⟩
  · intro i v hv
    obtain ⟨hstart, hend⟩ := ringed.bounds hn hv
    rw [hstart, hend, beq_iff_eq, beq_iff_eq]
    exact ⟨Iff.rfl, Iff.rfl⟩
  · obtain ⟨q, hq, hlast⟩ := ringed.start
    refine ⟨_, List.head?_eq_getElem?.trans hq, rfl, ?_⟩
    intro hclosed
    obtain ⟨last, hget, hposition⟩ := hlast hclosed
    refine ⟨last, ?_, hposition⟩
    rw [List.getLast?_eq_getElem?, ringed.length, Nat.add_sub_cancel]
    exact hget
  · intro j hj
    have hlt : (j + t.turned) % n < n := Nat.mod_lt _ hn
    obtain ⟨s, hs⟩ : ∃ s, p.segments[(j + t.turned) % n]? = some s :=
      ⟨_, List.getElem?_eq_getElem hlt⟩
    refine ⟨⟨s.stop, s.length, false, j + 1 == n, t.mark ((j + t.turned) % n)⟩, ?_, rfl⟩
    exact (ringed.ring j hj).trans (congrArg (Option.map _) hs)
  · intro i
    constructor
    · rcases ringed.setStart_cases hn i with ⟨hi, start, ring, chosen, _, _, hset⟩ | ⟨hi, e, hset⟩
      · exact ⟨fun _ => hi, fun _ => ⟨_, hset⟩⟩
      · refine ⟨fun ⟨turned, hok⟩ => ?_, fun h => absurd h hi⟩
        rw [hset] at hok
        cases hok
    · intro e he
      rw [Path.edited, List.foldl_append]
      change RingEdit.apply p.closed vs (.start i) = vs
      rw [RingEdit.apply, he]

section square

/-- Edits of a ring of four. Two marks of one vertex, one of another and two turns are accepted. -/
def squareEdits : List RingEdit :=
  [.select 2 false, .start 2, .select 1 false, .select 1 true, .start 9, .start 3, .select 4 false,
    .start 0]

theorem edited_ring_square : ∃ p : Path Float, PathData.read "M0 0H10V10H0Z" = .ok [p] ∧
    p.closed = true ∧
    (p.edited squareEdits).map Vertex.selected = [true, false, true, true, true] ∧
    (p.edited squareEdits).map Vertex.position =
      [⟨10, 0⟩, ⟨10, 10⟩, ⟨0, 10⟩, ⟨0, 0⟩, ⟨10, 0⟩] ∧
    (p.edited squareEdits).tail.map (fun v => (v.position, v.arcLength)) =
      (p.vertices.tail.map fun v => (v.position, v.arcLength)).rotate 5 := by
  have hmarks : (PathData.read "M0 0H10V10H0Z").map (List.map fun p : Path Float =>
      (p.closed, p.segments.length, (p.edited squareEdits).map Vertex.selected)) =
      .ok [(true, 4, [true, false, true, true, true])] := by
    decide +kernel
  have hpositions : (PathData.read "M0 0H10V10H0Z").map (List.map fun p : Path Float =>
      (p.edited squareEdits).map Vertex.position) =
      .ok [[⟨10, 0⟩, ⟨10, 10⟩, ⟨0, 10⟩, ⟨0, 0⟩, ⟨10, 0⟩]] := by
    decide +kernel
  cases hread : (PathData.read "M0 0H10V10H0Z" : Except _ (List (Path Float))) with
  | error why =>
    rw [hread] at hmarks
    cases hmarks
  | ok ps =>
    rw [hread] at hmarks hpositions
    obtain ⟨p, rfl⟩ : ∃ p, ps = [p] := by
      have hlength := congrArg List.length (Except.ok.inj hmarks)
      rw [List.length_map] at hlength
      exact List.length_eq_one_iff.mp hlength
    obtain ⟨hclosed, hsegments, hselected⟩ := Prod.mk.inj (List.head_eq_of_cons_eq
      (Except.ok.inj hmarks)) |>.imp_right Prod.mk.inj
    have htally : (p.tally squareEdits).turned = 5 := by
      rw [Path.tally, hclosed, hsegments]
      decide
    obtain ⟨_, _, _, _, hrotated, _⟩ :=
      edited_ring hread (List.mem_singleton_self p) squareEdits
    rw [htally] at hrotated
    exact ⟨p, rfl, hclosed, hselected, List.head_eq_of_cons_eq (Except.ok.inj hpositions), hrotated⟩

end square

end Reaming
