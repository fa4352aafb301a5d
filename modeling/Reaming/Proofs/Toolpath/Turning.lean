import Reaming.Proofs.Toolpath.Ring

namespace Reaming

variable {α : Type}

theorem RingTally.segmentAt_congr {t t' : RingTally} {n : Nat}
    (h : t.turned ≡ t'.turned [MOD n]) (j : Nat) : t.segmentAt n j = t'.segmentAt n j :=
  Nat.ModEq.add_left j h

section marks

/-- The vertices with marks as given on all but the first and the last. -/
def markAll (vs : List (Vertex α)) (marks : Nat → Bool) : List (Vertex α) :=
  vs.mapIdx fun i v => v.select (marks i)

theorem getElem?_selectUpTo (vs : List (Vertex α)) (marks : Nat → Bool) (n j : Nat) :
    ((List.range n).foldl (fun vs i => selectAt vs i (marks i)) vs)[j]? =
      vs[j]?.map fun v => if j < n then v.select (marks j) else v := by
  induction n with
  | zero => simp
  | succ n ih =>
    rw [List.range_succ, List.foldl_append, List.foldl_cons, List.foldl_nil, selectAt,
      List.getElem?_modify, ih, Option.map_eq_map, Option.map_map]
    congr 1
    funext v
    rcases Nat.lt_trichotomy j n with hj | rfl | hj
    · simp [hj, Nat.lt_succ_of_lt hj, Nat.ne_of_gt hj]
    · simp
    · simp [Nat.not_lt_of_gt hj, Nat.not_lt.mpr hj, Nat.ne_of_lt hj]

/-- Marks of any kind come of marking one vertex after another. -/
theorem foldl_selectAt (vs : List (Vertex α)) (marks : Nat → Bool) :
    (List.range vs.length).foldl (fun vs i => selectAt vs i (marks i)) vs = markAll vs marks := by
  apply List.ext_getElem?
  intro j
  rw [getElem?_selectUpTo, markAll, List.getElem?_mapIdx]
  cases hv : vs[j]? with
  | none => rfl
  | some v => simp [(List.getElem?_eq_some_iff.mp hv).1]

end marks

variable [Scalar α]

namespace Path

theorem exists_edited_markAll (p : Path α) (marks : Nat → Bool) :
    ∃ es, p.edited es = markAll p.vertices marks := by
  refine ⟨(List.range p.vertices.length).map fun i => .select i (marks i), ?_⟩
  rw [edited, List.foldl_map, ← foldl_selectAt]
  rfl

theorem edited_append (p : Path α) (es fs : List RingEdit) :
    p.edited (es ++ fs) = fs.foldl (RingEdit.apply p.closed) (p.edited es) :=
  List.foldl_append

section ringed

variable {p : Path α} (closed : p.closed = true) {t t' : RingTally} {vs ws : List (Vertex α)}
include closed

/-- How far a closed path has been turned and what has been marked settle its vertices: the start
stands where the last vertex does. -/
theorem Ringed.unique (h : p.Ringed t vs) (h' : p.Ringed t' ws) (hn : 0 < p.segments.length)
    (turned : t.turned ≡ t'.turned [MOD p.segments.length]) (marks : t.marks = t'.marks) :
    vs = ws := by
  have hring (j : Nat) (hj : j < p.segments.length) : vs[j + 1]? = ws[j + 1]? := by
    have hmark : t.mark = t'.mark := by
      funext segment
      rw [RingTally.mark, RingTally.mark, marks]
    rw [h.ring j hj, h'.ring j hj, ringVertex?, ringVertex?, RingTally.segmentAt_congr turned,
      hmark]
  obtain ⟨q, hq, hlast⟩ := h.start
  obtain ⟨q', hq', hlast'⟩ := h'.start
  have hstart : q = q' := by
    obtain ⟨last, hget, rfl⟩ := hlast closed
    obtain ⟨last', hget', rfl⟩ := hlast' closed
    obtain ⟨m, hm⟩ : ∃ m, p.segments.length = m + 1 := ⟨p.segments.length - 1, by omega⟩
    have hsame := hring m (by omega)
    rw [← hm, hget, hget'] at hsame
    rw [Option.some.inj hsame]
  apply List.ext_getElem?
  rintro (_ | j)
  · rw [hq, hq', hstart]
  · by_cases hj : j < p.segments.length
    · exact hring j hj
    · rw [List.getElem?_eq_none, List.getElem?_eq_none]
      · rw [h'.length]
        omega
      · rw [h.length]
        omega

theorem Ringed.exists_setStart (h : p.Ringed t vs) {i : Nat} (hi : 0 < i)
    (hlt : i < p.segments.length) :
    ∃ ws, setStart vs i p.closed = .ok ws ∧ p.Ringed (t.turning i) ws := by
  rcases h.setStart_cases (Nat.zero_lt_of_lt hlt) i with
    ⟨_, start, ring, chosen, rfl, hchosen, hset⟩ | ⟨hout, _⟩
  · exact ⟨_, hset, h.turn hi hlt hchosen⟩
  · exact absurd ⟨closed, hi, hlt⟩ hout

/-- Turns of a ring add up, and turns that add up to a round undo each other. -/
theorem Ringed.setStart_add (h : p.Ringed t vs) {i j : Nat} (hi : 0 < i)
    (hin : i < p.segments.length) (hj : 0 < j) (hjn : j < p.segments.length) :
    ∃ ws us, setStart vs i p.closed = .ok ws ∧ setStart ws j p.closed = .ok us ∧
      (i + j ≠ p.segments.length →
        setStart vs ((i + j) % p.segments.length) p.closed = .ok us) ∧
      (i + j = p.segments.length → us = vs) := by
  have hn := Nat.zero_lt_of_lt hin
  obtain ⟨ws, hws, first⟩ := h.exists_setStart closed hi hin
  obtain ⟨us, hus, second⟩ := first.exists_setStart closed hj hjn
  have hturned : ((t.turning i).turning j).turned = t.turned + (i + j) := Nat.add_assoc ..
  refine ⟨ws, us, hws, hus, fun hne => ?_, fun heq => ?_⟩
  · have hpos : 0 < (i + j) % p.segments.length := by
      apply Nat.pos_of_ne_zero
      intro hzero
      exact hne (Nat.eq_of_dvd_of_lt_two_mul (by omega) (Nat.dvd_of_mod_eq_zero hzero) (by omega))
    obtain ⟨us', hus', once⟩ := h.exists_setStart closed hpos (Nat.mod_lt _ hn)
    rw [hus', second.unique closed once hn ?_ rfl]
    rw [hturned]
    exact (Nat.mod_modEq _ _).symm.add_left _
  · apply second.unique closed h hn ?_ rfl
    rw [hturned, heq]
    exact Nat.add_modulus_modEq_iff.mpr rfl

end ringed

end Path

/-- Choosing a start among the vertices of a closed path is a turn of its ring: two choices in turn
are one choice at the sum of their places, round the ring, and come back to the very same vertices
where the sum is the whole round. The vertices between the first and the last may be marked in any
way and edited before. -/
theorem setStart_setStart {text : String} {ps : List (Path α)} (read : PathData.read text = .ok ps)
    {p : Path α} (mem : p ∈ ps) (closed : p.closed = true) (marks : Nat → Bool)
    (es : List RingEdit) (i j : Nat) (hi : 0 < i) (hin : i < p.segments.length) (hj : 0 < j)
    (hjn : j < p.segments.length) :
    let n := p.segments.length
    let vs := es.foldl (RingEdit.apply p.closed) (markAll p.vertices marks)
    ∃ ws us, setStart vs i p.closed = .ok ws ∧ setStart ws j p.closed = .ok us ∧
      (i + j ≠ n → setStart vs ((i + j) % n) p.closed = .ok us) ∧ (i + j = n → us = vs) := by
  intro n vs
  obtain ⟨fs, hfs⟩ := p.exists_edited_markAll marks
  have ringed := (PathData.read_chained read p mem).edited (fs ++ es)
  rw [p.edited_append, hfs] at ringed
  exact ringed.setStart_add closed hi hin hj hjn

section square

/-- A ring of four with one vertex left out: to its third place and two on is to its first, and one
on is back to where it was. -/
theorem setStart_setStart_square : ∃ p : Path Float,
    PathData.read "M0 0H10V10H0Z" = .ok [p] ∧ p.closed = true ∧
    let vs := markAll p.vertices (· != 2)
    vs.map Vertex.selected = [true, true, false, true, true] ∧
    (∃ ws us, setStart vs 3 true = .ok ws ∧ setStart ws 2 true = .ok us ∧
      setStart vs 1 true = .ok us) ∧
    ∃ ws, setStart vs 3 true = .ok ws ∧ setStart ws 1 true = .ok vs := by
  have hview : (PathData.read "M0 0H10V10H0Z").map (List.map fun p : Path Float =>
      (p.closed, p.segments.length, (markAll p.vertices (· != 2)).map Vertex.selected)) =
      .ok [(true, 4, [true, true, false, true, true])] := by
    decide +kernel
  obtain ⟨p, hread, hp⟩ := exists_read_singleton hview
  obtain ⟨hclosed, hsegments, hselected⟩ := Prod.mk.inj hp |>.imp_right Prod.mk.inj
  have mem := List.mem_singleton_self p
  have hturn := setStart_setStart hread mem hclosed (· != 2) []
  rw [hsegments, hclosed] at hturn
  obtain ⟨ws, us, hws, hus, honce, _⟩ :=
    hturn 3 2 (by decide) (by decide) (by decide) (by decide)
  obtain ⟨ws', us', hws', hus', _, hround⟩ :=
    hturn 3 1 (by decide) (by decide) (by decide) (by decide)
  rw [hround rfl] at hus'
  exact ⟨p, hread, hclosed, hselected, ⟨ws, us, hws, hus, honce (by decide)⟩, ws', hws', hus'⟩

end square

end Reaming
