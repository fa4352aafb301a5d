import Reaming.Proofs.Toolpath.Turning

namespace Reaming

variable {α : Type}

def Vertex.bounds (v : Vertex α) : Bool × Bool := (v.isStart, v.isEnd)

def ringBounds (n : Nat) : List (Bool × Bool) :=
  List.replicate n (false, false) ++ [(false, true)]

/-- The first vertex starts the path and the last ends it, with `n` others between. -/
def Bordered (n : Nat) (vs : List (Vertex α)) : Prop :=
  vs.map Vertex.bounds = (true, false) :: ringBounds n

theorem Vertex.bounds_select (v : Vertex α) (selected : Bool) :
    (v.select selected).bounds = v.bounds := by
  unfold select
  split <;> rfl

theorem map_bounds_selectAt (vs : List (Vertex α)) (i : Nat) (selected : Bool) :
    (selectAt vs i selected).map Vertex.bounds = vs.map Vertex.bounds := by
  apply List.ext_getElem?
  intro j
  rw [List.getElem?_map, selectAt, List.getElem?_modify, List.getElem?_map, Option.map_eq_map,
    Option.map_map]
  congr 1
  funext v
  rw [Function.comp_apply]
  split
  · exact v.bounds_select selected
  · rfl

theorem map_bounds_markEnd {vs : List (Vertex α)} {n : Nat}
    (inner : ∀ v ∈ vs, v.isStart = false) (length : vs.length = n + 1) :
    (markEnd vs).map Vertex.bounds = ringBounds n := by
  induction vs generalizing n with
  | nil => cases length
  | cons v vs ih =>
    obtain ⟨hv, hvs⟩ := List.forall_mem_cons.mp inner
    have hbounds : ({ v with isEnd := vs.isEmpty } : Vertex α).bounds = (false, vs.isEmpty) :=
      congrArg (·, vs.isEmpty) hv
    rw [markEnd, List.map_cons, hbounds]
    cases n with
    | zero =>
      rw [List.length_eq_zero_iff.mp (Nat.succ.inj length)]
      rfl
    | succ n =>
      have hrest := ih hvs (Nat.succ.inj length)
      have hne : vs.isEmpty = false := by
        cases vs with
        | nil => cases length
        | cons => rfl
      rw [hrest, hne]
      rfl

theorem markEnd_segmentVertices [Scalar α] (ss : List (Segment α)) :
    markEnd (segmentVertices ss) = segmentVertices ss := by
  apply List.ext_getElem?
  intro j
  rw [markEnd_getElem?, segmentVertices_getElem?, length_segmentVertices, Option.map_map]
  rfl

theorem isStart_segmentVertices [Scalar α] (ss : List (Segment α)) :
    ∀ v ∈ segmentVertices ss, v.isStart = false := by
  induction ss with
  | nil => exact nofun
  | cons s ss ih => exact List.forall_mem_cons.mpr ⟨rfl, ih⟩

theorem Path.bordered_vertices [Scalar α] {p : Path α} {n : Nat}
    (length : p.segments.length = n + 1) : Bordered n p.vertices := by
  obtain ⟨s, ss, hs⟩ := List.exists_cons_of_length_eq_add_one length
  rw [Bordered, vertices_eq hs, List.map_cons, ← markEnd_segmentVertices, map_bounds_markEnd
    (isStart_segmentVertices _) ((length_segmentVertices _).trans length)]
  rfl

namespace Bordered

variable {n : Nat} {vs : List (Vertex α)}

theorem select (h : Bordered n vs) (i : Nat) (selected : Bool) :
    Bordered n (selectAt vs i selected) :=
  (map_bounds_selectAt vs i selected).trans h

theorem turn {start : Vertex α} {ring : List (Vertex α)} (h : Bordered n (start :: ring)) (i : Nat)
    (chosen : Vertex α) : Bordered n (turn start ring i chosen) := by
  obtain ⟨hstart, hring⟩ := List.cons.inj h
  have hinner : ∀ v ∈ ring, v.isStart = false := by
    have hall : ∀ b ∈ ringBounds n, b.1 = false := by
      simp only [ringBounds, List.forall_mem_append, List.forall_mem_singleton, and_true]
      exact fun b hb => congrArg Prod.fst (List.eq_of_mem_replicate hb)
    rw [← hring, List.forall_mem_map] at hall
    exact hall
  have hlength : ring.length = n + 1 := by
    have hlength := congrArg List.length hring
    rwa [List.length_map, ringBounds, List.length_append, List.length_replicate] at hlength
  have hturned : (ring.drop i ++ ring.take i).length = n + 1 := by
    rw [List.length_append, List.length_drop, List.length_take, hlength]
    omega
  have hstarts : ∀ v ∈ ring.drop i ++ ring.take i, v.isStart = false := by
    rw [List.forall_mem_append]
    exact ⟨fun v hv => hinner v (List.mem_of_mem_drop hv),
      fun v hv => hinner v (List.mem_of_mem_take hv)⟩
  have hsome : ¬ (ring.drop i ++ ring.take i).isEmpty = true := by
    rw [List.isEmpty_iff_length_eq_zero, hturned]
    exact Nat.succ_ne_zero n
  rw [Reaming.turn, if_neg hsome]
  exact congrArg₂ List.cons hstart (map_bounds_markEnd hstarts hturned)

theorem setStart (h : Bordered n vs) {i : Nat} {closed : Bool} {ws : List (Vertex α)}
    (hset : setStart vs i closed = .ok ws) : Bordered n ws := by
  unfold Reaming.setStart at hset
  split at hset
  · cases hset
  · split at hset
    · split at hset
      · cases hset
      · cases hset
        exact h.turn i _
    · cases hset

/-- Every edit leaves the bounds of a path where they are. -/
theorem apply (h : Bordered n vs) (closed : Bool) (e : RingEdit) :
    Bordered n (e.apply closed vs) := by
  cases e with
  | select i selected => exact h.select i selected
  | start i =>
    rw [RingEdit.apply]
    split
    · rename_i ws hset
      exact h.setStart hset
    · exact h

theorem foldl_apply (h : Bordered n vs) (closed : Bool) (es : List RingEdit) :
    Bordered n (es.foldl (RingEdit.apply closed) vs) := by
  induction es generalizing vs with
  | nil => exact h
  | cons e es ih => exact ih (h.apply closed e)

theorem exists_ends (h : Bordered n vs) : ∃ start inner last, vs = start :: (inner ++ [last]) ∧
    inner.length = n ∧ start.bounds = (true, false) ∧ (∀ v ∈ inner, v.bounds = (false, false)) ∧
      last.bounds = (false, true) := by
  obtain ⟨start, ring, rfl, hstart, hring⟩ := List.map_eq_cons_iff.mp h
  obtain ⟨inner, ends, rfl, hinner, hends⟩ := List.map_eq_append_iff.mp hring
  obtain ⟨last, rfl, hlast⟩ := List.map_eq_singleton_iff.mp hends
  have hlength : inner.length = n := by
    rw [← inner.length_map Vertex.bounds, hinner, List.length_replicate]
  refine ⟨start, inner, last, rfl, hlength, hstart, ?_, hlast⟩
  rw [← hlength, List.map_eq_replicate_iff] at hinner
  exact hinner

theorem exists_last (h : Bordered n vs) : ∃ last, vs[n + 1]? = some last ∧ last.isEnd = true := by
  obtain ⟨start, inner, last, rfl, rfl, _, _, hlast⟩ := h.exists_ends
  refine ⟨last, ?_, congrArg Prod.snd hlast⟩
  rw [List.getElem?_cons_succ, List.getElem?_concat_length]

end Bordered

theorem Path.bordered_edited [Scalar α] {p : Path α} {n : Nat}
    (length : p.segments.length = n + 1) (es : List RingEdit) : Bordered n (p.edited es) :=
  (p.bordered_vertices length).foldl_apply p.closed es

end Reaming
