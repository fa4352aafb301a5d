import Reaming.Proofs.Drawing.LoadedArea
import Reaming.Proofs.Geometry.Corner
import Reaming.Proofs.PathData.Chained

namespace Reaming

variable {α : Type}

def Curve.degree : Curve α → Nat
  | .line .. => 1
  | .quadratic .. => 2
  | .cubic .. => 3

@[simp] theorem Curve.degree_map (f : Point α → Point α) (c : Curve α) :
    (c.map f).degree = c.degree := by
  cases c <;> rfl

@[simp] theorem Curve.isLine_map (f : Point α → Point α) (c : Curve α) :
    (c.map f).isLine = c.isLine := by
  cases c <;> rfl

/-- Moving points keeps those together that are one. -/
theorem Path.Chained.map (f : Point α → Point α) {p : Path α} (h : p.Chained) :
    (p.map f).Chained := by
  refine ⟨fun hnil => h.nonempty (List.map_eq_nil_iff.mp hnil), ?_, ?_⟩
  · refine List.isChain_map_of_isChain (Segment.map f) ?_ h.linked
    intro s t hst
    rw [Segment.stop_map, Segment.start_map, hst]
  · intro hc first last hfirst hlast
    obtain ⟨s, hs, rfl⟩ := Option.map_eq_some_iff.mp (List.head?_map.symm.trans hfirst)
    obtain ⟨t, ht, rfl⟩ := Option.map_eq_some_iff.mp (List.getLast?_map.symm.trans hlast)
    rw [Segment.stop_map, Segment.start_map, h.returns hc s t hs ht]

variable [Scalar α]

/-- How a document stores a path that was read: scaled and moved to the origin, and still a chain of
segments of the same kinds. -/
structure Path.Stored (k : α) (p q : Path α) : Prop where
  placed : q = (p.scale k).toOrigin
  chained : q.Chained
  closed : q.closed = p.closed
  degrees : q.segments.map (·.curve.degree) = p.segments.map (·.curve.degree)

theorem Path.Chained.stored {p : Path α} (h : p.Chained) (k : α) :
    Stored k p (p.scale k).toOrigin := by
  refine ⟨rfl, (h.map _).map _, rfl, ?_⟩
  refine (List.map_map.trans List.map_map).trans (List.map_congr_left fun s _ => ?_)
  exact ((s.curve.map _).degree_map _).trans (s.curve.degree_map _)

namespace Document

/-- Loads one drawing after the other, and tells how each load ended. -/
def loads (d : Document α) : List (AreaPolicy × Markup.Bytes) → Document α × List (Option LoadError)
  | [] => (d, [])
  | c :: cs =>
    let (d, outcome) := d.load c.1 c.2
    let (d, outcomes) := d.loads cs
    (d, outcome :: outcomes)

/-- A load takes nothing from the document. Failing, it leaves it as it is. -/
theorem load_anew (d : Document α) (policy : AreaPolicy) (text : Markup.Bytes) :
    ((empty.load policy text : Document α × _).2 = none ∧
      d.load policy text = empty.load policy text) ∨
    ∃ e, (empty.load policy text : Document α × _).2 = some e ∧
      d.load policy text = (d, some e) := by
  simp only [load]
  cases (ofBytes policy text : Except _ (Document α)) with
  | error e => exact .inr ⟨e, rfl, rfl⟩
  | ok loaded => exact .inl ⟨rfl, rfl⟩

theorem loads_outcomes (d : Document α) (calls : List (AreaPolicy × Markup.Bytes)) :
    (d.loads calls).2 = calls.map fun c => (empty.load c.1 c.2 : Document α × _).2 := by
  induction calls generalizing d with
  | nil => rfl
  | cons c cs ih =>
    have houtcome : (d.load c.1 c.2).2 = (empty.load c.1 c.2 : Document α × _).2 := by
      rcases d.load_anew c.1 c.2 with ⟨_, hload⟩ | ⟨e, he, hload⟩
      · rw [hload]
      · rw [hload, he]
    rw [List.map_cons, ← houtcome, ← ih (d.load c.1 c.2).1]
    rfl

/-- Of several loads the last that succeeds decides. -/
theorem loads_cases (d : Document α) (calls : List (AreaPolicy × Markup.Bytes)) :
    ((∀ c ∈ calls, (empty.load c.1 c.2 : Document α × _).2 ≠ none) ∧ (d.loads calls).1 = d) ∨
    ∃ before c after, calls = before ++ c :: after ∧
      (∀ c' ∈ after, (empty.load c'.1 c'.2 : Document α × _).2 ≠ none) ∧
      empty.load c.1 c.2 = ((d.loads calls).1, none) := by
  induction calls generalizing d with
  | nil => exact .inl ⟨nofun, rfl⟩
  | cons c cs ih =>
    have hstep : (d.loads (c :: cs)).1 = ((d.load c.1 c.2).1.loads cs).1 := rfl
    rw [hstep]
    rcases ih (d.load c.1 c.2).1 with ⟨hcs, hdoc⟩ | ⟨before, c', after, rfl, hafter, hdoc⟩
    · rw [hdoc]
      rcases d.load_anew c.1 c.2 with ⟨hc, hload⟩ | ⟨e, he, hload⟩
      · rw [hload]
        exact .inr ⟨[], c, cs, rfl, hcs, Prod.ext rfl hc⟩
      · rw [hload]
        refine .inl ⟨List.forall_mem_cons.mpr ⟨?_, hcs⟩, rfl⟩
        rw [he]
        exact Option.some_ne_none e
    · exact .inr ⟨c :: before, c', after, rfl, hafter, hdoc⟩

end Document

/-- A document always holds what the last successful load alone makes of its drawing: every path
that was read, scaled and moved, and still in one piece. Paths of lines come to rest at the origin
exactly although doubles are rounded, and all paths do in exact arithmetic. -/
theorem loads_last {K : Type} [Field K] [LinearOrder K] [IsStrictOrderedRing K] [Root K] :
    (∀ {α : Type} [Scalar α] (calls : List (AreaPolicy × Markup.Bytes)),
      let run : Document α × List (Option LoadError) := Document.empty.loads calls
      run.2 = calls.map (fun c => (Document.empty.load c.1 c.2 : Document α × _).2) ∧
      ((∀ o ∈ run.2, o ≠ none) ∧ run.1 = .empty ∨
        ∃ before c after, calls = before ++ c :: after ∧
          (∀ c' ∈ after, (Document.empty.load c'.1 c'.2 : Document α × _).2 ≠ none) ∧
          Document.empty.load c.1 c.2 = (run.1, none) ∧
          ∃ scan paths, Scan.ofBytes? c.2 = some scan ∧ readPaths scan.pathData = .ok paths ∧
            List.Forall₂ (Path.Stored run.1.scale) paths run.1.paths)) ∧
    (∀ (k : Float) (p q : Path Float), Path.Stored k p q →
      (∀ s ∈ p.segments, s.curve.isLine = true) → (p.scale k).Finite → q.AtOrigin) ∧
    ∀ (k : K) (p q : Path K), Path.Stored k p q → q.AtOrigin := by
  refine ⟨fun {α _} calls => ⟨Document.loads_outcomes _ _, ?_⟩, ?_, ?_⟩
  · rcases Document.loads_cases (α := α) .empty calls with
      ⟨hnone, hdoc⟩ | ⟨before, c, after, hcalls, hafter, hload⟩
    · refine .inl ⟨?_, hdoc⟩
      rw [Document.loads_outcomes]
      exact List.forall_mem_map.mpr hnone
    · obtain ⟨scan, size, paths, hscan, hpaths, hdoc⟩ := load_cases hload
      refine .inr ⟨before, c, after, hcalls, hafter, hload, scan, paths, hscan, hpaths, ?_⟩
      rw [hdoc]
      refine List.forall₂_map_right_iff.mpr (List.forall₂_same.mpr fun p hp => ?_)
      exact (readPaths_forall PathData.read_chained hpaths p hp).stored size.scale
  · rintro k p q stored lines finite
    rw [stored.placed]
    refine Path.atOrigin_lines (Path.coherent_map _ p) finite fun s hs => ?_
    obtain ⟨t, ht, rfl⟩ := List.mem_map.mp hs
    exact (t.curve.isLine_map _).trans (lines t ht)
  · rintro k p q stored
    rw [stored.placed]
    exact Path.atOrigin_exact (Path.coherent_map _ p)

def farTriangle : Path α :=
  ⟨[.line ⟨0.1, 7.0⟩ ⟨9.0, -0.3⟩, .line ⟨9.0, -0.3⟩ ⟨5.0, 5.0⟩, .line ⟨5.0, 5.0⟩ ⟨0.1, 7.0⟩], true⟩

def farArch : Path α := ⟨[.ofCurve (.quadratic ⟨-3.0, 0.5⟩ ⟨1.0, 9.0⟩ ⟨5.0, -0.5⟩)], false⟩

theorem chained_farTriangle : (farTriangle : Path α).Chained := by
  refine ⟨List.cons_ne_nil _ _, .cons_cons rfl (.cons_cons rfl (.singleton _)), ?_⟩
  rintro _ first last ⟨⟩ ⟨⟩
  rfl

theorem chained_farArch : (farArch : Path α).Chained :=
  ⟨List.cons_ne_nil _ _, .singleton _, nofun⟩

def broken : Markup.Bytes := Markup.bytes "<svg width='x'/>"

theorem loads_last_far :
    let calls := [(AreaPolicy.containmentForest, plate), (.largestMinusOthers, broken)]
    let run : Document Float × List (Option LoadError) := Document.empty.loads calls
    run.2.map Option.isNone = [true, false] ∧
      run.2 = calls.map (fun c => (Document.empty.load c.1 c.2 : Document Float × _).2) ∧
      ((farTriangle : Path Float).scale 0.3).toOrigin.AtOrigin ∧
      ((farArch : Path ℚ).scale 0.3).toOrigin.AtOrigin := by
  obtain ⟨hruns, hlines, hexact⟩ := loads_last (K := ℚ)
  refine ⟨by decide +kernel, (hruns _).1, ?_, ?_⟩
  · exact hlines 0.3 _ _ (chained_farTriangle.stored 0.3) (by decide) (by decide +kernel)
  · exact hexact 0.3 _ _ (chained_farArch.stored 0.3)

end Reaming
