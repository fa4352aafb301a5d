import Reaming.Drawing.Document
import Reaming.Proofs.Decimal.EqualDoubles
import Reaming.Proofs.Toolpath.Borders
import Reaming.Proofs.Toolpath.Listing
import Reaming.Proofs.Toolpath.Machine

namespace Reaming
open Decimal

/-- The targets among later vertices come after those among earlier ones. -/
theorem targets_append (y : Float) (vs ws : List (Vertex Float)) : targets y (vs ++ ws) =
    targets y vs ++ targets ((vs.map Vertex.arcLength).foldl (· + ·) y) ws := by
  induction vs generalizing y with
  | nil => rfl
  | cons v vs ih =>
    rw [List.cons_append, targets, targets, ih]
    split <;> rfl

/-- The end of a path is always a target, and the only one that ends it. -/
theorem Bordered.targets_eq {n : Nat} {vs : List (Vertex Float)} (h : Bordered n vs) :
    ∃ before, targets 0.0 vs = before ++ [⟨lengthUpTo vs (n + 1), true⟩] ∧
      (∀ t ∈ before, t.isEnd = false) ∧
      before.isEmpty = !vs.tail.dropLast.any Vertex.selected := by
  obtain ⟨start, inner, last, rfl, hlength, hstart, hinner, hlast⟩ := h.exists_ends
  obtain ⟨hstartIs, hstartEnd⟩ := Prod.mk.inj hstart
  obtain ⟨hlastStart, hlastEnd⟩ := Prod.mk.inj hlast
  have hflags (v : Vertex Float) (hv : v ∈ inner) : v.isStart = false ∧ v.isEnd = false :=
    Prod.mk.inj (hinner v hv)
  have htotal : lengthUpTo (start :: (inner ++ [last])) (n + 1) =
      (inner.map Vertex.arcLength).foldl (· + ·) (0.0 + start.arcLength) + last.arcLength := by
    rw [lengthUpTo, List.take_of_length_le (by simp [hlength]), List.map_cons, List.map_append,
      List.foldl_cons, List.foldl_append]
    rfl
  refine ⟨targets (0.0 + start.arcLength) inner, ?_, ?_, ?_⟩
  · have hfirst : (start.counts && !start.isStart) = false := by simp [hstartIs]
    have hcounts : (last.counts && !last.isStart) = true := by
      simp [Vertex.counts, hlastStart, hlastEnd]
    rw [targets, hfirst, if_neg Bool.false_ne_true, targets_append, targets, hcounts, if_pos rfl,
      htotal, hlastEnd]
    rfl
  · intro t ht
    have hmem := List.mem_map_of_mem (f := Target.isEnd) ht
    rw [targets_isEnd] at hmem
    obtain ⟨v, hv, hend⟩ := List.mem_map.mp hmem
    rw [← hend]
    exact (hflags v (List.mem_of_mem_filter hv)).2
  · have hreached : reached inner = inner.filter Vertex.selected := by
      refine List.filter_congr fun v hv => ?_
      obtain ⟨hvStart, hvEnd⟩ := hflags v hv
      simp [hvStart, hvEnd]
    rw [← List.isEmpty_map (f := Target.isEnd), targets_isEnd, List.isEmpty_map, hreached,
      List.tail_cons, List.dropLast_concat, Bool.eq_iff_iff]
    simp [List.filter_eq_nil_iff]

section length

def wordsOn (axis : Char) (line : String) : List String :=
  (Text.splitAt isSpace line.toList).filterMap fun
    | [] => none
    | letter :: text => if letter = axis then some (String.ofList text) else none

theorem wordsOn_line (m : Move) : wordsOn 'Y' m.line = (m.y.map Thousandths.text).toList := by
  rw [wordsOn, m.splitAt_line]
  obtain ⟨rapid, x, y, z⟩ := m
  cases rapid <;> cases x <;> cases y <;> cases z <;> simp [Move.code, Move.words]

theorem wordsOn_lines (ms : List Move) : (ms.map Move.line).flatMap (wordsOn 'Y') =
    (ms.filterMap Move.y).map Thousandths.text := by
  induction ms with
  | nil => rfl
  | cons m ms ih =>
    rw [List.map_cons, List.flatMap_cons, ih, wordsOn_line, List.filterMap_cons]
    cases m.y <;> rfl

theorem filterMap_y_crossings (f : Frame) (cutAtEnd : Bool) (rail : Rail) (ts : List Target) :
    (crossings f cutAtEnd rail ts).filterMap Move.y = ts.map fun t => .ofFloat t.y := by
  induction ts generalizing rail with
  | nil => rfl
  | cons t ts ih =>
    rw [crossings, List.filterMap_append, ih]
    rfl

theorem filterMap_y_passes (f : Frame) (cutAtEnd : Bool) (ts : List Target) :
    (passes f cutAtEnd ts).filterMap Move.y = ts.map fun t => .ofFloat t.y := by
  cases ts with
  | nil => rfl
  | cons t ts => exact congrArg (.ofFloat t.y :: ·) (filterMap_y_crossings f cutAtEnd .left ts)

theorem map_arcLength_markAll {α : Type} (vs : List (Vertex α)) (marks : Nat → Bool) :
    (markAll vs marks).map Vertex.arcLength = vs.map Vertex.arcLength := by
  have hselect (v : Vertex α) (selected : Bool) : (v.select selected).arcLength = v.arcLength := by
    rw [Vertex.select]
    split <;> rfl
  apply List.ext_getElem?
  intro j
  rw [List.getElem?_map, markAll, List.getElem?_mapIdx, Option.map_map, List.getElem?_map]
  congr 1
  funext v
  exact hselect v (marks j)

theorem map_arcLength_segmentVertices {α : Type} [Scalar α] (ss : List (Segment α)) :
    (segmentVertices ss).map Vertex.arcLength = ss.map Segment.length := by
  induction ss with
  | nil => rfl
  | cons s ss ih => exact congrArg (s.length :: ·) ih

/-- The vertices add up to the length of the path, but for the sign of zero. -/
theorem unsign_lengthUpTo {p : Path Float} (ne : p.segments ≠ []) (marks : Nat → Bool) :
    unsign (lengthUpTo (markAll p.vertices marks) p.segments.length) = unsign p.length := by
  obtain ⟨s, ss, hs⟩ := List.exists_cons_of_ne_nil ne
  have hvertices := Path.vertices_eq hs
  have hall : (markAll p.vertices marks).length ≤ p.segments.length + 1 := by
    rw [markAll, List.length_mapIdx, hvertices, List.length_cons, length_segmentVertices]
  have hzero : unsign (0.0 + 0.0) = unsign (-0.0) := by decide +kernel
  rw [lengthUpTo, List.take_of_length_le hall, map_arcLength_markAll, hvertices, List.map_cons,
    map_arcLength_segmentVertices, List.foldl_cons]
  exact unsign_foldl_add hzero _

theorem measureLabel_eq (value : Float) (suffix : String) : measureLabel value suffix =
    fixed3 value ++ if suffix.isEmpty then "" else " " ++ suffix := by
  rw [measureLabel]
  split
  · exact (String.append_empty).symm
  · exact String.append_assoc ..

/-- Whatever vertices are left out between the ends of a path, the program goes along the line as
far as the path is long: the last Y before it comes up is the number that the label of the path's
length shows, digit for digit. -/
theorem last_y_length {p : Path Float} (ne : p.segments ≠ []) (marks : Nat → Bool) (c : Config) :
    ∃ body, reamingProgram (markAll p.vertices marks) c =
        shownLines c.prologue ++ body ++ ["G1 Z" ++ fixed3 c.safeZ, "G0 X0.000 Y0.000"] ++
          shownLines c.epilogue ∧
      (body.flatMap (wordsOn 'Y')).getLast? = some (fixed3 p.length) ∧
      ∀ (d : Document Float) (i : Nat), d.paths[i]? = some p →
        let unit := d.units.lengthSuffix
        d.pathLengthLabel? i =
          some (fixed3 p.length ++ if unit.isEmpty then "" else " " ++ unit) := by
  obtain ⟨n, hn⟩ : ∃ n, p.segments.length = n + 1 :=
    Nat.exists_eq_add_one.mpr (List.length_pos_iff.mpr ne)
  obtain ⟨es, hes⟩ := p.exists_edited_markAll marks
  have hbordered : Bordered n (markAll p.vertices marks) := hes ▸ p.bordered_edited hn es
  obtain ⟨before, htargets, -, -⟩ := hbordered.targets_eq
  have hlength : fixed3 (lengthUpTo (markAll p.vertices marks) (n + 1)) = fixed3 p.length :=
    fixed3_congr (hn ▸ unsign_lengthUpTo ne marks)
  refine ⟨("G0 Z" ++ fixed3 c.safeZ) :: (passes c.frame c.cutAtEnd
    (targets 0.0 (markAll p.vertices marks))).map Move.line, ?_, ?_, fun d i hp => ?_⟩
  · rw [reamingProgram, reamingMoves_eq, List.map_cons, List.map_append, line_safe,
      map_line_leave]
    simp only [List.append_assoc, List.cons_append]
  · rw [← line_safe, ← List.map_cons, wordsOn_lines, List.filterMap_cons_none rfl,
      filterMap_y_passes, htargets, List.map_append, List.map_append, List.map_singleton,
      List.map_singleton, List.getLast?_concat]
    exact congrArg some hlength
  · rw [Document.pathLengthLabel?, Document.pathLength?, hp]
    exact congrArg some (measureLabel_eq _ _)

/-- A corner whose vertex is left out, so that its end is all that the tool goes to. -/
theorem last_y_length_corner : ∃ p : Path Float, PathData.read "M0 0H3V4" = .ok [p] ∧
    p.segments ≠ [] ∧ ∃ body,
      reamingProgram (markAll p.vertices fun _ => false) default =
        shownLines (default : Config).prologue ++ body ++ ["G1 Z5.000", "G0 X0.000 Y0.000"] ++
          shownLines (default : Config).epilogue ∧
      (body.flatMap (wordsOn 'Y')).getLast? = some "7.000" ∧
      Document.pathLengthLabel? { Document.empty with paths := [p], units := .millimeters } 0 =
        some "7.000 mm" := by
  have hview : (PathData.read "M0 0H3V4").map (List.map fun p : Path Float =>
      (p.segments.length, fixed3 p.length)) = .ok [(2, "7.000")] := by
    decide +kernel
  obtain ⟨p, hread, hp⟩ := exists_read_singleton hview
  obtain ⟨hsegments, hlength⟩ := Prod.mk.inj hp
  have ne : p.segments ≠ [] := List.ne_nil_of_length_eq_add_one hsegments
  obtain ⟨body, hprogram, hlast, hlabel⟩ := last_y_length ne (fun _ => false) default
  have hsafe : "G1 Z" ++ fixed3 (default : Config).safeZ = "G1 Z5.000" := by decide +kernel
  rw [hlength] at hlast
  rw [hsafe] at hprogram
  have hunit : (if Units.millimeters.lengthSuffix.isEmpty then "" else
      " " ++ Units.millimeters.lengthSuffix) = " mm" := by
    decide
  refine ⟨p, hread, ne, body, hprogram, hlast, (hlabel _ 0 rfl).trans ?_⟩
  rw [hlength, hunit]
  rfl

end length

/-- A controlled move that goes along the line and to another depth in one. -/
def Move.cutsThrough (m : Move) : Bool := !m.rapid && m.y.isSome && m.z.isSome

theorem Move.cutsThrough_along (f : Frame) (cutAtEnd : Bool) (y : Thousandths) (isEnd : Bool) :
    (f.along cutAtEnd y isEnd).cutsThrough = (isEnd && cutAtEnd) := by
  cases isEnd <;> cases cutAtEnd <;> rfl

theorem filter_crossings (f : Frame) (cutAtEnd : Bool) (rail : Rail) (ts : List Target) :
    (crossings f cutAtEnd rail ts).filter Move.cutsThrough =
      (ts.filter fun t => t.isEnd && cutAtEnd).map fun t =>
        f.along cutAtEnd (.ofFloat t.y) t.isEnd := by
  induction ts generalizing rail with
  | nil => rfl
  | cons t ts ih =>
    have hcrossing : crossing f cutAtEnd rail t =
        [f.along cutAtEnd (.ofFloat t.y) t.isEnd, f.across rail] := rfl
    have hacross : (f.across rail).cutsThrough = false := rfl
    rw [crossings, List.filter_append, ih, hcrossing, List.filter_cons, List.filter_cons,
      Move.cutsThrough_along, hacross, List.filter_cons]
    cases t.isEnd && cutAtEnd <;> rfl

/-- The first target is plunged at, so that it is cut through at none but the later ones. -/
theorem filter_reamingMoves (vs : List (Vertex Float)) (c : Config) :
    (reamingMoves vs c).filter Move.cutsThrough =
      ((targets 0.0 vs).tail.filter fun t => t.isEnd && c.cutAtEnd).map fun t =>
        c.frame.along c.cutAtEnd (.ofFloat t.y) t.isEnd := by
  rw [reamingMoves]
  cases targets 0.0 vs with
  | nil => rfl
  | cons t ts =>
    rw [List.tail_cons, ← filter_crossings c.frame c.cutAtEnd .left ts]
    simp [passes, Move.cutsThrough]

/-- Between prologue and epilogue a program cuts through the line once if that is asked for and the
tool goes to some vertex before the end of the path, and it does so at the end. If it does not, or
if the end is all it goes to, it cuts through nowhere. -/
theorem cuts_through_at_end {p : Path Float} (ne : p.segments ≠ []) (es : List RingEdit)
    (c : Config) :
    let vs := p.edited es
    ∃ body moves last, reamingProgram vs c = shownLines c.prologue ++ body ++ shownLines c.epilogue ∧
      body.mapM Move.read? = some moves ∧
      vs[p.segments.length]? = some last ∧ last.isEnd = true ∧
      moves.filter Move.cutsThrough =
        if c.cutAtEnd && vs.tail.dropLast.any Vertex.selected then
          [{ rapid := false
             y := some (.ofFloat (lengthUpTo vs p.segments.length))
             z := some (.ofFloat c.endCutZ) }]
        else [] := by
  intro vs
  obtain ⟨n, hn⟩ : ∃ n, p.segments.length = n + 1 :=
    Nat.exists_eq_add_one.mpr (List.length_pos_iff.mpr ne)
  have hbordered : Bordered n vs := p.bordered_edited hn es
  obtain ⟨before, htargets, hinner, hempty⟩ := hbordered.targets_eq
  obtain ⟨last, hlast, hend⟩ := hbordered.exists_last
  refine ⟨_, reamingMoves vs c, last, rfl, Move.mapM_read?_line _, hn ▸ hlast, hend, ?_⟩
  have hany : vs.tail.dropLast.any Vertex.selected = !before.isEmpty := by
    rw [hempty, Bool.not_not]
  rw [filter_reamingMoves, htargets, hn, hany]
  cases before with
  | nil => rw [List.isEmpty_nil, Bool.not_true, Bool.and_false]; rfl
  | cons t ts =>
    have hts : (ts.filter fun t => t.isEnd && c.cutAtEnd) = [] := by
      rw [List.filter_eq_nil_iff]
      intro t ht
      simp [hinner t (List.mem_cons_of_mem _ ht)]
    rw [List.cons_append, List.tail_cons, List.filter_append, hts, List.isEmpty_cons,
      Bool.not_false, Bool.and_true, List.nil_append, List.filter_singleton, Bool.true_and]
    cases c.cutAtEnd <;> rfl

/-- A square that starts at another corner, with one vertex left out. -/
theorem cuts_through_at_end_square : ∃ p : Path Float, PathData.read "M0 0H10V10H0Z" = .ok [p] ∧
    p.segments ≠ [] ∧ ∃ body moves,
      reamingProgram (p.edited squareEdits) default =
        shownLines (default : Config).prologue ++ body ++ shownLines (default : Config).epilogue ∧
      body.mapM Move.read? = some moves ∧
      moves.filter Move.cutsThrough =
        [{ rapid := false, y := some (.whole 40000), z := some (.whole (-2000)) }] := by
  have hview : (PathData.read "M0 0H10V10H0Z").map (List.map fun p : Path Float =>
      (p.segments.length, (p.edited squareEdits).tail.dropLast.any Vertex.selected,
        Thousandths.ofFloat (lengthUpTo (p.edited squareEdits) p.segments.length))) =
      .ok [(4, true, .whole 40000)] := by
    decide +kernel
  obtain ⟨p, hread, hp⟩ := exists_read_singleton hview
  obtain ⟨hsegments, hselected, hlength⟩ := Prod.mk.inj hp |>.imp_right Prod.mk.inj
  have ne : p.segments ≠ [] := List.ne_nil_of_length_eq_add_one hsegments
  obtain ⟨body, moves, _, hprogram, hmoves, _, _, hcuts⟩ :=
    cuts_through_at_end ne squareEdits default
  have hdepth : Thousandths.ofFloat (default : Config).endCutZ = .whole (-2000) := by
    decide +kernel
  rw [hselected, hlength, hdepth] at hcuts
  exact ⟨p, hread, ne, body, moves, hprogram, hmoves, hcuts⟩

/-- The end of a path of one line is all that the tool goes to. It goes down there and comes up
again, although the line is to be cut through. -/
theorem lone_end_not_cut : ∃ p : Path Float, PathData.read "M0 0H10" = .ok [p] ∧
    p.segments ≠ [] ∧ (default : Config).cutAtEnd = true ∧ ∃ body moves,
      reamingProgram p.vertices default =
        shownLines (default : Config).prologue ++ body ++ shownLines (default : Config).epilogue ∧
      body = ["G0 Z5.000", "G0 X-2.000 Y10.000", "G1 Z-1.000", "G1 Z5.000", "G0 X0.000 Y0.000"] ∧
      body.mapM Move.read? = some moves ∧ moves.filter Move.cutsThrough = [] := by
  have hview : (PathData.read "M0 0H10").map (List.map fun p : Path Float =>
      (p.segments.length, (reamingMoves p.vertices default).map Move.line,
        (reamingMoves p.vertices default).filter Move.cutsThrough)) =
      .ok [(1, ["G0 Z5.000", "G0 X-2.000 Y10.000", "G1 Z-1.000", "G1 Z5.000", "G0 X0.000 Y0.000"],
        [])] := by
    decide +kernel
  obtain ⟨p, hread, hp⟩ := exists_read_singleton hview
  obtain ⟨hsegments, hbody, hcuts⟩ := Prod.mk.inj hp |>.imp_right Prod.mk.inj
  exact ⟨p, hread, List.ne_nil_of_length_eq_add_one hsegments, rfl, _, _, rfl, hbody,
    Move.mapM_read?_line _, hcuts⟩

end Reaming
