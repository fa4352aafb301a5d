import Mathlib.Data.List.Basic
import Reaming.Proofs.Toolpath.Machine

namespace Reaming
open Decimal (Thousandths fixed3)

section lines

def IsProgramLine (line : String) : Prop :=
  (∃ c ∈ line.toList, c ∉ Text.whiteSpace) ∧ '\n' ∉ line.toList

theorem isProgramLine_of_shown {text line : String} (h : line ∈ shownLines text) :
    IsProgramLine line := by
  obtain ⟨hline, hshown⟩ := List.mem_filter.mp h
  obtain ⟨_, _, unbroken⟩ := Text.lines_eq_iff.mp (rfl : Text.lines text = _)
  exact ⟨Text.isBlankLine_eq_false_iff.mp (by simpa using hshown), unbroken line hline⟩

theorem Move.isProgramLine_line (m : Move) : IsProgramLine m.line := by
  constructor
  · have hhead : 'G' ∈ m.line.toList := by
      rw [m.line_toList, code]
      split <;> exact List.mem_cons_self
    exact ⟨'G', hhead, by decide⟩
  · have hchars : ∀ c ∈ m.line.toList, c ≠ '\n' := by
      refine m.forall_mem_line (fun c hc => ?_) (by simp)
      rintro rfl
      cases hc
    exact fun hbreak => hchars _ hbreak rfl

theorem isProgramLine_program (vs : List (Vertex Float)) (c : Config) :
    ∀ line ∈ reamingProgram vs c, IsProgramLine line := by
  rw [reamingProgram, List.forall_mem_append, List.forall_mem_append, List.forall_mem_map]
  exact ⟨⟨fun _ => isProgramLine_of_shown, fun m _ => m.isProgramLine_line⟩,
    fun _ => isProgramLine_of_shown⟩

theorem intercalate_newline (lines : List String) :
    "\n".intercalate (lines ++ [""]) = programText lines := by
  rw [← String.toList_inj, String.toList_intercalate, programText, String.toList_join]
  induction lines with
  | nil => rfl
  | cons line lines ih =>
    obtain ⟨next, rest, hrest⟩ := List.exists_cons_of_ne_nil (l := lines ++ [""]) (by simp)
    rw [hrest, List.map_cons] at ih
    rw [List.cons_append, hrest, List.map_cons, List.map_cons, List.intercalate_cons_cons, ih,
      List.map_cons, List.flatMap_cons, String.toList_append]

/-- The text of a program tells its lines. After the last newline nothing comes. -/
theorem lines_programText {lines : List String} (h : ∀ line ∈ lines, '\n' ∉ line.toList) :
    Text.lines (programText lines) = lines ++ [""] := by
  refine Text.lines_eq_iff.mpr ⟨by simp, intercalate_newline lines, ?_⟩
  exact List.forall_mem_append.mpr ⟨h, by simp⟩

end lines

def stops (vs : List (Vertex Float)) : List (Vertex Float × Nat) :=
  vs.zipIdx.filter fun e => (e.1.selected || e.1.isStart || e.1.isEnd) && !e.1.isStart

/-- The length from the first vertex to the one at a place, added up vertex by vertex. -/
def lengthUpTo (vs : List (Vertex Float)) (i : Nat) : Float :=
  ((vs.take (i + 1)).map Vertex.arcLength).foldl (· + ·) 0.0

theorem targets_behind (passed vs : List (Vertex Float)) :
    targets ((passed.map Vertex.arcLength).foldl (· + ·) 0.0) vs =
      ((vs.zipIdx passed.length).filter fun e =>
        (e.1.selected || e.1.isStart || e.1.isEnd) && !e.1.isStart).map fun e =>
          ⟨lengthUpTo (passed ++ vs) e.2, e.1.isEnd⟩ := by
  induction vs generalizing passed with
  | nil => rfl
  | cons v vs ih =>
    have hlength : lengthUpTo (passed ++ v :: vs) passed.length =
        (passed.map Vertex.arcLength).foldl (· + ·) 0.0 + v.arcLength := by
      rw [lengthUpTo, List.take_length_add_append, List.map_append, List.foldl_append]
      rfl
    have hrest := ih (passed ++ [v])
    rw [List.map_append, List.foldl_append, List.length_append, List.append_assoc] at hrest
    rw [targets, Vertex.counts, List.zipIdx_cons, List.filter_cons]
    split
    · rw [List.map_cons, hlength]
      exact congrArg (_ :: ·) hrest
    · exact hrest

theorem targets_eq (vs : List (Vertex Float)) :
    targets 0.0 vs = (stops vs).map fun e => ⟨lengthUpTo vs e.2, e.1.isEnd⟩ :=
  targets_behind [] vs

/-- The rail that the tool is on at a target, counted from zero. -/
def railAt (k : Nat) : Rail := if k % 2 = 1 then .right else .left

theorem opposite_railAt (k : Nat) : (railAt k).opposite = railAt (k + 1) := by
  rcases Nat.mod_two_eq_zero_or_one k with h | h
  · rw [railAt, railAt, if_neg (by omega), if_pos (by omega)]
    rfl
  · rw [railAt, railAt, if_pos h, if_neg (by omega)]
    rfl

theorem crossings_railAt (f : Frame) (cutAtEnd : Bool) (k : Nat) (ts : List Target) :
    crossings f cutAtEnd (railAt k) ts =
      (ts.zipIdx (k + 1)).flatMap fun e => crossing f cutAtEnd (railAt e.2).opposite e.1 := by
  induction ts generalizing k with
  | nil => rfl
  | cons t ts ih =>
    have hback : (railAt (k + 1)).opposite = railAt k := by
      rw [opposite_railAt, railAt, railAt, Nat.add_assoc, Nat.add_mod_right]
    rw [crossings, opposite_railAt, ih, List.zipIdx_cons, List.flatMap_cons, hback]

def plungeLines (c : Config) (y : Float) : List String :=
  ["G0 X" ++ fixed3 c.leftRail ++ " Y" ++ fixed3 y, "G1 Z" ++ fixed3 c.bottomZ]

/-- The lines for target number `k`, counted from zero, that is not the first. -/
def crossingLines (c : Config) (y : Float) (isEnd : Bool) (k : Nat) : List String :=
  ["G1 Y" ++ fixed3 y ++ (if isEnd && c.cutAtEnd then " Z" ++ fixed3 c.endCutZ else ""),
    "G1 X" ++ fixed3 (if k % 2 = 1 then c.rightRail else c.leftRail)]

theorem map_line_crossing (c : Config) (t : Target) (k : Nat) :
    (crossing c.frame c.cutAtEnd (railAt k).opposite t).map Move.line =
      crossingLines c t.y t.isEnd k := by
  have hrail : c.frame.railX (railAt k).opposite.opposite =
      .ofFloat (if k % 2 = 1 then c.rightRail else c.leftRail) := by
    rw [railAt]
    split <;> rfl
  rw [crossing, hrail, crossingLines]
  cases t.isEnd && c.cutAtEnd <;>
    simp [Move.line, fixed3, Config.frame, ← String.append_assoc]

theorem map_line_passes (c : Config) (ts : List Target) :
    (passes c.frame c.cutAtEnd ts).map Move.line =
      (ts.take 1).flatMap (fun t => plungeLines c t.y) ++
        (ts.zipIdx.drop 1).flatMap fun e => crossingLines c e.1.y e.1.isEnd e.2 := by
  cases ts with
  | nil => rfl
  | cons t ts =>
    have hplunge : [({ rapid := true, x := some c.frame.left, y := some (.ofFloat t.y) } : Move),
        { rapid := false, z := some c.frame.bottom }].map Move.line = plungeLines c t.y := by
      simp [Move.line, plungeLines, fixed3, Config.frame, ← String.append_assoc]
    have hcrossings : (crossings c.frame c.cutAtEnd .left ts).map Move.line =
        (ts.zipIdx 1).flatMap fun e => crossingLines c e.1.y e.1.isEnd e.2 := by
      rw [← show railAt 0 = .left from rfl, crossings_railAt, List.map_flatMap]
      exact List.flatMap_congr fun e _ => map_line_crossing c e.1 e.2
    have hcons : passes c.frame c.cutAtEnd (t :: ts) =
        [{ rapid := true, x := some c.frame.left, y := some (.ofFloat t.y) },
          { rapid := false, z := some c.frame.bottom }] ++
        crossings c.frame c.cutAtEnd .left ts := rfl
    rw [hcons, List.map_append, hplunge, hcrossings]
    exact congrArg (· ++ _) (List.append_nil _).symm

theorem line_safe (c : Config) :
    Move.line { rapid := true, z := some c.frame.safe } = "G0 Z" ++ fixed3 c.safeZ := by
  simp [Move.line, fixed3, Config.frame, ← String.append_assoc]

theorem map_line_leave (c : Config) :
    c.frame.leave.map Move.line = ["G1 Z" ++ fixed3 c.safeZ, "G0 X0.000 Y0.000"] := by
  have hhome : Move.line { rapid := true, x := some (.whole 0), y := some (.whole 0) } =
      "G0 X0.000 Y0.000" := by
    decide
  rw [Frame.leave, List.map_cons, List.map_singleton, hhome]
  simp [Move.line, fixed3, Config.frame, ← String.append_assoc]

theorem reamingMoves_eq (vs : List (Vertex Float)) (c : Config) : reamingMoves vs c =
    { rapid := true, z := some c.frame.safe } ::
      (passes c.frame c.cutAtEnd (targets 0.0 vs) ++ c.frame.leave) := rfl

/-- A reaming program line by line. The first of the vertices that are reached is plunged at on the
left rail; every later one is gone to along the rail, cutting through there if it ends the path and
that is asked for, and crossed at, to the right rail first and then by turns. Of the prologue and the
epilogue the lines that show something are kept, and the text of the program tells all its lines. -/
theorem reamingProgram_lines (vs : List (Vertex Float)) (c : Config) :
    let program := reamingProgram vs c
    (∃ before after, Text.Shows c.prologue before ∧ Text.Shows c.epilogue after ∧
      program = before ++ ["G0 Z" ++ fixed3 c.safeZ] ++
        ((stops vs).take 1).flatMap (fun (_, i) => plungeLines c (lengthUpTo vs i)) ++
        ((stops vs).zipIdx.drop 1).flatMap (fun ((v, i), k) =>
          crossingLines c (lengthUpTo vs i) v.isEnd k) ++
        ["G1 Z" ++ fixed3 c.safeZ, "G0 X0.000 Y0.000"] ++ after) ∧
    (∀ line ∈ program, (∃ ch ∈ line.toList, ch ∉ Text.whiteSpace) ∧ '\n' ∉ line.toList) ∧
    "\n".intercalate (program ++ [""]) = programText program ∧
    Text.lines (programText program) = program ++ [""] := by
  intro program
  have hprogram := isProgramLine_program vs c
  refine ⟨⟨_, _, Text.shows_iff.mpr rfl, Text.shows_iff.mpr rfl, ?_⟩, hprogram,
    intercalate_newline program, lines_programText fun line hline => (hprogram line hline).2⟩
  change reamingProgram vs c = shownLines c.prologue ++ _ ++ _ ++ _ ++ _ ++ shownLines c.epilogue
  rw [reamingProgram, reamingMoves_eq, targets_eq, List.map_cons, List.map_append, line_safe,
    map_line_passes, map_line_leave, ← List.map_take, List.flatMap_map, List.zipIdx_map,
    ← List.map_drop, List.flatMap_map]
  simp only [List.append_assoc, List.cons_append, List.nil_append]
  rfl

/-- A machine that cuts down to its table, with lines in its texts that show nothing. -/
def spacedConfig : Config :=
  { (default : Config) with
    cutBehavior := .table
    prologue := "G90\n\n \t\nG21\n"
    epilogue := "\nM5\nM30\n\n" }

def spacedProgram : List String :=
  ["G90", "G21", "G0 Z5.000", "G0 X-2.000 Y1.500", "G1 Z1.000", "G1 Y4.250 Z0.000", "G1 X12.000",
    "G1 Y4.750 Z0.000", "G1 X-2.000", "G1 Z5.000", "G0 X0.000 Y0.000", "M5", "M30"]

theorem reamingProgram_lines_spaced :
    Text.Shows spacedConfig.prologue ["G90", "G21"] ∧
    Text.Shows spacedConfig.epilogue ["M5", "M30"] ∧
    reamingProgram twoPaths spacedConfig = spacedProgram ∧
    Text.lines (programText spacedProgram) = spacedProgram ++ [""] := by
  obtain ⟨⟨before, after, hbefore, hafter, hprogram⟩, _, _, hlines⟩ :=
    reamingProgram_lines twoPaths spacedConfig
  obtain rfl : before = ["G90", "G21"] := (Text.shows_iff.mp hbefore).trans (by decide +kernel)
  obtain rfl : after = ["M5", "M30"] := (Text.shows_iff.mp hafter).trans (by decide +kernel)
  have hspaced : reamingProgram twoPaths spacedConfig = spacedProgram :=
    hprogram.trans (by decide +kernel)
  exact ⟨hbefore, hafter, hspaced, hspaced ▸ hlines⟩

end Reaming
