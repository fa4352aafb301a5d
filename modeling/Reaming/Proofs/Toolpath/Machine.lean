import Mathlib.Data.List.Chain
import Reaming.Proofs.Decimal.Addition
import Reaming.Proofs.Decimal.Monotone
import Reaming.Proofs.Ordered
import Reaming.Proofs.Toolpath.Words

namespace Reaming
open Decimal (Thousandths)

/-- Where a machine is. An axis that no move has named yet is at no known place. -/
structure Tool where
  x : Option Thousandths
  y : Option Thousandths
  z : Option Thousandths
  deriving DecidableEq, Repr

def Tool.move (t : Tool) (m : Move) : Tool :=
  ⟨m.x.or t.x, m.y.or t.y, m.z.or t.z⟩

structure Step where
  before : Tool
  move : Move
  deriving DecidableEq, Repr

def Step.after (s : Step) : Tool := s.before.move s.move

def Tool.run (t : Tool) : List Move → List Step
  | [] => []
  | m :: ms => ⟨t, m⟩ :: (t.move m).run ms

def Tool.finish (t : Tool) (ms : List Move) : Tool := ms.foldl Tool.move t

theorem Tool.run_append (t : Tool) (ms ns : List Move) :
    t.run (ms ++ ns) = t.run ms ++ (t.finish ms).run ns := by
  induction ms generalizing t with
  | nil => rfl
  | cons m ms ih => exact congrArg (⟨t, m⟩ :: ·) (ih (t.move m))

/-- The vertices that the tool goes to: those that are selected and the path end, but for the path
start. -/
def reached (vs : List (Vertex Float)) : List (Vertex Float) :=
  vs.filter fun v => (v.selected || v.isStart || v.isEnd) && !v.isStart

theorem targets_isEnd (y : Float) (vs : List (Vertex Float)) :
    (targets y vs).map Target.isEnd = (reached vs).map Vertex.isEnd := by
  induction vs generalizing y with
  | nil => rfl
  | cons v vs ih =>
    rw [targets, Vertex.counts, reached, List.filter_cons]
    split
    · exact congrArg (v.isEnd :: ·) (ih _)
    · exact ih _

/-- Lengths that are not below zero lead from target to target without a step back. -/
theorem targets_chain {vs : List (Vertex Float)} (nonneg : ∀ v ∈ vs, 0.0 ≤ v.arcLength)
    {y : Float} (hy : 0.0 ≤ y) :
    (y :: (targets y vs).map Target.y).IsChain (· ≤ ·) := by
  induction vs generalizing y with
  | nil => exact .singleton y
  | cons v vs ih =>
    have hle := Decimal.le_add_of_nonneg hy (nonneg v List.mem_cons_self)
    have hchain := ih (fun w hw => nonneg w (List.mem_cons_of_mem v hw))
      (Scalar.Ordered.le_trans hy hle)
    rw [targets]
    split
    · exact .cons_cons hle hchain
    · cases hrest : (targets (y + v.arcLength) vs).map Target.y with
      | nil => exact .singleton y
      | cons y' ys =>
        rw [hrest] at hchain
        obtain ⟨hle', htail⟩ := List.isChain_cons_cons.mp hchain
        exact .cons_cons (Scalar.Ordered.le_trans hle hle') htail

/-- How deep the tool is once it has passed some vertices: the line is cut through from the first
of them on that ends the path. -/
def cutDepth (cutAtEnd : Bool) (base endCut : Thousandths) (ends : List Bool) : Thousandths :=
  if cutAtEnd && ends.any id then endCut else base

/-- What the steps between the plunge and the retract keep to, with the tool at X `here` and depth
`base` before them, and the other rail at X `there`; `ends` tells of each vertex on the way whether
it ends the path. A vertex takes two steps, along the rail and across. -/
structure Cuts (cutAtEnd : Bool) (here there base endCut : Thousandths) (ends : List Bool)
    (steps : List Step) : Prop where
  controlled : ∀ s ∈ steps, s.move.rapid = false
  oneAxis : ∀ s ∈ steps, s.after.x = s.before.x ∨ s.after.y = s.before.y
  opposite : ∀ s ∈ steps, s.move.x.isSome = true →
    (s.before.x = some here ∧ s.after.x = some there) ∨
      (s.before.x = some there ∧ s.after.x = some here)
  turns : steps.filterMap (·.move.x) =
    (List.range ends.length).map fun k => if k % 2 = 0 then there else here
  climbs : ∀ s ∈ steps, ∃ y y', s.before.y = some y ∧ s.after.y = some y' ∧ y ≤ y'
  length : steps.length = 2 * ends.length
  depth : ∀ k < ends.length, ∀ s, steps[2 * k]? = some s ∨ steps[2 * k + 1]? = some s →
    s.after.z = some (cutDepth cutAtEnd base endCut (ends.take (k + 1)))

def Tool.at (x y z : Thousandths) : Tool := ⟨some x, some y, some z⟩

def Frame.along (f : Frame) (cutAtEnd : Bool) (y : Thousandths) (isEnd : Bool) : Move :=
  { rapid := false, y := some y, z := if isEnd && cutAtEnd then some f.endCut else none }

def Frame.across (f : Frame) (rail : Rail) : Move :=
  { rapid := false, x := some (f.railX rail.opposite) }

theorem Rail.opposite_opposite (rail : Rail) : rail.opposite.opposite = rail := by
  cases rail <;> rfl

theorem cutDepth_cons (cutAtEnd : Bool) (base endCut : Thousandths) (isEnd : Bool)
    (ends : List Bool) : cutDepth cutAtEnd base endCut (isEnd :: ends) =
      cutDepth cutAtEnd (cutDepth cutAtEnd base endCut [isEnd]) endCut ends := by
  cases cutAtEnd <;> cases isEnd <;> simp [cutDepth]

theorem Tool.move_along (f : Frame) (cutAtEnd isEnd : Bool) (x y y' z : Thousandths) :
    (Tool.at x y z).move (f.along cutAtEnd y' isEnd) =
      Tool.at x y' (cutDepth cutAtEnd z f.endCut [isEnd]) := by
  cases cutAtEnd <;> cases isEnd <;> rfl

theorem Tool.move_across (f : Frame) (rail : Rail) (x y z : Thousandths) :
    (Tool.at x y z).move (f.across rail) = Tool.at (f.railX rail.opposite) y z := rfl

/-- Two things by turns, without the first turn. -/
theorem map_range_turns {β : Type} (a b : β) (n : Nat) :
    ((List.range (n + 1)).map fun k => if k % 2 = 0 then a else b) =
      a :: (List.range n).map fun k => if k % 2 = 0 then b else a := by
  rw [List.range_succ_eq_map, List.map_cons, List.map_map]
  refine congrArg (a :: ·) (List.map_congr_left fun k _ => ?_)
  rcases Nat.mod_two_eq_zero_or_one k with h | h
  · rw [Function.comp_apply, if_neg (by omega), if_pos h]
  · rw [Function.comp_apply, if_pos (by omega), if_neg (by omega)]

theorem Cuts.nil (cutAtEnd : Bool) (here there base endCut : Thousandths) :
    Cuts cutAtEnd here there base endCut [] [] where
  controlled := by simp
  oneAxis := by simp
  opposite := by simp
  turns := rfl
  climbs := by simp
  length := rfl
  depth := by simp

/-- One more vertex in front: the tool goes on from the other rail. -/
theorem Cuts.cons {f : Frame} {cutAtEnd : Bool} {rail : Rail} {base y y' : Thousandths}
    {isEnd : Bool} {ends : List Bool} {steps : List Step} (le : y ≤ y')
    (h : Cuts cutAtEnd (f.railX rail.opposite) (f.railX rail)
      (cutDepth cutAtEnd base f.endCut [isEnd]) f.endCut ends steps) :
    Cuts cutAtEnd (f.railX rail) (f.railX rail.opposite) base f.endCut (isEnd :: ends)
      (⟨Tool.at (f.railX rail) y base, f.along cutAtEnd y' isEnd⟩ ::
        ⟨Tool.at (f.railX rail) y' (cutDepth cutAtEnd base f.endCut [isEnd]), f.across rail⟩ ::
          steps) where
  controlled := by
    simp only [List.forall_mem_cons]
    exact ⟨rfl, rfl, h.controlled⟩
  oneAxis := by
    simp only [List.forall_mem_cons]
    exact ⟨.inl rfl, .inr rfl, h.oneAxis⟩
  opposite := by
    simp only [List.forall_mem_cons]
    refine ⟨?_, fun _ => .inl ⟨rfl, rfl⟩, fun s hs hx => (h.opposite s hs hx).symm⟩
    intro hx
    cases hx
  turns := by
    rw [List.length_cons, map_range_turns, ← h.turns]
    rfl
  climbs := by
    simp only [List.forall_mem_cons]
    exact ⟨⟨y, y', rfl, rfl, le⟩, ⟨y', y', rfl, rfl, Thousandths.le_self_of_le le⟩, h.climbs⟩
  length := by
    simp only [List.length_cons, h.length]
    omega
  depth := by
    intro k hk s hs
    cases k with
    | zero =>
      rcases hs with hs | hs
      · cases hs
        rw [Step.after, Tool.move_along]
        rfl
      · cases hs
        rfl
    | succ k =>
      rw [List.take_succ_cons, cutDepth_cons]
      exact h.depth k (Nat.lt_of_succ_lt_succ hk) s hs

theorem cuts_crossings (f : Frame) (cutAtEnd : Bool) (rail : Rail) (base : Thousandths)
    {y : Float} {ts : List Target} (sorted : (y :: ts.map Target.y).IsChain (· ≤ ·)) :
    Cuts cutAtEnd (f.railX rail) (f.railX rail.opposite) base f.endCut (ts.map Target.isEnd)
      ((Tool.at (f.railX rail) (.ofFloat y) base).run (crossings f cutAtEnd rail ts)) := by
  induction ts generalizing rail base y with
  | nil => exact Cuts.nil ..
  | cons t ts ih =>
    obtain ⟨hle, hchain⟩ := List.isChain_cons_cons.mp sorted
    have hrest := ih rail.opposite (cutDepth cutAtEnd base f.endCut [t.isEnd]) hchain
    rw [rail.opposite_opposite] at hrest
    have hcut := hrest.cons (Decimal.ofFloat_mono hle)
    rw [← Tool.move_across f rail, ← Tool.move_along f cutAtEnd t.isEnd] at hcut
    exact hcut

/-- What a whole pass keeps to; `ends` tells of each vertex that is reached whether it ends the
path. At the first of them the tool goes down on the left rail, and it cuts until it comes up
again. -/
structure SafePass (c : Config) (ends : List Bool) (steps : List Step) : Prop where
  rapids : ∀ s ∈ steps, s.move.rapid = true → s.move.x.isSome = true ∨ s.move.y.isSome = true →
    s.before.z = some (.ofFloat c.safeZ) ∧ s.after.z = some (.ofFloat c.safeZ)
  oneAxis : ∀ s ∈ steps, s.move.rapid = false →
    s.after.x = s.before.x ∨ s.after.y = s.before.y
  home : ∃ last, steps.getLast? = some last ∧
    last.after = Tool.at (.whole 0) (.whole 0) (.ofFloat c.safeZ)
  idle : ends = [] → ∀ s ∈ steps, s.after.z = some (.ofFloat c.safeZ)
  cut : ∀ first later, ends = first :: later → ∃ approach plunge cutting leave y,
    steps = approach ++ plunge :: (cutting ++ leave) ∧
    (∀ s ∈ approach, s.after.z = some (.ofFloat c.safeZ)) ∧
    approach.filterMap (·.move.x) = [.ofFloat c.leftRail] ∧
    approach.filterMap (·.move.y) = [y] ∧
    plunge.before = Tool.at (.ofFloat c.leftRail) y (.ofFloat c.safeZ) ∧
    plunge.after = Tool.at (.ofFloat c.leftRail) y (.ofFloat c.bottomZ) ∧
    Cuts c.cutAtEnd (.ofFloat c.leftRail) (.ofFloat c.rightRail) (.ofFloat c.bottomZ)
      (.ofFloat c.endCutZ) later cutting ∧
    ∀ s ∈ leave, s.after.z = some (.ofFloat c.safeZ)

def Frame.leave (f : Frame) : List Move :=
  [{ rapid := false, z := some f.safe },
    { rapid := true, x := some (.whole 0), y := some (.whole 0) }]

theorem Frame.run_leave (f : Frame) (t : Tool) : t.run f.leave =
    [⟨t, { rapid := false, z := some f.safe }⟩,
      ⟨⟨t.x, t.y, some f.safe⟩, { rapid := true, x := some (.whole 0), y := some (.whole 0) }⟩] :=
  rfl

theorem safePass_idle (c : Config) (start : Tool) :
    SafePass c [] (start.run ({ rapid := true, z := some c.frame.safe } :: c.frame.leave)) where
  rapids := by simp [Tool.run, Frame.leave, Step.after, Tool.move, Config.frame]
  oneAxis := by simp [Tool.run, Frame.leave, Step.after, Tool.move]
  home := ⟨_, rfl, rfl⟩
  idle := by simp [Tool.run, Frame.leave, Step.after, Tool.move, Config.frame]
  cut := by
    intro _ _ h
    cases h

/-- The steps of a pass that cuts, before, at and after the plunge. -/
theorem run_cut (f : Frame) (start : Tool) (y : Thousandths) (cutting : List Move) :
    start.run ({ rapid := true, z := some f.safe } ::
        { rapid := true, x := some f.left, y := some y } ::
        { rapid := false, z := some f.bottom } :: (cutting ++ f.leave)) =
      [⟨start, { rapid := true, z := some f.safe }⟩,
        ⟨⟨start.x, start.y, some f.safe⟩, { rapid := true, x := some f.left, y := some y }⟩] ++
      ⟨Tool.at f.left y f.safe, { rapid := false, z := some f.bottom }⟩ ::
        ((Tool.at f.left y f.bottom).run cutting ++
          ((Tool.at f.left y f.bottom).finish cutting).run f.leave) := by
  rw [← Tool.run_append]
  rfl

theorem safePass_cut (c : Config) (start : Tool) (y : Thousandths) (first : Bool)
    {later : List Bool} {cutting : List Move}
    (h : Cuts c.cutAtEnd c.frame.left c.frame.right c.frame.bottom c.frame.endCut later
      ((Tool.at c.frame.left y c.frame.bottom).run cutting)) :
    SafePass c (first :: later) (start.run ({ rapid := true, z := some c.frame.safe } ::
      { rapid := true, x := some c.frame.left, y := some y } ::
      { rapid := false, z := some c.frame.bottom } :: (cutting ++ c.frame.leave))) := by
  rw [run_cut, Frame.run_leave]
  generalize (Tool.at c.frame.left y c.frame.bottom).finish cutting = t
  refine ⟨?_, ?_, ?_, ?_, ?_⟩
  · rw [List.forall_mem_append]
    refine ⟨by simp [Step.after, Tool.move, Config.frame], ?_⟩
    rw [List.forall_mem_cons, List.forall_mem_append]
    refine ⟨by simp, ?_, by simp [Step.after, Tool.move, Config.frame]⟩
    intro s hs hrapid
    rw [h.controlled s hs] at hrapid
    cases hrapid
  · rw [List.forall_mem_append]
    refine ⟨by simp, ?_⟩
    rw [List.forall_mem_cons, List.forall_mem_append]
    exact ⟨fun _ => .inl rfl, fun s hs _ => h.oneAxis s hs, by simp [Step.after, Tool.move]⟩
  · refine ⟨⟨⟨t.x, t.y, some c.frame.safe⟩,
      { rapid := true, x := some (.whole 0), y := some (.whole 0) }⟩, ?_, rfl⟩
    rw [List.getLast?_append_of_ne_nil _ (List.cons_ne_nil _ _), ← List.cons_append,
      List.getLast?_append_of_ne_nil _ (List.cons_ne_nil _ _)]
    rfl
  · intro hnil
    cases hnil
  · rintro _ _ ⟨⟩
    refine ⟨_, _, _, _, y, rfl, ?_, rfl, rfl, rfl, rfl, h, ?_⟩
    · simp [Step.after, Tool.move, Config.frame]
    · simp [Step.after, Tool.move, Config.frame]

/-- The moves of a pass, run from wherever the tool is, make a safe pass. -/
theorem safePass_moves {vs : List (Vertex Float)} (nonneg : ∀ v ∈ vs, 0.0 ≤ v.arcLength)
    (c : Config) (start : Tool) :
    SafePass c ((reached vs).map Vertex.isEnd) (start.run (reamingMoves vs c)) := by
  have hzero : (0.0 : Float) ≤ 0.0 := by decide +kernel
  have hchain := targets_chain nonneg hzero
  rw [← targets_isEnd 0.0, reamingMoves]
  generalize targets 0.0 vs = ts at hchain ⊢
  cases ts with
  | nil => exact safePass_idle c start
  | cons t ts =>
    have hcuts := cuts_crossings c.frame c.cutAtEnd .left c.frame.bottom
      (List.isChain_cons_cons.mp hchain).2
    exact safePass_cut c start (.ofFloat t.y) t.isEnd hcuts

/-- Between prologue and epilogue a reaming program is a run of moves that keeps the tool safe: it
goes across at rapid speed only above the work, goes down only over the left rail, crosses from
rail to rail by turns without ever going back along the line, cuts through it from the first end
vertex on if that is asked for, and comes back up to the origin. -/
theorem reaming_run_safe {vs : List (Vertex Float)} (nonneg : ∀ v ∈ vs, 0.0 ≤ v.arcLength)
    (c : Config) (start : Tool) : ∃ before body after moves,
      reamingProgram vs c = before ++ body ++ after ∧
      Text.Shows c.prologue before ∧ Text.Shows c.epilogue after ∧
      body.mapM Move.read? = some moves ∧
      SafePass c ((reached vs).map Vertex.isEnd) (start.run moves) :=
  ⟨_, _, _, reamingMoves vs c, rfl, Text.shows_iff.mpr rfl, Text.shows_iff.mpr rfl,
    Move.mapM_read?_line _, safePass_moves nonneg c start⟩

/-- Two paths in one list, with one vertex that is passed by. -/
def twoPaths : List (Vertex Float) :=
  let v (x length : Float) (isStart isEnd selected : Bool) : Vertex Float :=
    ⟨⟨x, 0.0⟩, length, isStart, isEnd, selected⟩
  [v 0.0 0.0 true false true, v 1.5 1.5 false false true, v 2.0 0.5 false false false,
    v 4.25 2.25 false true true, v 9.0 0.0 true false true, v 9.5 0.5 false true false]

def twoPathsPlaces : List Tool :=
  [⟨none, none, some (.whole 5000)⟩, .at (.whole (-2000)) (.whole 1500) (.whole 5000),
    .at (.whole (-2000)) (.whole 1500) (.whole (-1000)),
    .at (.whole (-2000)) (.whole 4250) (.whole (-2000)),
    .at (.whole 12000) (.whole 4250) (.whole (-2000)),
    .at (.whole 12000) (.whole 4750) (.whole (-2000)),
    .at (.whole (-2000)) (.whole 4750) (.whole (-2000)),
    .at (.whole (-2000)) (.whole 4750) (.whole 5000), .at (.whole 0) (.whole 0) (.whole 5000)]

theorem reaming_run_safe_twoPaths :
    (∀ v ∈ twoPaths, 0.0 ≤ v.arcLength) ∧
    ∃ body moves, reamingProgram twoPaths default = ["G90", "G21"] ++ body ++ ["M30"] ∧
      body.mapM Move.read? = some moves ∧
      SafePass default [false, true, true] ((⟨none, none, none⟩ : Tool).run moves) ∧
      ((⟨none, none, none⟩ : Tool).run moves).map Step.after = twoPathsPlaces := by
  have nonneg : ∀ v ∈ twoPaths, 0.0 ≤ v.arcLength := by decide +kernel
  obtain ⟨before, body, after, moves, hprogram, hbefore, hafter, hmoves, hsafe⟩ :=
    reaming_run_safe nonneg default ⟨none, none, none⟩
  obtain rfl : before = ["G90", "G21"] := (Text.shows_iff.mp hbefore).trans (by decide +kernel)
  obtain rfl : after = ["M30"] := (Text.shows_iff.mp hafter).trans (by decide +kernel)
  have hends : (reached twoPaths).map Vertex.isEnd = [false, true, true] := by decide +kernel
  have hlines : reamingProgram twoPaths default = ["G90", "G21"] ++ ["G0 Z5.000",
      "G0 X-2.000 Y1.500", "G1 Z-1.000", "G1 Y4.250 Z-2.000", "G1 X12.000", "G1 Y4.750 Z-2.000",
      "G1 X-2.000", "G1 Z5.000", "G0 X0.000 Y0.000"] ++ ["M30"] := by
    decide +kernel
  have hbody := List.append_cancel_left (List.append_cancel_right (hprogram.symm.trans hlines))
  have hplaces : (body.mapM Move.read?).map (fun ms =>
      ((⟨none, none, none⟩ : Tool).run ms).map Step.after) = some twoPathsPlaces := by
    rw [hbody]
    decide +kernel
  rw [hmoves] at hplaces
  exact ⟨nonneg, body, moves, hprogram, hmoves, hends ▸ hsafe, Option.some.inj hplaces⟩

end Reaming
