import Reaming.PathData.Printer
import Reaming.Proofs.PathData.Runs

namespace Reaming.PathData

variable {α : Type}

/-- A piece of path data: a letter, or one group of operands with the letter it belongs to. -/
inductive Item (α : Type) where
  | letter (c : Command)
  | group (c : Command) (g : Group α)
  deriving DecidableEq, Repr

def Run.items (run : Run α) : List (Item α) :=
  .letter run.command :: run.groups.map (.group run.command)

def items (ws : List (Word α)) : List (Item α) := (runs ws).flatMap Run.items

structure Subpath (α : Type) where
  /-- Where the moveto went. -/
  home : Point α
  path : Path α

/-- All that has been drawn, every subpath kept whether it has a segment or not. -/
structure Sketch (α : Type) where
  done : List (Subpath α)
  current : Option (Subpath α)
  pen : Point α

namespace Sketch

def subpaths (s : Sketch α) : List (Subpath α) := s.done ++ s.current.toList

def paths (s : Sketch α) : List (Path α) :=
  (s.subpaths.map Subpath.path).filter fun p => !p.isEmpty

def previous? (s : Sketch α) : Option (Curve α) :=
  s.current.bind fun q => q.path.segments.getLast?.map Segment.curve

def onPath (s : Sketch α) (f : Path α → Path α) : Option (Subpath α) :=
  s.current.map fun q => { q with path := f q.path }

def draw (s : Sketch α) (c : Curve α) : Sketch α :=
  { s with current := s.onPath (·.push (.ofCurve c)), pen := c.stop }

/-- No close-path has closed the subpath that is being drawn. -/
def Open (s : Sketch α) : Prop := ∀ q, s.current = some q → q.path.closed = false

variable [Scalar α]

def blank : Sketch α := ⟨[], none, .origin⟩

def put (s : Sketch α) : Stroke α → Sketch α
  | .moveTo p => ⟨s.subpaths, some ⟨p, .empty⟩, p⟩
  | .lineTo p => s.draw (.line s.pen p)
  | .quadraticTo a p => s.draw (.quadratic s.pen a p)
  | .cubicTo a b p => s.draw (.cubic s.pen a b p)
  | .close =>
    { s with
      current := s.onPath (·.close s.pen)
      pen := (s.current.map Subpath.home).getD s.pen }

def locate (s : Sketch α) (relative : Bool) (p : Point α) : Point α :=
  (if relative then s.pen else .origin) + p

/-- The mirror image of the control point before the pen; the pen itself if there is none. -/
def mirror (s : Sketch α) : Point α :=
  match s.previous? with
  | some (.cubic _ _ c _) | some (.quadratic _ c _) => s.pen + s.pen - c
  | _ => s.pen

def stroke (s : Sketch α) (relative : Bool) : Group α → Stroke α
  | .moveTo p => .moveTo (s.locate relative p)
  | .lineTo p => .lineTo (s.locate relative p)
  | .horizontalTo x => .lineTo (if relative then s.pen + ⟨x, 0.0⟩ else ⟨x, s.pen.y⟩)
  | .verticalTo y => .lineTo (if relative then s.pen + ⟨0.0, y⟩ else ⟨s.pen.x, y⟩)
  | .cubicTo a b p => .cubicTo (s.locate relative a) (s.locate relative b) (s.locate relative p)
  | .smoothCubicTo b p => .cubicTo s.mirror (s.locate relative b) (s.locate relative p)
  | .quadraticTo a p => .quadraticTo (s.locate relative a) (s.locate relative p)
  | .smoothQuadraticTo p => .quadraticTo s.mirror (s.locate relative p)

/-- What a letter does before its operands: it closes the subpath, or opens it again. -/
def letter (s : Sketch α) : Verb → Sketch α
  | .moveTo | .arcTo => s
  | .closePath => s.put .close
  | _ => { s with current := s.onPath fun p => { p with closed := false } }

def step (s : Sketch α) : Item α → Sketch α
  | .letter c => s.letter c.verb
  | .group c g => s.put (s.stroke c.relative g)

def after (s : Sketch α) (is : List (Item α)) : Sketch α := is.foldl step s

/-- A smooth curve has to continue a curve of its own kind. -/
def Continues (s : Sketch α) : Group α → Prop
  | .smoothCubicTo .. => ∃ a b c d, s.previous? = some (.cubic a b c d)
  | .smoothQuadraticTo .. => ∃ a b c, s.previous? = some (.quadratic a b c)
  | _ => True

def AllowsGroup (s : Sketch α) (g : Group α) : Prop :=
  (g.isMove = true ∨ s.current.isSome = true) ∧ s.Continues g

def AllowsLetter (s : Sketch α) (v : Verb) : Prop :=
  v ≠ .arcTo ∧ (v = .moveTo ∨ s.current.isSome = true)

def Allows (s : Sketch α) : Item α → Prop
  | .letter c => s.AllowsLetter c.verb
  | .group _ g => s.AllowsGroup g

def AllowsAll (s : Sketch α) : List (Item α) → Prop
  | [] => True
  | i :: is => s.Allows i ∧ (s.step i).AllowsAll is

theorem after_append (s : Sketch α) (is js : List (Item α)) :
    s.after (is ++ js) = (s.after is).after js :=
  List.foldl_append

theorem allowsAll_append (s : Sketch α) (is js : List (Item α)) :
    s.AllowsAll (is ++ js) ↔ s.AllowsAll is ∧ (s.after is).AllowsAll js := by
  induction is generalizing s with
  | nil => exact (iff_of_eq (true_and _)).symm
  | cons i is ih => exact (and_congr_right fun _ => ih (s.step i)).trans and_assoc.symm

/-- The reader that has drawn the sketch and stands between two groups. -/
def reader (s : Sketch α) (c : Command) : Reader α where
  finished := (s.done.map Subpath.path).filter fun p => !p.isEmpty
  current := s.current.map Subpath.path
  pen := s.pen
  home := (s.current.map Subpath.home).getD .origin
  command := c
  operands := []

theorem reader_paths (s : Sketch α) (c : Command) : (s.reader c).paths = s.paths := by
  obtain ⟨done, current, pen⟩ := s
  rw [paths, subpaths, List.map_append, List.filter_append]
  cases current with
  | none => rfl
  | some q =>
    change _ ++ (Option.filter _ (some q.path)).toList = _ ++ List.filter _ [q.path]
    cases hq : q.path.isEmpty <;> simp [hq, reader]

theorem reader_previous? (s : Sketch α) (c : Command) : (s.reader c).previous? = s.previous? := by
  obtain ⟨done, current, pen⟩ := s
  cases current <;> rfl

end Sketch

def Command.next (c : Command) : Command := ⟨c.verb.next, c.relative⟩

def Command.past (c : Command) : List (Group α) → Command
  | [] => c
  | _ => c.next

def Command.pastRuns (c : Command) (rs : List (Run α)) : Command :=
  rs.foldl (fun _ run => run.command.past run.groups) c

theorem Command.next_of_ne_moveTo {c : Command} (h : c.verb ≠ .moveTo) : c.next = c :=
  congrArg (Command.mk · c.relative) (Verb.next_of_ne_moveTo h)

theorem Command.next_of_group {c : Command} {g : Group α} (kind : g.verb = c.verb)
    (hg : g.isMove = false) : c.next = c := by
  refine next_of_ne_moveTo fun hv => ?_
  rw [hv] at kind
  cases g with
  | moveTo p => cases hg
  | _ => cases kind

theorem Command.past_next (c : Command) (gs : List (Group α)) : c.next.past gs = c.next := by
  cases gs with
  | nil => rfl
  | cons g gs => exact congrArg (Command.mk · c.relative) (Verb.next_next c.verb)

namespace Sketch
variable [Scalar α]

theorem take?_letter {s : Sketch α} {c₀ c : Command} {r : Reader α} :
    (s.reader c₀).take? (.letter c) = some r ↔
      s.AllowsLetter c.verb ∧ r = (s.letter c.verb).reader c := by
  obtain ⟨done, current, pen⟩ := s
  obtain ⟨v, relative⟩ := c
  constructor
  · intro h
    cases v
    case arcTo => cases h
    case moveTo => cases h; exact ⟨⟨Verb.noConfusion, .inl rfl⟩, rfl⟩
    all_goals
      cases current with
      | none => cases h
      | some q => cases h; exact ⟨⟨Verb.noConfusion, .inr rfl⟩, rfl⟩
  · rintro ⟨⟨harc, hcurrent⟩, rfl⟩
    cases v
    case arcTo => exact absurd rfl harc
    case moveTo => rfl
    all_goals
      cases current with
      | none => cases hcurrent <;> contradiction
      | some q => rfl

theorem draw_reader {s : Sketch α} {c : Command} {curve : Curve α} {r : Reader α} :
    (s.reader c).draw curve = .ok r ↔
      s.current.isSome = true ∧ r = (s.draw curve).reader c := by
  obtain ⟨done, current, pen⟩ := s
  constructor
  · intro h
    cases current with
    | none => cases h
    | some q => cases h; exact ⟨rfl, rfl⟩
  · rintro ⟨hcurrent, rfl⟩
    cases current with
    | none => cases hcurrent
    | some q => rfl

theorem moveTo_reader (s : Sketch α) (c : Command) (p : Point α) :
    (s.reader c).moveTo p = (s.put (.moveTo p)).reader ⟨.lineTo, c.relative⟩ := by
  rw [Reader.moveTo, reader_paths]
  rfl

theorem perform_reader {s : Sketch α} {c : Command} {g : Group α} {r : Reader α}
    (kind : g.verb = c.verb) :
    (s.reader c).perform g = .ok r ↔
      s.AllowsGroup g ∧ r = (s.put (s.stroke c.relative g)).reader c.next := by
  cases g with
  | moveTo p =>
    have hnext : c.next = ⟨.lineTo, c.relative⟩ := by rw [Command.next, ← kind]; rfl
    rw [Reader.perform, moveTo_reader, hnext, Except.ok.injEq, eq_comm]
    exact (and_iff_right ⟨.inl rfl, trivial⟩).symm
  | lineTo | horizontalTo | verticalTo | cubicTo | quadraticTo =>
    rw [Command.next_of_group kind rfl]
    refine draw_reader.trans (and_congr_left fun _ => ?_)
    exact ⟨fun h => ⟨.inr h, trivial⟩, fun h => h.1.resolve_left Bool.false_ne_true⟩
  | smoothCubicTo b p =>
    rw [Command.next_of_group kind rfl]
    simp only [Reader.perform, reader_previous?]
    split
    · rename_i a b' d e hprevious
      have hmirror : s.mirror = d.reflect s.pen := by
        rw [mirror, hprevious]
        rfl
      rw [stroke, hmirror]
      refine draw_reader.trans (and_congr_left fun _ => ?_)
      exact ⟨fun h => ⟨.inr h, _, _, _, _, hprevious⟩, fun h => h.1.resolve_left Bool.false_ne_true⟩
    · rename_i hother
      constructor
      · intro h
        cases h
      · rintro ⟨⟨_, a, b', d, e, hprevious⟩, _⟩
        exact absurd hprevious (hother a b' d e)
  | smoothQuadraticTo p =>
    rw [Command.next_of_group kind rfl]
    simp only [Reader.perform, reader_previous?]
    split
    · rename_i a d e hprevious
      have hmirror : s.mirror = d.reflect s.pen := by
        rw [mirror, hprevious]
        rfl
      rw [stroke, hmirror]
      refine draw_reader.trans (and_congr_left fun _ => ?_)
      exact ⟨fun h => ⟨.inr h, _, _, _, hprevious⟩, fun h => h.1.resolve_left Bool.false_ne_true⟩
    · rename_i hother
      constructor
      · intro h
        cases h
      · rintro ⟨⟨_, a, d, e, hprevious⟩, _⟩
        exact absurd hprevious (hother a d e)

/-- A run of numbers is read exactly if it makes whole groups that may all come where they come,
and then it draws what the groups mean. -/
theorem foldlM_values {s : Sketch α} {c c₀ : Command} (arc : c.verb ≠ .arcTo)
    (same : c₀.relative = c.relative) {xs : List α} {r : Reader α} :
    ((xs.map .value).foldlM Reader.take? (s.reader c)).filter Reader.idle = some r ↔
      c.verb.arity ∣ xs.length ∧ s.AllowsAll ((groups c.verb xs).map (.group c₀)) ∧
        r = (s.after ((groups c.verb xs).map (.group c₀))).reader (c.past (groups c.verb xs)) := by
  generalize hv : c.verb = v
  induction v, xs using groups.induct generalizing s c with
  | case1 v xs hnone =>
    rw [groups_of_none hnone, arity_dvd_iff_of_none (hv ▸ arc) hnone]
    rw [← hv] at hnone
    rw [Reader.foldlM_take?_leftover rfl arc hnone]
    exact and_congr_right fun _ => (iff_of_eq (true_and _)).symm
  | case2 v xs g hg ih =>
    subst hv
    have hnext : c.next.verb ≠ .arcTo := by
      rw [Command.next]
      cases hc : c.verb
      case arcTo => exact absurd hc arc
      all_goals exact Verb.noConfusion
    have hgroup := Reader.foldlM_take?_group (r := s.reader c) rfl hg
    have hperform := @perform_reader _ _ s c g
    rw [groups_of_some hg, arity_dvd_iff_of_some hg, ← List.take_append_drop c.verb.arity xs,
      List.map_append, List.foldlM_append, hgroup, List.take_append_drop]
    cases hq : (s.reader c).perform g with
    | error why =>
      constructor
      · intro h
        cases h
      · rintro ⟨_, ⟨hallowed, _⟩, _⟩
        have hok := (hperform (Group.verb_of? hg)).mpr ⟨hallowed, rfl⟩
        rw [hq] at hok
        cases hok
    | ok q =>
      obtain ⟨hallowed, rfl⟩ := (hperform (Group.verb_of? hg)).mp hq
      have hrest := @ih (s.put (s.stroke c.relative g)) c.next hnext same rfl
      rw [Command.past_next, ← same] at hrest
      rw [← same]
      refine hrest.trans (and_congr_right fun _ => and_congr_left fun _ => ?_)
      exact (and_iff_right hallowed).symm

theorem run?_reader {s : Sketch α} {c₀ : Command} {run : Run α} {r : Reader α} :
    (s.reader c₀).run? run = some r ↔ run.command.verb.arity ∣ run.values.length ∧
      s.AllowsAll run.items ∧
        r = (s.after run.items).reader (run.command.past run.groups) := by
  have hletter := fun q => @take?_letter _ _ s c₀ run.command q
  rw [Reader.run?, Run.words, List.foldlM_cons]
  cases hq : (s.reader c₀).take? (.letter run.command) with
  | none =>
    constructor
    · intro h
      cases h
    · rintro ⟨_, ⟨hallowed, _⟩, _⟩
      have hsome := (hletter _).mpr ⟨hallowed, rfl⟩
      rw [hq] at hsome
      cases hsome
  | some q =>
    obtain ⟨hallowed, rfl⟩ := (hletter q).mp hq
    refine (foldlM_values hallowed.1 rfl).trans ?_
    exact and_congr_right fun _ => and_congr_left fun _ => (and_iff_right hallowed).symm

theorem foldlM_run?_reader {s : Sketch α} {c : Command} {rs : List (Run α)} {r : Reader α} :
    rs.foldlM Reader.run? (s.reader c) = some r ↔
      (∀ run ∈ rs, run.command.verb.arity ∣ run.values.length) ∧
        s.AllowsAll (rs.flatMap Run.items) ∧
          r = (s.after (rs.flatMap Run.items)).reader (c.pastRuns rs) := by
  induction rs generalizing s c with
  | nil =>
    rw [List.foldlM_nil, Option.pure_def, Option.some.injEq, eq_comm]
    refine (and_iff_right (List.forall_mem_nil _)).symm.trans (and_congr_right fun _ => ?_)
    exact (and_iff_right trivial).symm
  | cons run rs ih =>
    rw [List.foldlM_cons, List.flatMap_cons, List.forall_mem_cons, allowsAll_append, after_append]
    cases hq : (s.reader c).run? run with
    | none =>
      constructor
      · intro h
        cases h
      · rintro ⟨⟨hwhole, _⟩, ⟨hallowed, _⟩, _⟩
        rw [run?_reader.mpr ⟨hwhole, hallowed, rfl⟩] at hq
        cases hq
    | some q =>
      obtain ⟨hwhole, hallowed, rfl⟩ := run?_reader.mp hq
      rw [and_iff_right hwhole, and_iff_right hallowed]
      exact ih

end Sketch

/-- The reader takes tokens exactly if their numbers read, every letter has whole groups behind it,
and every letter and group may come where it comes; and then it draws what they mean. -/
theorem readTokens_eq_ok_iff_sketch [Scalar α] {ts : List Token} {ps : List (Path α)} :
    readTokens ts = .ok ps ↔ ∃ ws, ts.mapM Token.word? = some ws ∧
      (∀ run ∈ runs ws, run.command.verb.arity ∣ run.values.length) ∧
      Sketch.blank.AllowsAll (items ws) ∧ ps = (Sketch.blank.after (items ws)).paths := by
  have hblank : (Reader.initial : Reader α) = Sketch.blank.reader ⟨.moveTo, false⟩ := rfl
  rw [readTokens_eq_ok_iff_runs, hblank]
  constructor
  · rintro ⟨ws, s, hws, hs, rfl⟩
    obtain ⟨hwhole, hallowed, rfl⟩ := Sketch.foldlM_run?_reader.mp hs
    exact ⟨ws, hws, hwhole, hallowed, Sketch.reader_paths _ _⟩
  · rintro ⟨ws, hws, hwhole, hallowed, rfl⟩
    exact ⟨ws, _, hws, Sketch.foldlM_run?_reader.mpr ⟨hwhole, hallowed, rfl⟩,
      (Sketch.reader_paths _ _).symm⟩

end Reaming.PathData
