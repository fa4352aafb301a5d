import Reaming.Proofs.Decimal.Literal
import Reaming.Proofs.PathData.Unsigned
import Reaming.Proofs.PathData.Words

namespace Reaming

namespace PathData

variable {α : Type}

def strokeValues (k : Stroke α) : List α := (strokePoints k).flatMap fun p => [p.x, p.y]

namespace Sketch
variable [Scalar α]

/-- A piece in plain absolute words. A line that a moveto implies gets a letter of its own. -/
def plainWords (s : Sketch α) : Item α → List (Word α)
  | .letter c => [.letter c.plain]
  | .group c g =>
    (if c.verb = .moveTo ∧ g.verb ≠ .moveTo then [.letter ⟨.lineTo, false⟩] else []) ++
      (strokeValues (s.stroke c.relative g)).map .value

def expand (s : Sketch α) : List (Item α) → List (Word α)
  | [] => []
  | i :: is => s.plainWords i ++ (s.step i).expand is

theorem expand_append (s : Sketch α) (is js : List (Item α)) :
    s.expand (is ++ js) = s.expand is ++ (s.after is).expand js := by
  induction is generalizing s with
  | nil => rfl
  | cons i is ih =>
    rw [List.cons_append, expand, expand, ih, List.append_assoc]
    rfl

theorem stroke_ne_close (s : Sketch α) (relative : Bool) (g : Group α) :
    s.stroke relative g ≠ .close := by
  cases g <;> exact nofun

theorem strokeCommand_stroke (s : Sketch α) (relative : Bool) (g : Group α) :
    strokeCommand (s.stroke relative g) = ⟨g.verb.plain, false⟩ := by
  cases g <;> rfl

end Sketch

/-- The words of path data with absolute movetos, lines, curves and close-paths only. -/
def expansion [Scalar α] (ws : List (Word α)) : List (Word α) := Sketch.blank.expand (items ws)

example : expansion [.value 1.0, .value 2.0, .value 4.0, .value 4.0, .letter ⟨.horizontalTo, true⟩,
      .value 3.0, .letter ⟨.closePath, true⟩] =
    [.letter ⟨.moveTo, false⟩, .value (1.0 : Float), .value 2.0,
      .letter ⟨.lineTo, false⟩, .value 4.0, .value 4.0,
      .letter ⟨.lineTo, false⟩, .value 7.0, .value 4.0, .letter ⟨.closePath, false⟩] := by
  decide +kernel

def Word.unsign : Word Float → Word Float
  | .letter c => .letter c
  | .value x => .value (Decimal.unsign x)

theorem eq_letter_of_unsign {ws : List (Word Float)} {c : Command}
    (h : ws.map Word.unsign = [Word.letter c].map Word.unsign) : ws = [.letter c] := by
  obtain ⟨w, rfl, hw⟩ := List.map_eq_singleton_iff.mp h
  cases w with
  | letter c' => cases hw; rfl
  | value x => cases hw

theorem eq_values_of_unsign {ws : List (Word Float)} {xs : List Float}
    (h : ws.map Word.unsign = (xs.map Word.value).map Word.unsign) :
    ∃ ys : List Float, ws = ys.map .value ∧ ys.map Decimal.unsign = xs.map Decimal.unsign := by
  induction xs generalizing ws with
  | nil => exact ⟨[], List.map_eq_nil_iff.mp h, rfl⟩
  | cons x xs ih =>
    obtain ⟨w, ws, rfl, hw, hws⟩ := List.map_eq_cons_iff.mp h
    cases w with
    | letter c => cases hw
    | value y =>
      obtain ⟨ys, rfl, hys⟩ := ih hws
      exact ⟨y :: ys, rfl, congrArg₂ List.cons (Word.value.inj hw) hys⟩

theorem eq_points_of_unsign {ps : List (Point Float)} {xs : List Float}
    (h : xs.map Decimal.unsign = (ps.flatMap fun p => [p.x, p.y]).map Decimal.unsign) :
    ∃ qs : List (Point Float), xs = (qs.flatMap fun p => [p.x, p.y]) ∧
      qs.map Point.unsign = ps.map Point.unsign := by
  induction ps generalizing xs with
  | nil => exact ⟨[], List.map_eq_nil_iff.mp h, rfl⟩
  | cons p ps ih =>
    obtain ⟨x, xs, rfl, hx, hxs⟩ := List.map_eq_cons_iff.mp h
    obtain ⟨y, xs, rfl, hy, hrest⟩ := List.map_eq_cons_iff.mp hxs
    obtain ⟨qs, rfl, hqs⟩ := ih hrest
    exact ⟨⟨x, y⟩ :: qs, rfl, congrArg₂ List.cons (congrArg₂ Point.mk hx hy) hqs⟩

/-- Plain operands make a group that means the stroke they are written for, up to the sign of
zero, whatever is drawn before. -/
theorem group_of_values {k : Stroke Float} (hk : k ≠ .close) {xs : List Float}
    (h : xs.map Decimal.unsign = (strokeValues k).map Decimal.unsign) :
    ∃ g, Group.of? (strokeCommand k).verb xs = some g ∧ ∀ s : Sketch Float,
      s.Continues g ∧ s.stroke false g = k.map Point.unsign := by
  obtain ⟨qs, rfl, hqs⟩ := eq_points_of_unsign h
  cases k with
  | close => exact absurd rfl hk
  | moveTo p =>
    obtain ⟨q, rfl, hq⟩ := List.map_eq_singleton_iff.mp hqs
    refine ⟨.moveTo q, rfl, fun s => ⟨trivial, ?_⟩⟩
    exact congrArg Stroke.moveTo ((Point.origin_add q).trans hq)
  | lineTo p =>
    obtain ⟨q, rfl, hq⟩ := List.map_eq_singleton_iff.mp hqs
    refine ⟨.lineTo q, rfl, fun s => ⟨trivial, ?_⟩⟩
    exact congrArg Stroke.lineTo ((Point.origin_add q).trans hq)
  | quadraticTo a p =>
    obtain ⟨a', qs, rfl, ha, hqs⟩ := List.map_eq_cons_iff.mp hqs
    obtain ⟨q, rfl, hq⟩ := List.map_eq_singleton_iff.mp hqs
    refine ⟨.quadraticTo a' q, rfl, fun s => ⟨trivial, ?_⟩⟩
    exact congrArg₂ Stroke.quadraticTo ((Point.origin_add a').trans ha)
      ((Point.origin_add q).trans hq)
  | cubicTo a b p =>
    obtain ⟨a', qs, rfl, ha, hqs⟩ := List.map_eq_cons_iff.mp hqs
    obtain ⟨b', qs, rfl, hb, hqs⟩ := List.map_eq_cons_iff.mp hqs
    obtain ⟨q, rfl, hq⟩ := List.map_eq_singleton_iff.mp hqs
    refine ⟨.cubicTo a' b' q, rfl, fun s => ⟨trivial, ?_⟩⟩
    change Stroke.cubicTo (Point.origin + a') (Point.origin + b') (Point.origin + q) = _
    rw [Point.origin_add, Point.origin_add, Point.origin_add, ha, hb, hq]
    rfl

namespace Sketch

/-- Plain operands draw the stroke they are written for, up to the sign of zero. -/
theorem foldlM_stroke {s : Sketch Float} {k : Stroke Float} (hk : k ≠ .close)
    (hs : (strokeCommand k).verb = .moveTo ∨ s.current.isSome = true) {ws : List (Word Float)}
    (h : ws.map Word.unsign = ((strokeValues k).map Word.value).map Word.unsign) :
    ws.foldlM Reader.take? (s.unsign.reader (strokeCommand k)) =
      some ((s.put k).unsign.reader (strokeCommand k).next) := by
  obtain ⟨xs, rfl, hxs⟩ := eq_values_of_unsign h
  obtain ⟨g, hg, hmeans⟩ := group_of_values hk hxs
  obtain ⟨hcontinues, hstroke⟩ := hmeans s.unsign
  have hverb := Group.verb_of? hg
  have hallowed : s.unsign.AllowsGroup g := by
    refine ⟨?_, hcontinues⟩
    rw [Group.isMove_iff, hverb, isSome_unsign]
    exact hs
  have hrelative : (strokeCommand k).relative = false := by
    cases k <;> rfl
  have hperform := (perform_reader hverb).mpr ⟨hallowed, rfl⟩
  rw [hrelative, hstroke, ← unsign_put] at hperform
  rw [Reader.foldlM_take?_group rfl hg, hperform]
  rfl

theorem take?_plainLetter {s : Sketch Float} {c k : Command} (h : s.AllowsLetter c.verb) :
    (s.unsign.reader k).take? (.letter c.plain) =
      some ((s.letter c.verb).unsign.reader c.plain) := by
  refine take?_letter.mpr ⟨⟨?_, ?_⟩, ?_⟩
  · intro harc
    obtain ⟨v, relative⟩ := c
    cases v
    case arcTo => exact h.1 rfl
    all_goals cases harc
  · rw [isSome_unsign]
    refine h.2.imp_left fun hmove => ?_
    rw [Command.plain, hmove]
    rfl
  · rw [unsign_letter]

/-- A letter before a line changes nothing in a subpath that is open. -/
theorem letter_lineTo_of_open {s : Sketch Float} (h : s.Open) : s.letter .lineTo = s := by
  obtain ⟨done, current, pen⟩ := s
  cases current with
  | none => rfl
  | some q =>
    obtain ⟨home, segments, closed⟩ := q
    have hclosed : closed = false := h _ rfl
    subst hclosed
    rfl

theorem Open.put_line {s : Sketch Float} (h : s.Open) (p : Point Float) :
    (s.put (.lineTo p)).Open := by
  intro q hq
  obtain ⟨q', hq', rfl⟩ := Option.map_eq_some_iff.mp hq
  exact h q' hq'

/-- A group is written as its letter is, or else it is a line that a moveto implies. -/
def Ready (s : Sketch α) (c k : Command) (g : Group α) : Prop :=
  (c.verb = .moveTo ∧ g.verb = .lineTo ∧ s.Open) ∨ (g.verb = c.verb ∧ k = c.plain)

theorem foldlM_group {s : Sketch Float} {c k : Command} {g : Group Float} (ready : s.Ready c k g)
    (allowed : s.AllowsGroup g) {ws : List (Word Float)}
    (h : ws.map Word.unsign = (s.plainWords (.group c g)).map Word.unsign) :
    ws.foldlM Reader.take? (s.unsign.reader k) =
      some ((s.step (.group c g)).unsign.reader (Command.next ⟨g.verb.plain, false⟩)) := by
  have hcommand := s.strokeCommand_stroke c.relative g
  have hplace : (strokeCommand (s.stroke c.relative g)).verb = .moveTo ∨
      s.current.isSome = true := by
    refine allowed.1.imp_left fun hmove => ?_
    rw [hcommand, (Group.isMove_iff g).mp hmove]
    rfl
  have hstroke := fun ws' => @foldlM_stroke s _ (s.stroke_ne_close c.relative g) hplace ws'
  rw [hcommand] at hstroke
  rw [plainWords] at h
  rcases ready with ⟨hc, hg, hopen⟩ | ⟨hg, rfl⟩
  · rw [if_pos ⟨hc, by rw [hg]; exact nofun⟩, List.map_append] at h
    obtain ⟨ws₁, ws₂, rfl, h₁, h₂⟩ := List.map_eq_append_iff.mp h
    obtain rfl := eq_letter_of_unsign h₁
    have hsome : s.current.isSome = true :=
      allowed.1.resolve_left fun hmove => nomatch hg.symm.trans ((Group.isMove_iff g).mp hmove)
    have hletter : (s.unsign.reader k).take? (.letter ⟨.lineTo, false⟩) =
        some (s.unsign.reader ⟨.lineTo, false⟩) := by
      have h := @take?_plainLetter s ⟨.lineTo, false⟩ k ⟨nofun, .inr hsome⟩
      rw [letter_lineTo_of_open hopen] at h
      exact h
    have hrest := hstroke ws₂ h₂
    rw [hg] at hrest ⊢
    rw [List.foldlM_append, List.foldlM_cons, hletter]
    exact hrest
  · rw [if_neg fun himplied => himplied.2 (hg.trans himplied.1), List.nil_append] at h
    have hplain : c.plain = ⟨g.verb.plain, false⟩ := by rw [Command.plain, hg]
    rw [hplain]
    exact hstroke ws h

/-- How the groups behind a letter are written: all with the letter's verb, or, after the first pair
of a moveto, as lines of their own. -/
def AllReady (s : Sketch α) (c k : Command) (gs : List (Group α)) : Prop :=
  (c.verb = .moveTo ∧ (∀ g ∈ gs, g.verb = .lineTo) ∧ s.Open) ∨
    (c.verb ≠ .moveTo ∧ (∀ g ∈ gs, g.verb = c.verb) ∧ k = c.plain)

theorem AllReady.head {s : Sketch α} {c k : Command} {g : Group α} {gs : List (Group α)}
    (h : s.AllReady c k (g :: gs)) : s.Ready c k g := by
  rcases h with ⟨hc, hg, hopen⟩ | ⟨_, hg, hk⟩
  · exact .inl ⟨hc, hg g List.mem_cons_self, hopen⟩
  · exact .inr ⟨hg g List.mem_cons_self, hk⟩

theorem AllReady.tail {s : Sketch Float} {c k : Command} {g : Group Float} {gs : List (Group Float)}
    (h : s.AllReady c k (g :: gs)) :
    (s.step (.group c g)).AllReady c (Command.next ⟨g.verb.plain, false⟩) gs := by
  rcases h with ⟨hc, hg, hopen⟩ | ⟨hc, hg, rfl⟩
  · rw [List.forall_mem_cons] at hg
    refine .inl ⟨hc, hg.2, ?_⟩
    cases g
    case lineTo p => exact hopen.put_line _
    all_goals exact nomatch hg.1
  · rw [List.forall_mem_cons] at hg
    refine .inr ⟨hc, hg.2, ?_⟩
    rw [hg.1]
    exact Command.next_of_ne_moveTo fun hmove => hc (plain_eq_moveTo hmove)

theorem foldlM_groups {s : Sketch Float} {c k : Command} {gs : List (Group Float)}
    (ready : s.AllReady c k gs) (allowed : s.AllowsAll (gs.map (.group c)))
    {ws : List (Word Float)}
    (h : ws.map Word.unsign = (s.expand (gs.map (.group c))).map Word.unsign) :
    ∃ k', ws.foldlM Reader.take? (s.unsign.reader k) =
      some ((s.after (gs.map (.group c))).unsign.reader k') := by
  induction gs generalizing s k ws with
  | nil =>
    obtain rfl := List.map_eq_nil_iff.mp h
    exact ⟨k, rfl⟩
  | cons g gs ih =>
    rw [List.map_cons, expand, List.map_append] at h
    obtain ⟨ws₁, ws₂, rfl, h₁, h₂⟩ := List.map_eq_append_iff.mp h
    obtain ⟨k', hrest⟩ := ih ready.tail allowed.2 h₂
    refine ⟨k', ?_⟩
    rw [List.foldlM_append, foldlM_group ready.head allowed.1 h₁]
    exact hrest

theorem foldlM_run_groups {s : Sketch Float} {run : Run Float}
    (allowed : s.AllowsAll (run.groups.map (.group run.command))) {ws : List (Word Float)}
    (h : ws.map Word.unsign = (s.expand (run.groups.map (.group run.command))).map Word.unsign) :
    ∃ k', ws.foldlM Reader.take? (s.unsign.reader run.command.plain) =
      some ((s.after (run.groups.map (.group run.command))).unsign.reader k') := by
  by_cases hmove : run.command.verb = .moveTo
  · have hrun : run.groups = groups .moveTo run.values := by rw [Run.groups, hmove]
    rcases groups_moveTo_cases run.values with ⟨_, hnil⟩ | ⟨_, p, gs, hgs, hlines⟩
    · rw [hrun, hnil] at h ⊢
      obtain rfl := List.map_eq_nil_iff.mp h
      exact ⟨_, rfl⟩
    · rw [hrun, hgs] at allowed h ⊢
      rw [List.map_cons, expand, List.map_append] at h
      obtain ⟨ws₁, ws₂, rfl, h₁, h₂⟩ := List.map_eq_append_iff.mp h
      have hready : s.Ready run.command run.command.plain (.moveTo p) := .inr ⟨hmove.symm, rfl⟩
      have hfirst := foldlM_group hready allowed.1 h₁
      have hopen : (s.step (.group run.command (.moveTo p))).Open := by
        rintro q ⟨⟩
        rfl
      obtain ⟨k', hrest⟩ := foldlM_groups (.inl ⟨hmove, hlines, hopen⟩) allowed.2 h₂
      refine ⟨k', ?_⟩
      rw [List.foldlM_append, hfirst]
      exact hrest
  · exact foldlM_groups (.inr ⟨hmove, verb_of_mem_groups hmove, rfl⟩) allowed h

theorem foldlM_run {s : Sketch Float} {k : Command} {run : Run Float}
    (allowed : s.AllowsAll run.items) {ws : List (Word Float)}
    (h : ws.map Word.unsign = (s.expand run.items).map Word.unsign) :
    ∃ k', ws.foldlM Reader.take? (s.unsign.reader k) =
      some ((s.after run.items).unsign.reader k') := by
  rw [Run.items, expand, List.map_append] at h
  obtain ⟨ws₁, ws₂, rfl, h₁, h₂⟩ := List.map_eq_append_iff.mp h
  obtain rfl := eq_letter_of_unsign h₁
  have hletter := @take?_plainLetter s run.command k allowed.1
  obtain ⟨k', hrest⟩ := foldlM_run_groups allowed.2 h₂
  refine ⟨k', ?_⟩
  rw [List.foldlM_append, List.foldlM_cons, hletter]
  exact hrest

/-- The plain words take the reader through the sketches of the words they are written for, without
the signs of zeros. -/
theorem foldlM_expand {s : Sketch Float} {k : Command} {rs : List (Run Float)}
    (allowed : s.AllowsAll (rs.flatMap Run.items)) {ws : List (Word Float)}
    (h : ws.map Word.unsign = (s.expand (rs.flatMap Run.items)).map Word.unsign) :
    ∃ k', ws.foldlM Reader.take? (s.unsign.reader k) =
      some ((s.after (rs.flatMap Run.items)).unsign.reader k') := by
  induction rs generalizing s k ws with
  | nil =>
    obtain rfl := List.map_eq_nil_iff.mp h
    exact ⟨k, rfl⟩
  | cons run rs ih =>
    rw [List.flatMap_cons, expand_append, List.map_append] at h
    rw [List.flatMap_cons, allowsAll_append] at allowed
    obtain ⟨ws₁, ws₂, rfl, h₁, h₂⟩ := List.map_eq_append_iff.mp h
    obtain ⟨k₁, hrun⟩ := foldlM_run allowed.1 h₁
    obtain ⟨k', hrest⟩ := ih allowed.2 h₂
    refine ⟨k', ?_⟩
    rw [List.foldlM_append, List.flatMap_cons, after_append, hrun]
    exact hrest

end Sketch

def Command.isPlain (c : Command) : Prop :=
  c.relative = false ∧ c.verb ∈ [.moveTo, .lineTo, .quadraticTo, .cubicTo, .closePath]

theorem isPlain_plain {c : Command} (h : c.verb ≠ .arcTo) : c.plain.isPlain := by
  obtain ⟨v, relative⟩ := c
  refine ⟨rfl, ?_⟩
  change v.plain ∈ _
  cases v
  case arcTo => exact absurd rfl h
  all_goals decide

theorem isPlain_of_mem_expand [Scalar α] {s : Sketch α} {is : List (Item α)} {c : Command}
    (allowed : s.AllowsAll is) (h : .letter c ∈ s.expand is) : c.isPlain := by
  induction is generalizing s with
  | nil => cases h
  | cons i is ih =>
    rcases List.mem_append.mp h with h | h
    · cases i with
      | letter c' =>
        cases List.mem_singleton.mp h
        exact isPlain_plain allowed.1.1
      | group c' g =>
        rcases List.mem_append.mp h with h | h
        · split at h
          · cases List.mem_singleton.mp h
            exact ⟨rfl, by decide⟩
          · cases h
        · obtain ⟨x, _, hx⟩ := List.mem_map.mp h
          cases hx
    · exact ih allowed.2 h

/-- Whatever its numbers are, an expansion can be written down. -/
theorem exists_tokens (ws : List (Word Float)) :
    ∃ ts : List Token, ts.mapM Token.word? = some ws := by
  induction ws with
  | nil => exact ⟨[], rfl⟩
  | cons w ws ih =>
    obtain ⟨ts, hts⟩ := ih
    have htoken : ∃ t : Token, t.word? = some w := by
      cases w with
      | letter c => exact ⟨.command c, rfl⟩
      | value x =>
        obtain ⟨text, htext⟩ := Decimal.exists_read? x
        exact ⟨.number text, congrArg (Option.map Word.value) htext⟩
    obtain ⟨t, ht⟩ := htoken
    refine ⟨t :: ts, ?_⟩
    rw [List.mapM_cons, ht, hts]
    rfl

/-- Accepted path data draws what its expansion draws: into absolute movetos, lines, curves and
close-paths, written with whatever signs of zeros. The expansion draws the very same paths but for
zeros, which it leaves without a sign. -/
theorem read_expansion {text : String} {ps : List (Path Float)} (h : read text = .ok ps) :
    ∃ ws : List (Word Float), (tokens text.toList).mapM Token.word? = some ws ∧
      (∀ c, .letter c ∈ expansion ws → c.isPlain) ∧
      (∃ ts : List Token, ts.mapM Token.word? = some (expansion ws)) ∧
      ∀ (ts : List Token) (ws' : List (Word Float)), ts.mapM Token.word? = some ws' →
        ws'.map Word.unsign = (expansion ws).map Word.unsign →
          readTokens ts = .ok (ps.map (Path.map Point.unsign)) := by
  obtain ⟨ws, hws, _, hallowed, rfl⟩ := readTokens_eq_ok_iff_sketch.mp h
  refine ⟨ws, hws, fun c => isPlain_of_mem_expand hallowed, exists_tokens _, ?_⟩
  intro ts ws' hts hsame
  obtain ⟨k, hread⟩ := @Sketch.foldlM_expand _ ⟨.moveTo, false⟩ _ hallowed ws' hsame
  have hblank : (Sketch.blank.unsign).reader ⟨.moveTo, false⟩ = Reader.initial := by
    have horigin : Point.origin.unsign = Point.origin := by decide +kernel
    rw [Sketch.unsign, Sketch.blank, horigin]
    rfl
  rw [hblank] at hread
  refine readTokens_eq_ok_iff_words.mpr ⟨ws', _, hts, hread, rfl, ?_⟩
  rw [Sketch.reader_paths, Sketch.unsign_paths]
  rfl

/-- Every way to write a stroke short, with a line and a snap to close and a moveto that draws
nothing. -/
def shorthands : String :=
  "1 1 2 0h-1v3Zq5 10 10 0t10 0c0 1 1 1 1 0S30 5 31 6H2V1L1.05 1zM0 0" ++
    "m4 4 1 0l0 1Q6 7 8 5T12 5C12 7 14 7 14 5s2 1 2 0"

def longhand : String :=
  "M1 1L2 0L1 0L1 3ZQ6 11 11 1Q16-9 21 1C21 2 22 2 22 1C22 0 30 5 31 6L2 6L2 1L1.05 1ZM0 0" ++
    "M4 4L5 4L5 5Q6 7 8 5Q10 3 12 5C12 7 14 7 14 5C14 3 16 6 16 5"

def longhandPaths : List (List (Curve Float) × Bool) :=
  [([.line ⟨1.0, 1.0⟩ ⟨2.0, 0.0⟩, .line ⟨2.0, 0.0⟩ ⟨1.0, 0.0⟩, .line ⟨1.0, 0.0⟩ ⟨1.0, 3.0⟩,
      .line ⟨1.0, 3.0⟩ ⟨1.0, 1.0⟩, .quadratic ⟨1.0, 1.0⟩ ⟨6.0, 11.0⟩ ⟨11.0, 1.0⟩,
      .quadratic ⟨11.0, 1.0⟩ ⟨16.0, -9.0⟩ ⟨21.0, 1.0⟩,
      .cubic ⟨21.0, 1.0⟩ ⟨21.0, 2.0⟩ ⟨22.0, 2.0⟩ ⟨22.0, 1.0⟩,
      .cubic ⟨22.0, 1.0⟩ ⟨22.0, 0.0⟩ ⟨30.0, 5.0⟩ ⟨31.0, 6.0⟩, .line ⟨31.0, 6.0⟩ ⟨2.0, 6.0⟩,
      .line ⟨2.0, 6.0⟩ ⟨2.0, 1.0⟩, .line ⟨2.0, 1.0⟩ ⟨1.0, 1.0⟩], true),
    ([.line ⟨4.0, 4.0⟩ ⟨5.0, 4.0⟩, .line ⟨5.0, 4.0⟩ ⟨5.0, 5.0⟩,
      .quadratic ⟨5.0, 5.0⟩ ⟨6.0, 7.0⟩ ⟨8.0, 5.0⟩, .quadratic ⟨8.0, 5.0⟩ ⟨10.0, 3.0⟩ ⟨12.0, 5.0⟩,
      .cubic ⟨12.0, 5.0⟩ ⟨12.0, 7.0⟩ ⟨14.0, 7.0⟩ ⟨14.0, 5.0⟩,
      .cubic ⟨14.0, 5.0⟩ ⟨14.0, 3.0⟩ ⟨16.0, 6.0⟩ ⟨16.0, 5.0⟩], false)]

theorem read_expansion_shorthands : ∃ ps : List (Path Float), read shorthands = .ok ps ∧
    ps.map (fun p => (p.segments.map Segment.curve, p.closed)) = longhandPaths ∧
    ∃ ws : List (Word Float), (tokens shorthands.toList).mapM Token.word? = some ws ∧
      (tokens longhand.toList).mapM Token.word? = some (expansion ws) ∧
      read longhand = .ok (ps.map (Path.map Point.unsign)) := by
  have hcurves : (read shorthands).map (List.map fun p : Path Float =>
      (p.segments.map Segment.curve, p.closed)) = .ok longhandPaths := by
    decide +kernel
  have hwords : (tokens longhand.toList).mapM (Token.word? (α := Float)) =
      ((tokens shorthands.toList).mapM Token.word?).map expansion := by
    decide +kernel
  cases hr : (read shorthands : Except _ (List (Path Float))) with
  | error why =>
    rw [hr] at hcurves
    cases hcurves
  | ok ps =>
    rw [hr] at hcurves
    obtain ⟨ws, hws, _, _, hread⟩ := read_expansion hr
    rw [hws] at hwords
    exact ⟨ps, rfl, Except.ok.inj hcurves, ws, hws, hwords, hread _ _ hwords rfl⟩

end PathData

end Reaming
