import Reaming.Proofs.PathData.Steps

namespace Reaming.PathData

variable {α : Type}

inductive Word (α : Type) where
  | letter (c : Command)
  | value (x : α)
  deriving DecidableEq, Repr

structure Run (α : Type) where
  command : Command
  values : List α
  deriving DecidableEq, Repr

def Run.words (run : Run α) : List (Word α) :=
  .letter run.command :: run.values.map .value

def leading : List (Word α) → List α
  | .value x :: ws => x :: leading ws
  | _ => []

def lettered : List (Word α) → List (Run α)
  | [] => []
  | .value _ :: ws => lettered ws
  | .letter c :: ws => ⟨c, leading ws⟩ :: lettered ws

/-- All letters with their numbers. Leading numbers count as after a moveto. -/
def runs (ws : List (Word α)) : List (Run α) :=
  match leading ws with
  | [] => lettered ws
  | xs => ⟨⟨.moveTo, false⟩, xs⟩ :: lettered ws

theorem leading_append_lettered (ws : List (Word α)) :
    (leading ws).map .value ++ (lettered ws).flatMap Run.words = ws := by
  induction ws with
  | nil => rfl
  | cons w ws ih =>
    cases w with
    | value x => exact congrArg (.value x :: ·) ih
    | letter c => exact congrArg (.letter c :: ·) ih

/-- The verb of the groups after the first: more pairs after a moveto draw lines. -/
def Verb.next : Verb → Verb
  | .moveTo => .lineTo
  | v => v

theorem Verb.next_of_ne_moveTo {v : Verb} (h : v ≠ .moveTo) : v.next = v := by
  cases v
  case moveTo => exact absurd rfl h
  all_goals rfl

@[simp] theorem Verb.arity_next (v : Verb) : v.next.arity = v.arity := by
  cases v <;> rfl

@[simp] theorem Verb.next_next (v : Verb) : v.next.next = v.next := by
  cases v <;> rfl

theorem Group.of?_eq_some {v : Verb} {ops : List α} {g : Group α} (h : Group.of? v ops = some g) :
    v ≠ .closePath ∧ v ≠ .arcTo ∧ ops.length = v.arity :=
  (Group.of?_isSome_iff v ops).mp (h ▸ rfl)

theorem Verb.arity_pos {v : Verb} (h : v ≠ .closePath) : 0 < v.arity := by
  cases v
  case closePath => exact absurd rfl h
  all_goals decide

def Group.verb : Group α → Verb
  | .moveTo _ => .moveTo
  | .lineTo _ => .lineTo
  | .horizontalTo _ => .horizontalTo
  | .verticalTo _ => .verticalTo
  | .cubicTo .. => .cubicTo
  | .smoothCubicTo .. => .smoothCubicTo
  | .quadraticTo .. => .quadraticTo
  | .smoothQuadraticTo _ => .smoothQuadraticTo

theorem Group.verb_of? {v : Verb} {ops : List α} {g : Group α} (h : Group.of? v ops = some g) :
    g.verb = v := by
  unfold Group.of? at h
  split at h <;> cases h <;> rfl

theorem Group.isMove_iff (g : Group α) : g.isMove = true ↔ g.verb = .moveTo := by
  cases g <;> simp [isMove, verb]

/-- Numbers cut into the groups of a verb. What is left over at the end makes no group. -/
def groups (v : Verb) (xs : List α) : List (Group α) :=
  match _h : Group.of? v (xs.take v.arity) with
  | none => []
  | some g => g :: groups v.next (xs.drop v.arity)
termination_by xs.length
decreasing_by
  obtain ⟨hclose, _, hlength⟩ := Group.of?_eq_some _h
  have hpos := Verb.arity_pos hclose
  rw [List.length_take] at hlength
  rw [List.length_drop]
  omega

def Run.groups (run : Run α) : List (Group α) := PathData.groups run.command.verb run.values

theorem groups_of_none {v : Verb} {xs : List α} (h : Group.of? v (xs.take v.arity) = none) :
    groups v xs = [] := by
  rw [groups]
  split
  · rfl
  · rename_i g hg
    rw [h] at hg
    cases hg

theorem groups_of_some {v : Verb} {xs : List α} {g : Group α}
    (h : Group.of? v (xs.take v.arity) = some g) :
    groups v xs = g :: groups v.next (xs.drop v.arity) := by
  rw [groups]
  split
  · rename_i hg
    rw [h] at hg
    cases hg
  · rename_i g' hg
    rw [h] at hg
    cases hg
    rfl

/-- A whole number of groups is none at all or one more than another. -/
theorem arity_dvd_iff_of_some {v : Verb} {xs : List α} {g : Group α}
    (h : Group.of? v (xs.take v.arity) = some g) :
    v.arity ∣ xs.length ↔ v.next.arity ∣ (xs.drop v.arity).length := by
  obtain ⟨_, _, hlength⟩ := Group.of?_eq_some h
  rw [List.length_take] at hlength
  have hsplit : xs.length = (xs.drop v.arity).length + v.arity := by
    rw [List.length_drop]
    omega
  rw [hsplit, Nat.dvd_add_left (Nat.dvd_refl _), Verb.arity_next]

theorem short_of_none {v : Verb} {xs : List α} (arc : v ≠ .arcTo)
    (h : Group.of? v (xs.take v.arity) = none) : v = .closePath ∨ xs.length < v.arity := by
  by_cases hv : v = .closePath
  · exact .inl hv
  · refine .inr (Nat.lt_of_not_le fun hle => ?_)
    have hsome := (Group.of?_isSome_iff v (xs.take v.arity)).mpr
      ⟨hv, arc, List.length_take_of_le hle⟩
    rw [h] at hsome
    cases hsome

theorem arity_dvd_iff_of_none {v : Verb} {xs : List α} (arc : v ≠ .arcTo)
    (h : Group.of? v (xs.take v.arity) = none) : v.arity ∣ xs.length ↔ xs = [] := by
  rw [← List.length_eq_zero_iff]
  rcases short_of_none arc h with rfl | hlt
  · exact Nat.zero_dvd
  · exact ⟨fun hdvd => Nat.eq_zero_of_dvd_of_lt hdvd hlt, fun hzero => hzero ▸ Nat.dvd_zero _⟩

/-- The groups of all letters but the moveto have the verb of their letter. -/
theorem verb_of_mem_groups {v : Verb} {xs : List α} (hv : v ≠ .moveTo) :
    ∀ g ∈ groups v xs, g.verb = v := by
  induction v, xs using groups.induct with
  | case1 v xs hnone =>
    rw [groups_of_none hnone]
    exact nofun
  | case2 v xs g hg ih =>
    have hnext := Verb.next_of_ne_moveTo hv
    rw [hnext] at ih
    rw [groups_of_some hg, hnext, List.forall_mem_cons]
    exact ⟨Group.verb_of? hg, ih hv⟩

/-- A moveto begins a subpath with its first pair and draws lines with all others. -/
theorem groups_moveTo_cases (xs : List α) :
    (xs.length < 2 ∧ groups .moveTo xs = []) ∨
      (2 ≤ xs.length ∧ ∃ p gs, groups .moveTo xs = .moveTo p :: gs ∧ ∀ g ∈ gs, g.verb = .lineTo) := by
  match xs with
  | [] => exact .inl ⟨Nat.zero_lt_two, groups_of_none rfl⟩
  | [_] => exact .inl ⟨Nat.one_lt_two, groups_of_none rfl⟩
  | x :: y :: xs =>
    exact .inr ⟨Nat.le_add_left 2 xs.length, ⟨x, y⟩, groups .lineTo xs, groups_of_some rfl,
      verb_of_mem_groups nofun⟩

variable [Scalar α]

def Token.word? : Token → Option (Word α)
  | .command c => some (.letter c)
  | .number text => (Scalar.read? text).map .value

namespace Reader

def take? (r : Reader α) : Word α → Option (Reader α)
  | .letter c => (r.begin c).toOption
  | .value x => (r.operand [] x).toOption

/-- The text of a number matters to the messages only. -/
theorem operand_toOption (r : Reader α) (text : List Char) (x : α) :
    (r.operand text x).toOption = r.take? (.value x) := by
  rw [take?, operand, operand]
  split <;> rfl

theorem feed_toOption (r : Reader α) (t : Token) : (r.feed t).toOption = t.word?.bind r.take? := by
  cases t with
  | command c => rfl
  | number text =>
    rw [feed, Token.word?]
    cases (Scalar.read? text : Option α) with
    | none => rfl
    | some x => exact r.operand_toOption text x

theorem foldlM_feed_toOption (ts : List Token) (r : Reader α) :
    (ts.foldlM feed r).toOption = (ts.mapM Token.word?).bind fun ws => ws.foldlM take? r := by
  have split_bind (x : Except Error (Reader α)) (f : Reader α → Except Error (Reader α)) :
      (x >>= f).toOption = x.toOption.bind fun s => (f s).toOption := by
    cases x <;> rfl
  induction ts generalizing r with
  | nil => rfl
  | cons t ts ih =>
    rw [List.foldlM_cons, split_bind, feed_toOption, List.mapM_cons]
    simp only [ih]
    cases (t.word? : Option (Word α)) with
    | none => rfl
    | some w =>
      cases (ts.mapM Token.word? : Option (List (Word α))) with
      | none => exact Option.bind_fun_none _
      | some ws => rfl

theorem take?_value {r : Reader α} (hv : r.command.verb ≠ .closePath) (x : α) :
    r.take? (.value x) =
      match Group.of? r.command.verb (r.operands ++ [x]) with
      | none => some { r with operands := r.operands ++ [x] }
      | some g => ({ r with operands := [] }.perform g).toOption := by
  rw [take?, operand, if_neg hv]
  dsimp only
  cases Group.of? r.command.verb (r.operands ++ [x]) <;> rfl

/-- Fewer operands than a group wait for the rest. -/
theorem foldlM_take?_short {r : Reader α} (hv : r.command.verb ≠ .closePath) {xs : List α}
    (short : r.operands.length + xs.length < r.command.verb.arity) :
    (xs.map .value).foldlM take? r = some { r with operands := r.operands ++ xs } := by
  induction xs generalizing r with
  | nil =>
    rw [List.append_nil]
    rfl
  | cons x xs ih =>
    rw [List.length_cons] at short
    have hnone : Group.of? r.command.verb (r.operands ++ [x]) = none := by
      cases hg : Group.of? r.command.verb (r.operands ++ [x]) with
      | none => rfl
      | some g =>
        have hlength := (Group.of?_eq_some hg).2.2
        rw [List.length_append, List.length_singleton] at hlength
        omega
    have hshort : (r.operands ++ [x]).length + xs.length < r.command.verb.arity := by
      rw [List.length_append, List.length_singleton]
      omega
    have hrest := @ih { r with operands := r.operands ++ [x] } hv hshort
    rw [List.append_assoc, List.singleton_append] at hrest
    rw [List.map_cons, List.foldlM_cons, take?_value hv, hnone]
    exact hrest

/-- The last operand of a group has it carried out. -/
theorem foldlM_take?_group {r : Reader α} (hr : r.operands = []) {ops : List α} {g : Group α}
    (h : Group.of? r.command.verb ops = some g) :
    (ops.map .value).foldlM take? r = (r.perform g).toOption := by
  obtain ⟨hv, _, hlength⟩ := Group.of?_eq_some h
  have hpos := Verb.arity_pos hv
  have hne : ops ≠ [] := List.length_pos_iff.mp (by omega)
  have hshort : r.operands.length + ops.dropLast.length < r.command.verb.arity := by
    rw [hr, List.length_nil, List.length_dropLast]
    omega
  have hlast : { r with operands := r.operands ++ ops.dropLast }.take? (.value (ops.getLast hne)) =
      (r.perform g).toOption := by
    have hvalue := @take?_value _ _ { r with operands := r.operands ++ ops.dropLast } hv
      (ops.getLast hne)
    dsimp only at hvalue
    rw [hvalue, hr, List.nil_append, List.dropLast_concat_getLast hne, h]
    dsimp only
    rw [← hr]
  rw [← List.dropLast_concat_getLast hne, List.map_append, List.foldlM_append,
    foldlM_take?_short hv hshort]
  exact (bind_pure _).trans hlast

def idle (r : Reader α) : Bool := r.operands.isEmpty

/-- Numbers that make no group must not be there at all. -/
theorem foldlM_take?_leftover {r s : Reader α} (hr : r.operands = []) {xs : List α}
    (arc : r.command.verb ≠ .arcTo)
    (h : Group.of? r.command.verb (xs.take r.command.verb.arity) = none) :
    ((xs.map .value).foldlM take? r).filter idle = some s ↔ xs = [] ∧ s = r := by
  cases xs with
  | nil =>
    have hidle : r.idle = true := List.isEmpty_iff.mpr hr
    rw [List.map_nil, List.foldlM_nil, Option.pure_def, Option.filter_some, if_pos hidle,
      Option.some.injEq, eq_comm]
    exact (and_iff_right rfl).symm
  | cons x xs =>
    refine iff_of_false ?_ fun h => nomatch h.1
    rcases short_of_none arc h with hclose | hshort
    · have hnone : r.take? (.value x) = none := by
        rw [take?, operand, if_pos hclose]
        rfl
      rw [List.map_cons, List.foldlM_cons, hnone]
      exact nofun
    · have hv : r.command.verb ≠ .closePath := by
        intro hclose
        rw [hclose] at hshort
        exact Nat.not_lt_zero _ hshort
      rw [foldlM_take?_short hv (by rwa [hr, List.length_nil, Nat.zero_add]), Option.filter_some,
        if_neg (by rw [idle, hr]; exact Bool.false_ne_true)]
      exact nofun

theorem idle_of_take?_letter {r s : Reader α} {c : Command} (h : r.take? (.letter c) = some s) :
    r.idle = true := by
  rw [take?] at h
  cases hb : r.begin c with
  | error why => rw [hb] at h; cases h
  | ok q => exact List.isEmpty_iff.mpr (begin_cases hb).1

/-- The reader after a letter and its numbers, if they are whole groups. -/
def run? (r : Reader α) (run : Run α) : Option (Reader α) :=
  (run.words.foldlM take? r).filter idle

theorem foldlM_run? {r : Reader α} (hr : r.idle = true) (rs : List (Run α)) :
    ((rs.flatMap Run.words).foldlM take? r).filter idle = rs.foldlM run? r := by
  induction rs generalizing r with
  | nil => exact if_pos hr
  | cons run rs ih =>
    rw [List.flatMap_cons, List.foldlM_append, List.foldlM_cons, run?]
    cases hrun : run.words.foldlM take? r with
    | none => rfl
    | some s =>
      cases hs : s.idle with
      | true =>
        rw [Option.filter_some, if_pos hs]
        exact ih hs
      | false =>
        rw [Option.filter_some, if_neg (by rw [hs]; decide)]
        cases rs with
        | nil => exact if_neg (by rw [hs]; decide)
        | cons run' rs =>
          cases hletter : s.take? (.letter run'.command) with
          | some q =>
            rw [idle_of_take?_letter hletter] at hs
            cases hs
          | none =>
            rw [List.flatMap_cons, Run.words, List.cons_append]
            change (((s.take? (.letter run'.command)).bind _).filter idle) = none
            rw [hletter]
            rfl

theorem take?_initial_moveTo :
    (initial : Reader α).take? (.letter ⟨.moveTo, false⟩) = some initial := rfl

/-- Leading numbers are read as after a moveto. -/
theorem foldlM_take?_runs (ws : List (Word α)) :
    ws.foldlM take? initial = ((runs ws).flatMap Run.words).foldlM take? initial := by
  have hws := leading_append_lettered ws
  rw [runs]
  split
  · rename_i hnil
    rw [hnil] at hws
    exact congrArg (List.foldlM take? initial) hws.symm
  · rw [List.flatMap_cons, Run.words, List.cons_append, hws, List.foldlM_cons,
      take?_initial_moveTo]
    rfl

end Reader

/-- Path data reads well exactly if its numbers do and the words take the reader to the end of a
group. -/
theorem readTokens_eq_ok_iff_words {ts : List Token} {ps : List (Path α)} :
    readTokens ts = .ok ps ↔ ∃ ws s, ts.mapM Token.word? = some ws ∧
      ws.foldlM Reader.take? Reader.initial = some s ∧ s.idle = true ∧ ps = s.paths := by
  have hfold := Reader.foldlM_feed_toOption ts (Reader.initial : Reader α)
  constructor
  · intro h
    obtain ⟨s, hs, hops, rfl⟩ := readTokens_cases h
    rw [hs] at hfold
    obtain ⟨ws, hws, hread⟩ := Option.bind_eq_some_iff.mp hfold.symm
    exact ⟨ws, s, hws, hread, List.isEmpty_iff.mpr hops, rfl⟩
  · rintro ⟨ws, s, hws, hread, hidle, rfl⟩
    rw [hws, Option.bind_some, hread] at hfold
    rw [readTokens]
    cases hts : ts.foldlM Reader.feed (Reader.initial : Reader α) with
    | error why => rw [hts] at hfold; cases hfold
    | ok q =>
      rw [hts] at hfold
      cases hfold
      change s.finish = _
      have hcomplete : s.checkComplete = .ok () := if_pos hidle
      rw [Reader.finish, hcomplete]
      rfl

/-- The same by runs: they take the reader from group to group. -/
theorem readTokens_eq_ok_iff_runs {ts : List Token} {ps : List (Path α)} :
    readTokens ts = .ok ps ↔ ∃ ws s, ts.mapM Token.word? = some ws ∧
      (runs ws).foldlM Reader.run? Reader.initial = some s ∧ ps = s.paths := by
  have hidle : (Reader.initial : Reader α).idle = true := rfl
  rw [readTokens_eq_ok_iff_words]
  refine exists_congr fun ws => exists_congr fun s => and_congr_right fun _ => ?_
  rw [← Reader.foldlM_run? hidle, ← Reader.foldlM_take?_runs, Option.filter_eq_some_iff, and_assoc]

end Reaming.PathData
