import Mathlib.Data.List.Basic
import Reaming.Proofs.PathData.Runs

namespace Reaming

/-- Two computations that agree up to a map of results and a map of errors end alike. -/
theorem cases_of_map_eq_mapError {ε ε' β γ : Type} {x : Except ε β} {y : Except ε' γ}
    {f : β → γ} {e : ε' → ε} (h : x.map f = y.mapError e) :
    (∃ b, x = .ok b ∧ y = .ok (f b)) ∨ ∃ why, x = .error (e why) ∧ y = .error why := by
  cases x with
  | ok b =>
    cases y with
    | ok c => exact .inl ⟨b, rfl, congrArg Except.ok (Except.ok.inj h).symm⟩
    | error why => cases h
  | error fault =>
    cases y with
    | ok c => cases h
    | error why => exact .inr ⟨why, congrArg Except.error (Except.error.inj h), rfl⟩

end Reaming

namespace Reaming.PathData

variable {α : Type}

def Token.value? [Scalar α] : Token → Option α
  | .command _ => none
  | .number text => Scalar.read? text

/-- Why buffered operands are not carried out: one is missing at a place, or they are refused. -/
inductive Fault where
  | outOfRange (place : Nat)
  | refused (why : Error)
  deriving DecidableEq, Repr

namespace Reader

def operandAt (r : Reader α) (i : Nat) : Except Fault α :=
  match r.operands[i]? with
  | none => .error (.outOfRange i)
  | some x => .ok x

def buffer (r : Reader α) (value : α) : Reader α := { r with operands := r.operands ++ [value] }

def clear (r : Reader α) : Reader α := { r with operands := [] }

def Full (r : Reader α) : Prop := r.operands.length = r.command.verb.arity

instance (r : Reader α) : Decidable r.Full := inferInstanceAs (Decidable (_ = _))

variable [Scalar α]

def pointAt (r : Reader α) (i : Nat) : Except Fault (Point α) := do
  return r.locate ⟨← r.operandAt i, ← r.operandAt (i + 1)⟩

def drawn (r : Reader α) (c : Curve α) : Except Fault (Reader α) := (r.draw c).mapError .refused

/-- Carries out the buffered operands, each read from its place in the buffer. -/
def emit (r : Reader α) : Except Fault (Reader α) :=
  match r.command.verb with
  | .moveTo => do return r.moveTo (← r.pointAt 0)
  | .lineTo => do r.drawn (.line r.pen (← r.pointAt 0))
  | .horizontalTo => do
    let x ← r.operandAt 0
    r.drawn (.line r.pen (if r.command.relative then r.pen + ⟨x, 0.0⟩ else ⟨x, r.pen.y⟩))
  | .verticalTo => do
    let y ← r.operandAt 0
    r.drawn (.line r.pen (if r.command.relative then r.pen + ⟨0.0, y⟩ else ⟨r.pen.x, y⟩))
  | .cubicTo => do r.drawn (.cubic r.pen (← r.pointAt 0) (← r.pointAt 2) (← r.pointAt 4))
  | .smoothCubicTo =>
    match r.previous? with
    | some (.cubic _ _ c _) => do
      r.drawn (.cubic r.pen (c.reflect r.pen) (← r.pointAt 0) (← r.pointAt 2))
    | _ => .error (.refused (.invalidShorthand r.command r.predecessor))
  | .quadraticTo => do r.drawn (.quadratic r.pen (← r.pointAt 0) (← r.pointAt 2))
  | .smoothQuadraticTo =>
    match r.previous? with
    | some (.quadratic _ c _) => do
      r.drawn (.quadratic r.pen (c.reflect r.pen) (← r.pointAt 0))
    | _ => .error (.refused (.invalidShorthand r.command r.predecessor))
  | .closePath | .arcTo => .error (.refused (.unsupportedCommand r.command))

omit [Scalar α] in
theorem drawn_clear (r : Reader α) (c : Curve α) :
    (r.drawn c).map clear = (r.clear.draw c).mapError .refused := by
  rw [drawn, draw, draw, clear]
  cases r.current <;> rfl

/-- Operands that make up a group are carried out as that group. -/
theorem emit_of_group {r : Reader α} {g : Group α}
    (h : Group.of? r.command.verb r.operands = some g) :
    r.emit.map clear = (r.clear.perform g).mapError .refused := by
  have hprevious : r.clear.previous? = r.previous? := rfl
  unfold Group.of? at h
  split at h
  case h_9 => cases h
  case h_1 hv ho =>
    cases h
    simp only [emit, hv, pointAt, operandAt, ho]
    rfl
  -- The smooth curves look at the curve before them first, on either side in the same way.
  case h_6 hv ho | h_8 hv ho =>
    cases h
    simp only [emit, hv, pointAt, operandAt, ho, perform, hprevious]
    cases r.previous? with
    | none => rfl
    | some c => cases c <;> first | rfl | exact drawn_clear _ _
  all_goals
    rename_i hv ho
    cases h
    simp only [emit, hv, pointAt, operandAt, ho]
    exact drawn_clear _ _

/-- With a subpath to draw on, a group is carried out unless it is a smooth curve out of place. -/
theorem perform_total {r : Reader α} {g : Group α} (h : g.isMove = true ∨ r.current.isSome = true) :
    (∃ s, r.perform g = .ok s) ∨
      ∃ previous, r.perform g = .error (.invalidShorthand r.command previous) := by
  have hdraw (current : r.current.isSome = true) (c : Curve α) : ∃ s, r.draw c = .ok s := by
    obtain ⟨p, hp⟩ := Option.isSome_iff_exists.mp current
    exact ⟨_, by rw [draw, hp]⟩
  cases g with
  | moveTo p => exact .inl ⟨_, rfl⟩
  | lineTo | horizontalTo | verticalTo | cubicTo | quadraticTo =>
    exact .inl (hdraw (h.resolve_left Bool.false_ne_true) _)
  | smoothCubicTo | smoothQuadraticTo =>
    rw [perform]
    split
    · exact .inl (hdraw (h.resolve_left Bool.false_ne_true) _)
    · exact .inr ⟨_, rfl⟩

structure Steady (r : Reader α) : Prop where
  fewer : r.command.verb ≠ .closePath → r.operands.length < r.command.verb.arity
  idle : r.command.verb = .closePath → r.operands = []
  known : r.command.verb ≠ .arcTo
  current : r.command.verb ≠ .moveTo → r.current.isSome = true

omit [Scalar α] in
theorem steady_of_idle {r : Reader α} (idle : r.operands = []) (known : r.command.verb ≠ .arcTo)
    (current : r.command.verb ≠ .moveTo → r.current.isSome = true) : r.Steady where
  fewer hv := by
    rw [idle]
    exact Verb.arity_pos hv
  idle _ := idle
  known := known
  current := current

theorem initial_steady : (initial : Reader α).Steady := steady_of_idle rfl nofun (absurd rfl)

theorem begin_idle {r s : Reader α} {c : Command} (h : r.begin c = .ok s) :
    r.operands = [] ∧ s.operands = [] ∧ s.Steady := by
  obtain ⟨idle, ⟨hv, rfl⟩ | ⟨hv, hclose⟩ | ⟨hv, hreopen⟩⟩ := begin_cases h
  · exact ⟨idle, idle, steady_of_idle idle (by simp [hv]) (absurd hv)⟩
  · obtain ⟨p, -, rfl⟩ := closePath_cases hclose
    exact ⟨idle, idle, steady_of_idle idle (by simp [hv]) fun _ => rfl⟩
  · obtain ⟨p, -, rfl⟩ := reopen_cases hreopen
    refine ⟨idle, idle, steady_of_idle idle ?_ fun _ => rfl⟩
    rintro harc
    rw [harc] at hv
    cases hv

omit [Scalar α] in
/-- One more operand completes a group exactly if the buffer is then full. -/
theorem Steady.complete {r : Reader α} (hr : r.Steady) (hv : r.command.verb ≠ .closePath)
    (value : α) : (Group.of? r.command.verb (r.operands ++ [value])).isSome ↔
      (r.buffer value).Full := by
  rw [Group.of?_isSome_iff, and_iff_right hv, and_iff_right hr.known]
  rfl

theorem Steady.operand {r s : Reader α} (hr : r.Steady) {text : List Char} {value : α}
    (h : r.operand text value = .ok s) : s.Steady := by
  obtain ⟨hv, ⟨hgroup, rfl⟩ | ⟨g, hgroup, hperform⟩⟩ := operand_cases h
  · have hshort : (r.operands ++ [value]).length ≠ r.command.verb.arity := fun hfull => by
      simpa [hgroup] using (hr.complete hv value).mpr hfull
    have hfewer : (r.operands ++ [value]).length < r.command.verb.arity := by
      have hbefore := hr.fewer hv
      rw [List.length_append, List.length_singleton] at hshort ⊢
      omega
    exact { hr with fewer := fun _ => hfewer, idle := fun hclose => absurd hclose hv }
  · rcases perform_cases hperform with ⟨-, p, rfl⟩ | ⟨hmove, c, -, hdraw⟩
    · exact steady_of_idle rfl nofun fun _ => rfl
    · obtain ⟨p, -, rfl⟩ := draw_cases hdraw
      exact steady_of_idle rfl hr.known fun _ => rfl

theorem Steady.feed {r s : Reader α} {t : Token} (hr : r.Steady) (h : r.feed t = .ok s) :
    s.Steady := by
  cases t with
  | command c => exact (begin_idle h).2.2
  | number text =>
    obtain ⟨value, -, h⟩ := feed_number_cases h
    exact hr.operand h

/-- A full buffer is read within its bounds, and refused only as a smooth curve out of place. -/
theorem Steady.emit_total {r : Reader α} (hr : r.Steady) (hv : r.command.verb ≠ .closePath)
    {value : α} (full : (r.buffer value).Full) :
    (∃ s, (r.buffer value).emit = .ok s) ∨ ∃ previous,
      (r.buffer value).emit = .error (.refused (.invalidShorthand r.command previous)) := by
  obtain ⟨g, hg⟩ := Option.isSome_iff_exists.mp ((hr.complete hv value).mpr full)
  have hemit := emit_of_group (r := r.buffer value) hg
  have hcurrent : g.isMove = true ∨ r.current.isSome = true := by
    rw [Group.isMove_iff, Group.verb_of? hg]
    exact Decidable.or_iff_not_imp_left.mpr hr.current
  have hperform := perform_total (r := (r.buffer value).clear) hcurrent
  -- What the group comes to, the places come to as well.
  rcases cases_of_map_eq_mapError hemit with ⟨s, hs, -⟩ | ⟨why, hs, hwhy⟩
  · exact .inl ⟨s, hs⟩
  · rcases hperform with ⟨s, hok⟩ | ⟨previous, herror⟩
    · cases hok.symm.trans hwhy
    · obtain rfl := Except.error.inj (herror.symm.trans hwhy)
      exact .inr ⟨previous, hs⟩

end Reader

/-- A reader with the groups that it has carried out, in order, each with its command. -/
structure Ledger (α : Type) where
  reader : Reader α
  spent : List (Command × List α)

namespace Ledger

variable [Scalar α]

def initial : Ledger α := ⟨.initial, []⟩

def push (l : Ledger α) (text : List Char) (value : α) : Except Fault (Ledger α) :=
  if l.reader.command.verb = .closePath then .error (.refused (.unexpectedOperand text))
  else
    let r := l.reader.buffer value
    if r.Full then r.emit.map fun s => ⟨s.clear, l.spent ++ [(r.command, r.operands)]⟩
    else .ok ⟨r, l.spent⟩

def feed (l : Ledger α) : Token → Except Fault (Ledger α)
  | .command c => ((l.reader.begin c).mapError .refused).map fun r => ⟨r, l.spent⟩
  | .number text =>
    match Scalar.read? text with
    | none => .error (.refused (.malformedNumber text))
    | some value => l.push text value

/-- In a steady state the places of the buffer do what its group does. -/
theorem push_reader {l : Ledger α} (h : l.reader.Steady) (text : List Char) (value : α) :
    (l.push text value).map reader = (l.reader.operand text value).mapError .refused := by
  rw [push, Reader.operand]
  by_cases hv : l.reader.command.verb = .closePath
  · rw [if_pos hv, if_pos hv]
    rfl
  · rw [if_neg hv, if_neg hv]
    have hcomplete := h.complete hv value
    dsimp only
    cases hg : Group.of? l.reader.command.verb (l.reader.operands ++ [value]) with
    | none =>
      rw [hg] at hcomplete
      rw [if_neg fun hfull => Bool.false_ne_true (hcomplete.mpr hfull)]
      rfl
    | some g =>
      rw [hg] at hcomplete
      rw [if_pos (hcomplete.mp rfl)]
      calc _ = (l.reader.buffer value).emit.map Reader.clear := by
            cases (l.reader.buffer value).emit <;> rfl
        _ = _ := Reader.emit_of_group hg

theorem feed_reader {l : Ledger α} (h : l.reader.Steady) (t : Token) :
    (l.feed t).map reader = (l.reader.feed t).mapError .refused := by
  cases t with
  | command c =>
    rw [feed, Reader.feed]
    cases l.reader.begin c <;> rfl
  | number text =>
    rw [feed, Reader.feed]
    cases Scalar.read? (α := α) text with
    | none => rfl
    | some value => exact push_reader h text value

/-- A run over the places of the buffer is the run over the groups: it ends alike, and it fails only
where that is refused. -/
theorem foldlM_feed_reader {l : Ledger α} (h : l.reader.Steady) (ts : List Token) :
    (ts.foldlM feed l).map reader = (ts.foldlM Reader.feed l.reader).mapError .refused := by
  induction ts generalizing l with
  | nil => rfl
  | cons t ts ih =>
    rw [List.foldlM_cons, List.foldlM_cons]
    rcases cases_of_map_eq_mapError (feed_reader h t) with ⟨l', hl, hr⟩ | ⟨why, hl, hr⟩
    · rw [hl, hr]
      exact ih (h.feed hr)
    · rw [hl, hr]
      rfl

/-- The operands so far: each has been carried out in one group, in order, or waits in the
buffer. -/
structure Accounts (l : Ledger α) (xs : List α) : Prop where
  steady : l.reader.Steady
  operands : l.spent.flatMap Prod.snd ++ l.reader.operands = xs
  whole : ∀ e ∈ l.spent, (Group.of? e.1.verb e.2).isSome = true

theorem initial_accounts : (initial : Ledger α).Accounts [] where
  steady := Reader.initial_steady
  operands := rfl
  whole := nofun

theorem Accounts.push {l l' : Ledger α} {xs : List α} (h : l.Accounts xs) {text : List Char}
    {value : α} (hl : l.push text value = .ok l') :
    l'.spent.flatMap Prod.snd ++ l'.reader.operands = xs ++ [value] ∧
      ∀ e ∈ l'.spent, (Group.of? e.1.verb e.2).isSome = true := by
  rw [Ledger.push] at hl
  split at hl
  · cases hl
  · rename_i hv
    dsimp only at hl
    split at hl
    · rename_i hfull
      obtain ⟨s, -, rfl⟩ := exists_of_map_ok hl
      refine ⟨?_, List.forall_mem_append.mpr ⟨h.whole, List.forall_mem_singleton.mpr ?_⟩⟩
      · rw [← h.operands]
        simp [Reader.clear, Reader.buffer]
      · exact (h.steady.complete hv value).mpr hfull
    · cases hl
      refine ⟨?_, h.whole⟩
      rw [← h.operands]
      simp [Reader.buffer]

theorem Accounts.feed {l l' : Ledger α} {xs : List α} (h : l.Accounts xs) {t : Token}
    (hl : l.feed t = .ok l') : l'.Accounts (xs ++ (t.value? : Option α).toList) := by
  have hsteady : l'.reader.Steady := by
    rcases cases_of_map_eq_mapError (feed_reader h.steady t) with ⟨l₁, hl₁, hr⟩ | ⟨why, hl₁, -⟩
    · obtain rfl : l' = l₁ := Except.ok.inj (hl.symm.trans hl₁)
      exact h.steady.feed hr
    · cases hl.symm.trans hl₁
  cases t with
  | command c =>
    obtain ⟨r, hr, rfl⟩ := exists_of_map_ok hl
    cases hbegin : l.reader.begin c with
    | error why =>
      rw [hbegin] at hr
      cases hr
    | ok s =>
      rw [hbegin] at hr
      obtain rfl := Except.ok.inj hr
      obtain ⟨hbefore, hafter, -⟩ := Reader.begin_idle hbegin
      refine ⟨hsteady, ?_, h.whole⟩
      have hoperands := h.operands
      rw [hbefore] at hoperands
      rw [hafter, hoperands]
      exact (List.append_nil xs).symm
  | number text =>
    rw [Ledger.feed] at hl
    split at hl
    · cases hl
    · rename_i value hvalue
      obtain ⟨operands, whole⟩ := h.push hl
      rw [Token.value?, hvalue]
      exact ⟨hsteady, operands, whole⟩

theorem Accounts.foldlM {l l' : Ledger α} {xs : List α} (h : l.Accounts xs) {ts : List Token}
    (hl : ts.foldlM Ledger.feed l = .ok l') :
    l'.Accounts (xs ++ ts.filterMap Token.value?) := by
  induction ts generalizing l xs with
  | nil =>
    cases hl
    rwa [List.filterMap_nil, List.append_nil]
  | cons t ts ih =>
    rw [List.foldlM_cons] at hl
    cases hstep : l.feed t with
    | error fault =>
      rw [hstep] at hl
      cases hl
    | ok l₁ =>
      rw [hstep] at hl
      have hrest := ih (h.feed hstep) hl
      cases hvalue : (t.value? : Option α) <;> simpa [hvalue] using hrest

end Ledger

/-- After any tokens the buffer is short of a group, no arc is being read, and there is a subpath
unless one is about to begin. So a full buffer is read within its bounds and is refused only as a
smooth curve out of place. A reader that goes by the places of the buffer is then the reader that
goes by groups, and it hands every operand on once, in order, in a group of the length that its verb
takes. -/
theorem emission_accounted [Scalar α] (ts : List Token) :
    (ts.foldlM Ledger.feed Ledger.initial).map Ledger.reader =
      (ts.foldlM Reader.feed (.initial : Reader α)).mapError .refused ∧
    (∀ r : Reader α, ts.foldlM Reader.feed .initial = .ok r → r.Steady ∧
      (∀ value, r.command.verb ≠ .closePath → (r.buffer value).Full →
        (∃ s, (r.buffer value).emit = .ok s) ∨ ∃ previous,
          (r.buffer value).emit = .error (.refused (.invalidShorthand r.command previous))) ∧
      ∃ spent, ts.foldlM Ledger.feed Ledger.initial = .ok ⟨r, spent⟩ ∧
        spent.flatMap Prod.snd ++ r.operands = ts.filterMap Token.value? ∧
        ∀ e ∈ spent, e.1.verb ≠ .closePath ∧ e.1.verb ≠ .arcTo ∧ e.2.length = e.1.verb.arity) ∧
    ∀ ps : List (Path α), readTokens ts = .ok ps → ∃ l,
      ts.foldlM Ledger.feed Ledger.initial = .ok l ∧ ps = l.reader.paths ∧
      l.spent.flatMap Prod.snd = ts.filterMap Token.value? := by
  have hrun := Ledger.foldlM_feed_reader (α := α) (l := .initial) Reader.initial_steady ts
  have reached {r : Reader α} (hr : ts.foldlM Reader.feed .initial = .ok r) :
      ∃ spent, ts.foldlM Ledger.feed Ledger.initial = .ok ⟨r, spent⟩ ∧
        Ledger.Accounts ⟨r, spent⟩ (ts.filterMap Token.value?) := by
    change _ = Except.mapError _ (ts.foldlM Reader.feed .initial) at hrun
    rw [hr] at hrun
    obtain ⟨⟨r, spent⟩, hl, rfl⟩ := exists_of_map_ok hrun
    exact ⟨spent, hl, Ledger.initial_accounts.foldlM hl⟩
  refine ⟨hrun, ?_, ?_⟩
  · intro r hr
    obtain ⟨spent, hl, steady, operands, whole⟩ := reached hr
    exact ⟨steady, fun value hv full => steady.emit_total hv full, spent, hl, operands,
      fun e he => (Group.of?_isSome_iff e.1.verb e.2).mp (whole e he)⟩
  · intro ps hps
    obtain ⟨r, hr, idle, rfl⟩ := readTokens_cases hps
    obtain ⟨spent, hl, -, operands, -⟩ := reached hr
    refine ⟨⟨r, spent⟩, hl, rfl, ?_⟩
    dsimp only at operands
    rwa [idle, List.append_nil] at operands

def unfinished : List Token := tokens "M1 2c1 0 2 0 3 1s1 1 3".toList

theorem emission_accounted_unfinished :
    ∃ (r : Reader Float) (spent : List (Command × List Float)),
      unfinished.foldlM Ledger.feed Ledger.initial = .ok ⟨r, spent⟩ ∧ r.Steady ∧
      (spent.flatMap Prod.snd).length = 8 ∧ r.operands.length = 3 ∧
      ∀ value, (r.buffer value).Full ∧ ((∃ s, (r.buffer value).emit = .ok s) ∨ ∃ previous,
        (r.buffer value).emit = .error (.refused (.invalidShorthand r.command previous))) := by
  have hview : (unfinished.foldlM Reader.feed (.initial : Reader Float)).map
      (fun r => (r.command.verb, r.operands.length)) = .ok (.smoothCubicTo, 3) := by
    decide +kernel
  have hcount : (unfinished.filterMap Token.value? : List Float).length = 11 := by decide +kernel
  obtain ⟨r, hr, hview⟩ := exists_of_map_ok hview
  obtain ⟨hverb, hbuffered⟩ := Prod.mk.inj hview
  obtain ⟨steady, emits, spent, hl, operands, -⟩ := (emission_accounted unfinished).2.1 r hr
  refine ⟨r, spent, hl, steady, ?_, hbuffered, fun value => ?_⟩
  · rw [← operands, List.length_append, hbuffered] at hcount
    exact Nat.add_right_cancel hcount
  · have hfull : (r.buffer value).Full := by
      rw [Reader.Full, Reader.buffer, List.length_append, hbuffered, hverb]
      rfl
    exact ⟨hfull, emits value (by simp [hverb]) hfull⟩

end Reaming.PathData
