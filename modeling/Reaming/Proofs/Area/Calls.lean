import Mathlib.Data.List.Induction
import Reaming.Area.Policy
import Reaming.Proofs.Area.NetArea

namespace Reaming

/-- A figure to be measured, and the figures from which others may be taken off it. -/
structure Call (α : Type) where
  this : Placed α
  figures : List (Placed α)

variable {α : Type}

theorem others_lt_length {this : Placed α} {figures : List (Placed α)} (h : this ∈ figures) :
    others this figures < figures.length := by
  refine Nat.lt_of_le_of_ne (others_le_length this figures) fun heq => ?_
  have hne := List.countP_eq_length.mp heq this h
  simp at hne

/-- A selection up to `f` may be as long as all before `f`, but then `f` itself is in it. -/
theorem others_filter_le (f : Placed α) (before : List (Placed α)) (p : Placed α → Bool) :
    others f ((before ++ [f]).filter p) ≤ before.countP p := by
  have hself : others f ([f].filter p) = 0 := by
    cases h : p f <;> simp [others, h]
  calc others f ((before ++ [f]).filter p)
      = others f (before.filter p) + others f ([f].filter p) := by
        rw [List.filter_append]
        exact List.countP_append
    _ = others f (before.filter p) := by rw [hself, Nat.add_zero]
    _ ≤ (before.filter p).length := others_le_length f _
    _ = before.countP p := List.countP_eq_length_filter.symm

theorem length_closedOf_placed (figures : List (Figure α)) :
    (closedOf (placed figures)).length = figures.countP (·.closed) := by
  rw [← List.length_map Placed.figure, map_closedOf, placed_figure, List.countP_eq_length_filter]

variable [Scalar α]

def isInside (this f : Placed α) : Bool :=
  isOther this f && this.figure.bounds.encloses f.figure.bounds

theorem insideSoFar_eq {this f : Placed α} (inside : List (Placed α))
    (h : isOther this f = true) :
    insideSoFar this f inside = inside ++ [f].filter (isInside this) := by
  unfold insideSoFar
  cases henc : this.figure.bounds.encloses f.figure.bounds <;> simp [isInside, h, henc]

/-- The calls that measuring `this` makes for `figures`, with those `inside` met before. -/
def callsFor (this : Placed α) (inside : List (Placed α)) : List (Placed α) → List (Call α)
  | [] => []
  | f :: figures =>
    if isOther this f then
      ⟨f, insideSoFar this f inside⟩ :: callsFor this (insideSoFar this f inside) figures
    else callsFor this inside figures

section callsFor
variable {this f : Placed α} (inside figures : List (Placed α))

theorem callsFor_skip (h : isOther this f = false) :
    callsFor this inside (f :: figures) = callsFor this inside figures := by
  rw [callsFor, h, if_neg Bool.false_ne_true]

theorem callsFor_take (h : isOther this f = true) :
    callsFor this inside (f :: figures) =
      ⟨f, insideSoFar this f inside⟩ :: callsFor this (insideSoFar this f inside) figures := by
  rw [callsFor, if_pos h]

theorem length_callsFor :
    (callsFor this inside figures).length = figures.countP (isOther this) := by
  induction figures generalizing inside with
  | nil => rfl
  | cons f figures ih =>
    cases h : isOther this f with
    | false => rw [callsFor_skip _ _ h, List.countP_cons_of_neg (by simp [h]), ih]
    | true => rw [callsFor_take _ _ h, List.countP_cons_of_pos h, List.length_cons, ih]

theorem callsFor_append (later : List (Placed α)) :
    callsFor this inside (figures ++ later) = callsFor this inside figures ++
      callsFor this (inside ++ figures.filter (isInside this)) later := by
  induction figures generalizing inside with
  | nil => rw [List.filter_nil, List.append_nil, callsFor, List.nil_append, List.nil_append]
  | cons f figures ih =>
    have hcons : (f :: figures).filter (isInside this) =
        [f].filter (isInside this) ++ figures.filter (isInside this) :=
      List.filter_append [f] figures
    rw [List.cons_append, hcons, ← List.append_assoc]
    cases h : isOther this f with
    | false =>
      have hskip : [f].filter (isInside this) = [] := by simp [isInside, h]
      rw [callsFor_skip _ _ h, callsFor_skip _ _ h, ih, hskip, List.append_nil]
    | true =>
      rw [callsFor_take _ _ h, callsFor_take _ _ h, ih, insideSoFar_eq _ h, List.cons_append]

/-- With each figure goes what was met up to it and is inside `this`. -/
theorem mem_callsFor_iff {inside figures : List (Placed α)} {d : Call α} :
    d ∈ callsFor this inside figures ↔ ∃ before after, figures = before ++ d.this :: after ∧
      isOther this d.this = true ∧
      d.figures = inside ++ (before ++ [d.this]).filter (isInside this) := by
  constructor
  · intro h
    -- From the last figure on, so that those met before stay the same.
    induction figures using List.reverseRecOn with
    | nil => cases h
    | append_singleton figures f ih =>
      rw [callsFor_append] at h
      rcases List.mem_append.mp h with h | h
      · obtain ⟨before, after, rfl, hd, hfigures⟩ := ih h
        exact ⟨before, after ++ [f], by rw [List.append_assoc, List.cons_append], hd, hfigures⟩
      · cases hf : isOther this f with
        | false =>
          rw [callsFor_skip _ _ hf] at h
          cases h
        | true =>
          rw [callsFor_take _ _ hf, insideSoFar_eq _ hf] at h
          obtain rfl := List.mem_singleton.mp h
          exact ⟨figures, [], rfl, hf, by rw [List.append_assoc, ← List.filter_append]⟩
  · rintro ⟨before, after, rfl, hd, hfigures⟩
    rw [callsFor_append, callsFor_take _ _ hd, insideSoFar_eq _ hd, List.append_assoc,
      ← List.filter_append, ← hfigures]
    exact List.mem_append_right _ List.mem_cons_self

end callsFor

namespace Call

def answer (c : Call α) : α := netArea c.this c.figures

def next (c : Call α) : List (Call α) := callsFor c.this [] c.figures

theorem subtractNet_eq_foldl (this : Placed α) (area : α) (inside figures : List (Placed α)) :
    subtractNet this area inside figures =
      (callsFor this inside figures).foldl (fun area d => area - d.answer) area := by
  induction figures generalizing area inside with
  | nil => rw [subtractNet, callsFor, List.foldl_nil]
  | cons f figures ih =>
    cases h : isOther this f with
    | false => rw [subtractNet_skip _ _ _ h, callsFor_skip _ _ h, ih]
    | true =>
      rw [subtractNet_take _ _ _ h, callsFor_take _ _ h, List.foldl_cons, ih]
      rfl

/-- A call takes the answers of the calls that it makes off the area of its figure. -/
theorem answer_eq (c : Call α) :
    c.answer = c.next.foldl (fun area d => area - d.answer) c.this.figure.area := by
  rw [answer, netArea, subtractNet_eq_foldl, next]

/-- A call is made for each closed figure other than `this`, and goes through those inside `this`
that were met up to it. -/
theorem mem_next_iff {c d : Call α} :
    d ∈ c.next ↔ ∃ before after, c.figures = before ++ d.this :: after ∧
      isOther c.this d.this = true ∧ d.figures = (before ++ [d.this]).filter (isInside c.this) :=
  mem_callsFor_iff

theorem length_next (c : Call α) : c.next.length = c.figures.countP (isOther c.this) :=
  length_callsFor [] c.figures

theorem length_next_le (c : Call α) : c.next.length ≤ others c.this c.figures := by
  rw [length_next]
  exact List.countP_mono_left fun f _ hf => (Bool.and_eq_true_iff.mp hf).1

/-- All that goes down with a figure, but for the figure itself, has been met before it. -/
theorem others_lt_length_next {c d : Call α} (h : d ∈ c.next) :
    others d.this d.figures < c.next.length := by
  obtain ⟨before, after, hsplit, hd, hfigures⟩ := mem_next_iff.mp h
  have hhanded := others_filter_le d.this before (isInside c.this)
  have hmet : before.countP (isInside c.this) ≤ before.countP (isOther c.this) :=
    List.countP_mono_left fun f _ hf => (Bool.and_eq_true_iff.mp hf).1
  rw [length_next, hsplit, hfigures, List.countP_append, List.countP_cons_of_pos hd]
  omega

/-- With every call the figures other than the one to be measured get fewer. -/
theorem others_lt {c d : Call α} (h : d ∈ c.next) :
    others d.this d.figures < others c.this c.figures :=
  Nat.lt_of_lt_of_le (others_lt_length_next h) c.length_next_le

/-- A call makes fewer calls than the one that made it. -/
theorem length_next_lt {c d : Call α} (h : d ∈ c.next) : d.next.length < c.next.length :=
  Nat.lt_of_le_of_lt d.length_next_le (others_lt_length_next h)

/-- Below a call no more calls are open at a time than it makes itself. -/
theorem length_le_of_isChain {c : Call α} {calls : List (Call α)}
    (h : (c :: calls).IsChain fun c d => d ∈ c.next) : calls.length ≤ c.next.length := by
  induction calls generalizing c with
  | nil => exact Nat.zero_le _
  | cons d calls ih =>
    obtain ⟨hd, hrest⟩ := List.isChain_cons_cons.mp h
    exact Nat.succ_le_of_lt (Nat.lt_of_le_of_lt (ih hrest) (length_next_lt hd))

/-- The answer of a call if no more than `depth` calls may be open at a time. -/
def answerWithin : Nat → Call α → Option α
  | 0, _ => none
  | depth + 1, c =>
    c.next.foldlM (fun area d => (answerWithin depth d).map (area - ·)) c.this.figure.area

theorem foldlM_answerWithin {calls : List (Call α)} {depth : Nat}
    (h : ∀ d ∈ calls, d.answerWithin depth = some d.answer) (area : α) :
    calls.foldlM (fun area d => (answerWithin depth d).map (area - ·)) area =
      some (calls.foldl (fun area d => area - d.answer) area) := by
  induction calls generalizing area with
  | nil => rfl
  | cons d calls ih =>
    rw [List.foldlM_cons, List.foldl_cons, h d List.mem_cons_self]
    exact ih (fun e he => h e (List.mem_cons_of_mem d he)) _

theorem answerWithin_eq {c : Call α} {depth : Nat} (h : c.next.length < depth) :
    c.answerWithin depth = some c.answer := by
  induction depth generalizing c with
  | zero => cases h
  | succ depth ih =>
    rw [answerWithin, answer_eq]
    apply foldlM_answerWithin
    intro d hd
    exact ih (Nat.lt_of_lt_of_le (length_next_lt hd) (Nat.le_of_lt_succ h))

end Call

def firstCall? (figures : List (Figure α)) : Option (Call α) :=
  (largest? (placed figures)).map fun main => ⟨main, placed figures⟩

theorem length_next_firstCall {figures : List (Figure α)} {c : Call α}
    (h : firstCall? figures = some c) : c.next.length < figures.countP (·.closed) := by
  obtain ⟨main, hmain, rfl⟩ := Option.map_eq_some_iff.mp h
  have hclosed : (placed figures).countP (isOther main) = others main (closedOf (placed figures)) :=
    List.countP_filter.symm
  rw [Call.length_next, hclosed, ← length_closedOf_placed]
  exact others_lt_length (largest?_mem hmain)

def largestWithin (depth : Nat) (figures : List (Figure α)) : Option α :=
  match firstCall? figures with
  | some c => c.answerWithin depth
  | none => some 0.0

theorem largestWithin_eq (figures : List (Figure α)) :
    largestWithin (figures.countP (·.closed)) figures = some (largestMinusOthers figures) := by
  have hfirst (main : Placed α) (h : largest? (placed figures) = some main) :
      firstCall? figures = some ⟨main, placed figures⟩ := by rw [firstCall?, h, Option.map_some]
  unfold largestMinusOthers
  dsimp only
  cases hmain : largest? (placed figures) with
  | none => rw [largestWithin, firstCall?, hmain, Option.map_none]
  | some main =>
    rw [largestWithin, hfirst main hmain]
    exact Call.answerWithin_eq (length_next_firstCall (hfirst main hmain))

/-- Taking net areas off one another comes to an end, whatever the bounds are. A call makes one for
each closed figure that is not its own, with those inside its own that it has met up to that one,
and takes their answers off. Each of them has fewer figures besides its own to go through than the
call that makes it, so that no more calls are ever open at a time than there are closed paths. -/
theorem largestMinusOthers_calls (paths : List (Path α)) :
    let figures := paths.map Path.figure
    let closed := paths.countP (·.closed)
    (∀ c d : Call α, d ∈ c.next ↔ ∃ before after, c.figures = before ++ d.this :: after ∧
      isOther c.this d.this = true ∧ d.figures = (before ++ [d.this]).filter (isInside c.this)) ∧
    (∀ c : Call α, netArea c.this c.figures =
      c.next.foldl (fun area d => area - netArea d.this d.figures) c.this.figure.area) ∧
    (∀ c d : Call α, d ∈ c.next → others d.this d.figures < others c.this c.figures) ∧
    (∀ calls : List (Call α), calls.head? = firstCall? figures →
      calls.IsChain (fun c d => d ∈ c.next) → calls.length ≤ closed) ∧
    largestWithin closed figures = some (composeArea paths .largestMinusOthers) := by
  intro figures closed
  have hclosed : figures.countP (·.closed) = closed := List.countP_map
  refine ⟨fun _ _ => Call.mem_next_iff, Call.answer_eq, fun _ _ => Call.others_lt, ?_, ?_⟩
  · intro calls hfirst hchain
    cases calls with
    | nil => exact Nat.zero_le _
    | cons c calls =>
      have hbound := length_next_firstCall hfirst.symm
      rw [hclosed] at hbound
      exact Nat.succ_le_of_lt (Nat.lt_of_le_of_lt (Call.length_le_of_isChain hchain) hbound)
  · rw [← hclosed]
    exact largestWithin_eq figures

/-- Figures with equal bounds are measured one below the other. -/
example :
    let twins : List (Figure Float) := List.replicate 3 ⟨⟨0.0, 0.0, 1.0, 1.0⟩, 1.0, true⟩
    largestWithin 2 twins = none ∧ largestWithin 3 twins = some 0.0 := by
  decide +kernel

end Reaming
