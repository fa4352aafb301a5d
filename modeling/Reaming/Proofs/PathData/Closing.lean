import Mathlib.Data.List.Forall2
import Reaming.Proofs.PathData.Chained
import Reaming.Proofs.PathData.Grammar

namespace Reaming.PathData

variable {α : Type}

/-- The pieces after which a subpath is open: a letter that draws, whether anything is drawn with it
or not, and a drawn segment. -/
def Item.reopens : Item α → Bool
  | .letter c => c.verb.draws
  | .group _ g => !g.isMove

def lastCloses (opens : Item α → Bool) (body : List (Item α)) : Bool :=
  (body.filter fun i => i.isClose || opens i).getLast?.any Item.isClose

/-- A moveto pair begins a body. Any other piece belongs to the last body. -/
def addPiece (bs : List (List (Item α))) (i : Item α) : List (List (Item α)) :=
  if i.isMove then bs ++ [[]] else bs.dropLast ++ (bs.getLast?.map (· ++ [i])).toList

/-- For every moveto pair, the pieces behind it up to the next. -/
def bodies (is : List (Item α)) : List (List (Item α)) := is.foldl addPiece []

def drawnBodies (is : List (Item α)) : List (List (Item α)) :=
  (bodies is).filter fun body => body.any Item.draws

theorem lastCloses_concat (opens : Item α → Bool) (body : List (Item α)) (i : Item α) :
    lastCloses opens (body ++ [i]) =
      if (i.isClose || opens i) = true then i.isClose else lastCloses opens body := by
  rw [lastCloses, List.filter_append, List.filter_singleton]
  cases h : (i.isClose || opens i) with
  | true => simp
  | false => simp [lastCloses]

theorem lastCloses_append {opens : Item α → Bool} (body : List (Item α)) {rest : List (Item α)}
    (h : ∀ i ∈ rest, (i.isClose || opens i) = false) :
    lastCloses opens (body ++ rest) = lastCloses opens body := by
  have hnil : rest.filter (fun i => i.isClose || opens i) = [] := by
    rw [List.filter_eq_nil_iff]
    intro i hi
    rw [h i hi]
    exact Bool.false_ne_true
  rw [lastCloses, List.filter_append, hnil, List.append_nil]
  rfl

theorem lastCloses_iff {opens : Item α → Bool} {body : List (Item α)} :
    lastCloses opens body = true ↔ ∃ before z after, body = before ++ z :: after ∧
      z.isClose = true ∧ ∀ i ∈ after, (i.isClose || opens i) = false := by
  constructor
  · intro h
    induction body using List.reverseRecOn with
    | nil => cases h
    | append_singleton body i ih =>
      rw [lastCloses_concat] at h
      split at h
      · exact ⟨body, i, [], rfl, h, nofun⟩
      · rename_i hi
        obtain ⟨before, z, after, rfl, hz, hafter⟩ := ih h
        refine ⟨before, z, after ++ [i], by simp, hz, ?_⟩
        intro j hj
        rcases List.mem_append.mp hj with hj | hj
        · exact hafter j hj
        · rw [List.mem_singleton.mp hj]
          exact Bool.not_eq_true _ ▸ hi
  · rintro ⟨before, z, after, rfl, hz, hafter⟩
    rw [List.append_cons, lastCloses_append _ hafter, lastCloses_concat, hz]
    rfl

/-- A drawing letter behind the last close-path that nothing is drawn with and that no other
close-path follows. -/
def Undone (body : List (Item α)) : Prop :=
  ∃ before c after, body = before ++ .letter c :: after ∧ c.verb.draws = true ∧
    lastCloses Item.draws before = true ∧ ∀ i ∈ after, (i.isClose || i.draws) = false

theorem Item.isClose_of_draws {c : Command} (h : c.verb.draws = true) :
    (Item.letter c : Item α).isClose = false := by
  rw [isClose, beq_eq_false_iff_ne]
  intro hv
  rw [hv] at h
  cases h

theorem Item.reopens_of_draws {i : Item α} (h : i.draws = true) : i.reopens = true := by
  cases i with
  | letter c => cases h
  | group c g => exact h

/-- Drawing letters without operands are all that comes between a close-path behind the last segment
and a closed path. -/
theorem lastCloses_draws_iff (body : List (Item α)) :
    lastCloses Item.draws body = true ↔ lastCloses Item.reopens body = true ∨ Undone body := by
  constructor
  · intro h
    obtain ⟨before, z, after, rfl, hz, hafter⟩ := lastCloses_iff.mp h
    by_cases hletters : ∃ i ∈ after, i.reopens = true
    · right
      obtain ⟨i, hi, hreopens⟩ := hletters
      obtain ⟨xs, ys, rfl⟩ := List.append_of_mem hi
      have hrest := fun j hj => hafter j (List.mem_append_right xs (List.mem_cons_of_mem i hj))
      cases i with
      | group c g =>
        have hdraws := hafter _ hi
        rw [show (Item.group c g).draws = true from hreopens, Bool.or_true] at hdraws
        cases hdraws
      | letter c =>
        refine ⟨before ++ z :: xs, c, ys, by simp, hreopens, ?_, hrest⟩
        exact lastCloses_iff.mpr ⟨before, z, xs, rfl, hz, fun j hj =>
          hafter j (List.mem_append_left _ hj)⟩
    · left
      refine lastCloses_iff.mpr ⟨before, z, after, rfl, hz, ?_⟩
      intro i hi
      have hclose := (Bool.or_eq_false_iff.mp (hafter i hi)).1
      have hreopens : i.reopens = false := Bool.eq_false_iff.mpr fun hr => hletters ⟨i, hi, hr⟩
      rw [hclose, hreopens]
      rfl
  · rintro (h | ⟨before, c, after, rfl, hc, hbefore, hafter⟩)
    · obtain ⟨before, z, after, rfl, hz, hafter⟩ := lastCloses_iff.mp h
      refine lastCloses_iff.mpr ⟨before, z, after, rfl, hz, ?_⟩
      intro i hi
      obtain ⟨hclose, hreopens⟩ := Bool.or_eq_false_iff.mp (hafter i hi)
      have hdraws : i.draws = false := by
        apply Bool.eq_false_iff.mpr
        intro hd
        rw [Item.reopens_of_draws hd] at hreopens
        cases hreopens
      rw [hclose, hdraws]
      rfl
    · rw [List.append_cons, lastCloses_append _ hafter, lastCloses_concat,
        Item.isClose_of_draws hc]
      exact hbefore

theorem Undone.not_lastCloses {body : List (Item α)} (h : Undone body) :
    lastCloses Item.reopens body = false := by
  obtain ⟨before, c, after, rfl, hc, _, hafter⟩ := h
  rw [List.append_cons]
  induction after using List.reverseRecOn with
  | nil =>
    rw [List.append_nil, lastCloses_concat, Item.isClose_of_draws hc]
    rw [show (Item.letter c : Item α).reopens = true from hc]
    rfl
  | append_singleton after i ih =>
    have hclose := (Bool.or_eq_false_iff.mp (hafter i (by simp))).1
    rw [← List.append_assoc, lastCloses_concat, hclose, ih fun j hj =>
      hafter j (List.mem_append_left _ hj)]
    exact ite_self false

/-- Letters that draw nothing make a difference exactly if they undo a close-path. -/
theorem lastCloses_eq_iff (body : List (Item α)) :
    lastCloses Item.reopens body = lastCloses Item.draws body ↔ ¬Undone body := by
  have hiff := lastCloses_draws_iff body
  by_cases hundone : Undone body
  · rw [hundone.not_lastCloses, hiff.mpr (.inr hundone)]
    exact iff_of_false Bool.false_ne_true (not_not_intro hundone)
  · rw [or_iff_left hundone] at hiff
    exact iff_of_true (Bool.eq_iff_iff.mpr hiff.symm) hundone

theorem addPiece_concat {i : Item α} (hi : i.isMove = false) (bs : List (List (Item α)))
    (body : List (Item α)) : addPiece (bs ++ [body]) i = bs ++ [body ++ [i]] := by
  simp [addPiece, hi]

/-- The path of a subpath has a segment if its body has one, and is then closed if the last piece
that counts is a close-path. -/
structure Told (q : Subpath α) (body : List (Item α)) : Prop where
  empty : q.path.isEmpty = !body.any Item.draws
  closed : q.path.closed = (body.any Item.draws && lastCloses Item.reopens body)

theorem Told.open_of_empty {q : Subpath α} {body : List (Item α)} (h : Told q body)
    (he : q.path.segments = []) : q.path.closed = false := by
  have hempty : q.path.isEmpty = true := List.isEmpty_iff.mpr he
  rw [h.empty, Bool.not_eq_true'] at hempty
  rw [h.closed, hempty, Bool.false_and]

theorem Told.fresh (p : Point α) : Told ⟨p, .empty⟩ ([] : List (Item α)) := ⟨rfl, rfl⟩

/-- A segment that is drawn on an open path. -/
theorem Told.push {q : Subpath α} {body : List (Item α)} (hopen : q.path.closed = false)
    (curve : Curve α) {i : Item α} (hi : i.draws = true) (hclose : i.isClose = false)
    (hreopens : i.reopens = true) :
    Told { q with path := q.path.push (.ofCurve curve) } (body ++ [i]) := by
  constructor
  · simp [Path.isEmpty, Path.push, hi]
  · rw [lastCloses_concat, hclose, hreopens]
    simpa [Path.push] using hopen

theorem Told.letter_moveTo {q : Subpath α} {body : List (Item α)} (h : Told q body) {c : Command}
    (hc : c.verb = .moveTo) : Told q (body ++ [.letter c]) := by
  constructor
  · rw [h.empty]
    simp [Item.draws]
  · rw [lastCloses_concat, h.closed]
    simp [Item.draws, Item.isClose, Item.reopens, hc, Verb.draws]

theorem Told.reopen {q : Subpath α} {body : List (Item α)} (h : Told q body) {c : Command}
    (hc : c.verb.draws = true) :
    Told { q with path := { q.path with closed := false } } (body ++ [.letter c]) := by
  constructor
  · change q.path.isEmpty = _
    rw [h.empty]
    simp [Item.draws]
  · rw [lastCloses_concat, Item.isClose_of_draws hc]
    simp [Item.reopens, hc]

theorem Told.close [Scalar α] {q : Subpath α} {body : List (Item α)} (h : Told q body)
    (pen : Point α) {c : Command} (hc : c.verb = .closePath) :
    Told { q with path := q.path.close pen } (body ++ [.letter c]) := by
  have hempty : (q.path.close pen).isEmpty = q.path.isEmpty := by
    rw [Bool.eq_iff_iff, Path.isEmpty, Path.isEmpty, List.isEmpty_iff, List.isEmpty_iff]
    refine ⟨Path.close_segments_eq_nil, fun hnil => ?_⟩
    rw [Path.closed_close hnil]
    exact hnil
  have hclosed : (q.path.close pen).closed = !q.path.isEmpty := by
    cases hs : q.path.segments with
    | nil =>
      rw [Path.closed_close hs, h.open_of_empty hs, Path.isEmpty, hs]
      rfl
    | cons s ss =>
      have hstart : q.path.start? = some s.start := by rw [Path.start?, hs]; rfl
      rw [Path.close, hstart, Path.isEmpty, hs]
      rfl
  constructor
  · rw [hempty, h.empty]
    simp [Item.draws]
  · have hlast : (Item.letter c : Item α).isClose = true := beq_iff_eq.mpr hc
    rw [hclosed, h.empty, lastCloses_concat, hlast]
    simp [Item.draws]

inductive Tells : Sketch α → List (List (Item α)) → Prop where
  | blank (pen : Point α) : Tells ⟨[], none, pen⟩ []
  | drawing {done : List (Subpath α)} {bs : List (List (Item α))} {q : Subpath α}
      {body : List (Item α)} (before : List.Forall₂ Told done bs) (now : Told q body)
      (pen : Point α) : Tells ⟨done, some q, pen⟩ (bs ++ [body])

theorem Tells.subpaths {s : Sketch α} {bs : List (List (Item α))} (h : Tells s bs) :
    List.Forall₂ Told s.subpaths bs := by
  cases h with
  | blank pen => exact .nil
  | drawing before now pen => exact List.rel_append before (.cons now .nil)

variable [Scalar α]

theorem Tells.letter {s : Sketch α} {bs : List (List (Item α))} (h : Tells s bs) {c : Command}
    (allowed : s.AllowsLetter c.verb) : Tells (s.letter c.verb) (addPiece bs (.letter c)) := by
  obtain ⟨v, relative⟩ := c
  obtain ⟨harc, hcurrent⟩ := allowed
  cases h with
  | blank pen =>
    obtain rfl : v = .moveTo := hcurrent.resolve_right nofun
    exact .blank pen
  | drawing before now pen =>
    rw [addPiece_concat rfl]
    cases v
    case arcTo => exact absurd rfl harc
    case moveTo => exact .drawing before (now.letter_moveTo rfl) pen
    case closePath => exact .drawing before (now.close pen rfl) _
    all_goals exact .drawing before (now.reopen rfl) pen

theorem Sketch.open_letter (s : Sketch α) {v : Verb} (hv : v.draws = true) :
    (s.letter v).Open := by
  have hreopen : (s.letter v).current = s.onPath fun p => { p with closed := false } := by
    cases v <;> first | rfl | cases hv
  intro q hq
  rw [hreopen] at hq
  obtain ⟨q', _, rfl⟩ := Option.map_eq_some_iff.mp hq
  rfl

/-- A group begins a body or goes on with one that is open. -/
theorem Tells.group {s : Sketch α} {bs : List (List (Item α))} (h : Tells s bs) {c : Command}
    {g : Group α} (allowed : s.AllowsGroup g) (hopen : s.Open ∨ g.isMove = true) :
    Tells (s.step (.group c g)) (addPiece bs (.group c g)) ∧ (s.step (.group c g)).Open := by
  cases g with
  | moveTo p =>
    refine ⟨?_, ?_⟩
    · cases h with
      | blank pen =>
        change Tells _ ([] ++ [[]])
        exact .drawing .nil (.fresh _) _
      | drawing before now pen =>
        exact .drawing (List.rel_append before (.cons now .nil)) (.fresh _) _
    · rintro q ⟨⟩
      rfl
  | lineTo | horizontalTo | verticalTo | cubicTo | smoothCubicTo | quadraticTo | smoothQuadraticTo =>
    have hopen := hopen.resolve_right Bool.false_ne_true
    refine ⟨?_, ?_⟩
    · cases h with
      | blank pen => exact absurd (allowed.1.resolve_left Bool.false_ne_true) Bool.false_ne_true
      | drawing before now pen =>
        rw [addPiece_concat rfl]
        exact .drawing before (.push (hopen _ rfl) _ rfl rfl rfl) _
    · intro q hq
      obtain ⟨q', hq', rfl⟩ := Option.map_eq_some_iff.mp hq
      exact hopen q' hq'

theorem Tells.groups {s : Sketch α} {bs : List (List (Item α))} (h : Tells s bs) {c : Command}
    {gs : List (Group α)} (allowed : s.AllowsAll (gs.map (.group c)))
    (hopen : s.Open ∨ ∀ g ∈ gs.head?, g.isMove = true) :
    Tells (s.after (gs.map (.group c))) ((gs.map (.group c)).foldl addPiece bs) := by
  induction gs generalizing s bs with
  | nil => exact h
  | cons g gs ih =>
    obtain ⟨hstep, hopen⟩ := h.group (c := c) allowed.1 (hopen.imp_right fun hg => hg g rfl)
    exact ih hstep allowed.2 (.inl hopen)

theorem Tells.run {s : Sketch α} {bs : List (List (Item α))} (h : Tells s bs) {run : Run α}
    (whole : run.command.verb.arity ∣ run.values.length) (allowed : s.AllowsAll run.items) :
    Tells (s.after run.items) (run.items.foldl addPiece bs) := by
  obtain ⟨⟨v, relative⟩, xs⟩ := run
  refine (h.letter allowed.1).groups allowed.2 ?_
  cases v
  case moveTo => exact .inr (isMove_of_head_groups xs)
  case closePath =>
    right
    rw [Run.groups, groups_of_none rfl]
    intro g hg
    cases hg
  case arcTo => exact absurd rfl allowed.1.1
  all_goals exact .inl (s.open_letter rfl)

theorem Tells.runs {s : Sketch α} {bs : List (List (Item α))} (h : Tells s bs)
    {rs : List (Run α)} (whole : ∀ run ∈ rs, run.command.verb.arity ∣ run.values.length)
    (allowed : s.AllowsAll (rs.flatMap Run.items)) :
    Tells (s.after (rs.flatMap Run.items)) ((rs.flatMap Run.items).foldl addPiece bs) := by
  induction rs generalizing s bs with
  | nil => exact h
  | cons run rs ih =>
    rw [List.forall_mem_cons] at whole
    rw [List.flatMap_cons, Sketch.allowsAll_append] at allowed
    rw [List.flatMap_cons, Sketch.after_append, List.foldl_append]
    exact ih (h.run whole.1 allowed.1) whole.2 allowed.2

omit [Scalar α] in
/-- The paths with a segment are closed as the bodies with a segment tell. -/
theorem closed_of_told {qs : List (Subpath α)} {bs : List (List (Item α))}
    (h : List.Forall₂ Told qs bs) :
    ((qs.map Subpath.path).filter fun p => !p.isEmpty).map Path.closed =
      (bs.filter fun body => body.any Item.draws).map (lastCloses Item.reopens) := by
  induction h with
  | nil => rfl
  | @cons q body qs bs hq _ ih =>
    rw [List.map_cons, List.filter_cons, List.filter_cons, hq.empty, Bool.not_not]
    cases hdraws : body.any Item.draws with
    | false => simpa using ih
    | true =>
      have hclosed := hq.closed
      rw [hdraws, Bool.true_and] at hclosed
      rw [if_pos rfl, if_pos rfl, List.map_cons, List.map_cons, ih, hclosed]

/-- What the pieces draw from nothing is told by their bodies. -/
theorem tells_items {ws : List (Word α)}
    (whole : ∀ run ∈ runs ws, run.command.verb.arity ∣ run.values.length)
    (allowed : Sketch.blank.AllowsAll (items ws)) :
    Tells (Sketch.blank.after (items ws)) (bodies (items ws)) :=
  (Tells.blank .origin).runs whole allowed

end Reaming.PathData
