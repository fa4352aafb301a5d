import Reaming.Proofs.PathData.Closing
import Reaming.Proofs.PathData.Scan

namespace Reaming

variable {α : Type}

def Path.opened (p : Path α) : Path α := { p with closed := false }

theorem Path.opened_close [Scalar α] (p : Path α) (pen : Point α) :
    (p.close pen).opened = (p.opened.close pen).opened := by
  have hstart : p.opened.start? = p.start? := rfl
  unfold close
  rw [hstart]
  cases p.start? with
  | none => rfl
  | some first =>
    dsimp only
    split
    · unfold snapTo
      cases hlast : p.segments.getLast? with
      | none => simp [opened, hlast]
      | some s => simp [opened, hlast]
    · rfl

namespace PathData

def Subpath.opened (q : Subpath α) : Subpath α := { q with path := q.path.opened }

namespace Sketch

def opened (s : Sketch α) : Sketch α :=
  ⟨s.done.map Subpath.opened, s.current.map Subpath.opened, s.pen⟩

theorem previous?_opened (s : Sketch α) : s.opened.previous? = s.previous? := by
  obtain ⟨done, current, pen⟩ := s
  cases current <;> rfl

theorem opened_opened (s : Sketch α) : s.opened.opened = s.opened := by
  obtain ⟨done, current, pen⟩ := s
  cases current <;> simp [opened, Function.comp_def, Subpath.opened, Path.opened]

theorem allows_opened (s : Sketch α) (i : Item α) : s.opened.Allows i ↔ s.Allows i := by
  have hcurrent : s.opened.current.isSome = s.current.isSome := Option.isSome_map
  cases i with
  | letter c => rw [Allows, Allows, AllowsLetter, AllowsLetter, hcurrent]
  | group c g =>
    have hcontinues : s.opened.Continues g ↔ s.Continues g := by
      cases g with
      | smoothCubicTo | smoothQuadraticTo => rw [Continues, Continues, previous?_opened]
      | _ => exact Iff.rfl
    rw [Allows, Allows, AllowsGroup, AllowsGroup, hcurrent, hcontinues]

theorem opened_onPath (s : Sketch α) {f : Path α → Path α} (pen : Point α)
    (h : ∀ p, (f p).opened = (f p.opened).opened) :
    opened { s with current := s.onPath f, pen := pen } =
      opened { s.opened with current := s.opened.onPath f, pen := pen } := by
  obtain ⟨done, current, _⟩ := s
  have hdone : (done.map Subpath.opened).map Subpath.opened = done.map Subpath.opened := by
    rw [List.map_map]
    rfl
  cases current with
  | none => simp [opened, onPath, hdone]
  | some q => simp [opened, onPath, hdone, Subpath.opened, h q.path]

theorem paths_opened (s : Sketch α) : s.opened.paths = s.paths.map Path.opened := by
  have hsubpaths : s.opened.subpaths.map Subpath.path =
      (s.subpaths.map Subpath.path).map Path.opened := by
    obtain ⟨done, current, pen⟩ := s
    cases current <;> simp [opened, subpaths, Subpath.opened]
  rw [paths, hsubpaths, List.filter_map]
  rfl

variable [Scalar α]

theorem opened_put (s : Sketch α) (k : Stroke α) : (s.put k).opened = (s.opened.put k).opened := by
  cases k with
  | moveTo p =>
    obtain ⟨done, current, pen⟩ := s
    cases current <;> simp [put, opened, subpaths, Function.comp_def, Subpath.opened, Path.opened]
  | lineTo | quadraticTo | cubicTo => exact s.opened_onPath _ fun _ => rfl
  | close =>
    have h := s.opened_onPath ((s.current.map Subpath.home).getD s.pen) fun p =>
      p.opened_close s.pen
    obtain ⟨done, current, pen⟩ := s
    cases current <;> exact h

theorem stroke_opened (s : Sketch α) (relative : Bool) (g : Group α) :
    s.opened.stroke relative g = s.stroke relative g := by
  have hmirror : s.opened.mirror = s.mirror := by
    rw [mirror, mirror, previous?_opened]
    rfl
  cases g with
  | smoothCubicTo | smoothQuadraticTo =>
    rw [stroke, stroke, hmirror]
    rfl
  | _ => rfl

/-- The marks of the close-paths matter to no stroke of the pen. -/
theorem opened_step (s : Sketch α) (i : Item α) : (s.step i).opened = (s.opened.step i).opened := by
  cases i with
  | group c g =>
    rw [step, step, stroke_opened]
    exact s.opened_put _
  | letter c =>
    obtain ⟨v, relative⟩ := c
    cases v
    case moveTo | arcTo => exact s.opened_opened.symm
    case closePath => exact s.opened_put .close
    all_goals exact s.opened_onPath s.pen fun _ => rfl

theorem opened_after (s : Sketch α) (is : List (Item α)) :
    (s.after is).opened = (s.opened.after is).opened := by
  induction is generalizing s with
  | nil => exact s.opened_opened.symm
  | cons i is ih =>
    change ((s.step i).after is).opened = ((s.opened.step i).after is).opened
    rw [ih (s.step i), ih (s.opened.step i), opened_step]

theorem allowsAll_opened (s : Sketch α) (is : List (Item α)) :
    s.opened.AllowsAll is ↔ s.AllowsAll is := by
  induction is generalizing s with
  | nil => exact Iff.rfl
  | cons i is ih =>
    rw [AllowsAll, AllowsAll, allows_opened, ← ih (s.step i), opened_step, ih (s.opened.step i)]

/-- A drawing letter changes nothing but the mark of a close-path. -/
theorem opened_letter (s : Sketch α) {v : Verb} (hv : v.draws = true) :
    (s.letter v).opened = s.opened := by
  have hreopen : s.letter v = { s with current := s.onPath Path.opened } := by
    cases v <;> first | rfl | cases hv
  obtain ⟨done, current, pen⟩ := s
  rw [hreopen]
  cases current <;> rfl

end Sketch

/-- What some pieces draw without a letter that draws nothing is what they draw with it, but for the
marks of the close-paths. -/
theorem allowsAll_without [Scalar α] {is js : List (Item α)} {c : Command}
    (hc : c.verb.draws = true) (h : Sketch.blank.AllowsAll (is ++ .letter c :: js)) :
    Sketch.blank.AllowsAll (is ++ js) ∧
      (Sketch.blank.after (is ++ js)).paths.map Path.segments =
        (Sketch.blank.after (is ++ .letter c :: js)).paths.map Path.segments := by
  rw [Sketch.allowsAll_append] at h ⊢
  rw [Sketch.after_append, Sketch.after_append]
  have hletter := (Sketch.blank.after is).opened_letter hc
  have hallowed := (Sketch.allowsAll_opened _ js).mpr h.2.2
  rw [Sketch.step, hletter] at hallowed
  refine ⟨⟨h.1, (Sketch.allowsAll_opened _ js).mp hallowed⟩, ?_⟩
  have hopened : ((Sketch.blank.after is).after js).opened =
      (((Sketch.blank.after is).letter c.verb).after js).opened := by
    rw [Sketch.opened_after, Sketch.opened_after ((Sketch.blank.after is).letter c.verb), hletter]
  have hpaths := congrArg (List.map Path.segments) (congrArg Sketch.paths hopened)
  rw [Sketch.paths_opened, Sketch.paths_opened, List.map_map, List.map_map] at hpaths
  exact hpaths

theorem leading_append {ws₁ ws₂ : List (Word α)} (h : leading ws₂ = []) :
    leading (ws₁ ++ ws₂) = leading ws₁ := by
  induction ws₁ with
  | nil => exact h
  | cons w ws ih =>
    cases w with
    | value x => exact congrArg (x :: ·) ih
    | letter c => rfl

theorem lettered_append {ws₁ ws₂ : List (Word α)} (h : leading ws₂ = []) :
    lettered (ws₁ ++ ws₂) = lettered ws₁ ++ lettered ws₂ := by
  induction ws₁ with
  | nil => rfl
  | cons w ws ih =>
    cases w with
    | value x => exact ih
    | letter c =>
      rw [List.cons_append, lettered, lettered, leading_append h, ih]
      rfl

theorem runs_of_leading {ws : List (Word α)} (h : leading ws = []) : runs ws = lettered ws := by
  rw [runs, h]

/-- Words that begin with a letter have the runs they have alone. -/
theorem runs_append {ws₁ ws₂ : List (Word α)} (h : leading ws₂ = []) :
    runs (ws₁ ++ ws₂) = runs ws₁ ++ runs ws₂ := by
  rw [runs_of_leading h, runs, runs, leading_append h, lettered_append h]
  cases leading ws₁ <;> rfl

theorem groups_nil (v : Verb) : groups v ([] : List α) = [] := by
  apply groups_of_none
  cases v <;> rfl

theorem runs_letter {ws : List (Word α)} (h : leading ws = []) (c : Command) :
    runs (.letter c :: ws) = ⟨c, []⟩ :: runs ws := by
  rw [runs_of_leading h, ← h]
  rfl

theorem items_bare (c : Command) : (⟨c, []⟩ : Run α).items = [.letter c] := by
  rw [Run.items, Run.groups, groups_nil]
  rfl

/-- The letters and groups around a letter without operands are those of the words around it. -/
theorem items_letter {ws₁ ws₂ : List (Word α)} (h : leading ws₂ = []) (c : Command) :
    items (ws₁ ++ .letter c :: ws₂) = items ws₁ ++ .letter c :: items ws₂ := by
  rw [items, runs_append rfl, runs_letter h, List.flatMap_append, List.flatMap_cons, items_bare]
  rfl

theorem items_append {ws₁ ws₂ : List (Word α)} (h : leading ws₂ = []) :
    items (ws₁ ++ ws₂) = items ws₁ ++ items ws₂ := by
  rw [items, runs_append h, List.flatMap_append]
  rfl

/-- Later pieces leave the bodies before the last alone. -/
theorem foldl_addPiece_append {cs : List (List (Item α))} (hcs : cs ≠ []) (is : List (Item α))
    (bs : List (List (Item α))) : is.foldl addPiece (bs ++ cs) = bs ++ is.foldl addPiece cs := by
  induction is generalizing cs with
  | nil => rfl
  | cons i is ih =>
    obtain ⟨cs, body, rfl⟩ := List.eq_nil_or_concat' cs |>.resolve_left hcs
    rw [List.foldl_cons, List.foldl_cons, ← List.append_assoc]
    cases hi : i.isMove with
    | true =>
      simp only [addPiece, hi, if_true]
      rw [List.append_assoc, List.append_assoc bs, List.append_assoc cs]
      exact ih (List.append_ne_nil_of_right_ne_nil _ (List.cons_ne_nil _ _))
    | false =>
      rw [addPiece_concat hi, addPiece_concat hi, List.append_assoc]
      exact ih (List.append_ne_nil_of_right_ne_nil _ (List.cons_ne_nil _ _))

/-- Without a moveto all pieces go to the last body. -/
theorem foldl_addPiece_of_not_move {is : List (Item α)} (h : ∀ i ∈ is, i.isMove = false)
    (bs : List (List (Item α))) (body : List (Item α)) :
    is.foldl addPiece (bs ++ [body]) = bs ++ [body ++ is] := by
  induction is generalizing body with
  | nil => rw [List.append_nil]; rfl
  | cons i is ih =>
    rw [List.forall_mem_cons] at h
    rw [List.foldl_cons, addPiece_concat h.1, ih h.2, List.append_assoc]
    rfl

theorem foldl_addPiece_nil {is : List (Item α)} (h : ∀ i ∈ is, i.isMove = false) :
    is.foldl addPiece [] = [] := by
  induction is with
  | nil => rfl
  | cons i is ih =>
    rw [List.forall_mem_cons] at h
    rw [List.foldl_cons, addPiece, h.1]
    exact ih h.2

def untilMove (is : List (Item α)) : List (Item α) := is.takeWhile fun i => !i.isMove

theorem isMove_of_mem_untilMove (is : List (Item α)) : ∀ i ∈ untilMove is, i.isMove = false := by
  intro i hi
  have hall := List.all_takeWhile (p := fun i : Item α => !i.isMove) (l := is)
  exact Bool.not_eq_true' _ ▸ List.all_eq_true.mp hall i hi

/-- More pieces go on with the last body and then begin others. -/
theorem foldl_addPiece (is : List (Item α)) (bs : List (List (Item α))) (body : List (Item α)) :
    is.foldl addPiece (bs ++ [body]) = bs ++ [body ++ untilMove is] ++ bodies is := by
  have hsplit := List.takeWhile_append_dropWhile (p := fun i : Item α => !i.isMove) (l := is)
  have hnil := foldl_addPiece_nil (isMove_of_mem_untilMove is)
  have hgo := foldl_addPiece_of_not_move (isMove_of_mem_untilMove is) bs body
  change untilMove is ++ _ = is at hsplit
  rw [bodies, ← hsplit, List.foldl_append, List.foldl_append, hsplit, hnil, hgo]
  cases hrest : is.dropWhile (fun i => !i.isMove) with
  | nil => exact (List.append_nil _).symm
  | cons i js =>
    have hi : i.isMove = true := by
      have hnot := List.head_dropWhile_not (p := fun i : Item α => !i.isMove) (l := is)
        (by rw [hrest]; exact List.cons_ne_nil i js)
      simpa [hrest] using hnot
    have hmove (cs : List (List (Item α))) :
        (i :: js).foldl addPiece cs = cs ++ js.foldl addPiece [[]] := by
      rw [List.foldl_cons, ← foldl_addPiece_append (List.cons_ne_nil _ _), addPiece, if_pos hi]
    rw [hmove, hmove, List.nil_append]

def closings (is : List (Item α)) : List Bool := (drawnBodies is).map (lastCloses Item.reopens)

/-- A drawing letter between the pieces leaves a path open that is closed without it: a close-path
has closed the path, and nothing else comes on it that opens or closes. -/
def LeavesOpen (before after : List (Item α)) : Prop :=
  (∃ body, (bodies before).getLast? = some body ∧ body.any Item.draws = true ∧
    lastCloses Item.reopens body = true) ∧
    ∀ i ∈ untilMove after, (i.isClose || i.reopens) = false

theorem lastCloses_append_of_counts {opens : Item α → Bool} (body : List (Item α))
    {rest : List (Item α)} (h : ∃ i ∈ rest, (i.isClose || opens i) = true) :
    lastCloses opens (body ++ rest) = lastCloses opens rest := by
  have hne : rest.filter (fun i => i.isClose || opens i) ≠ [] := by
    obtain ⟨i, hi, hcounts⟩ := h
    exact List.ne_nil_of_mem (List.mem_filter.mpr ⟨hi, hcounts⟩)
  rw [lastCloses, lastCloses, List.filter_append, List.getLast?_append_of_ne_nil _ hne]

/-- In one body a letter that draws nothing counts if the body has been closed and nothing else
counts behind it. -/
theorem lastCloses_without {c : Command} (hc : c.verb.draws = true) (body rest : List (Item α)) :
    lastCloses Item.reopens (body ++ rest) = lastCloses Item.reopens (body ++ .letter c :: rest) ↔
      ¬(lastCloses Item.reopens body = true ∧ ∀ i ∈ rest, (i.isClose || i.reopens) = false) := by
  by_cases hrest : ∀ i ∈ rest, (i.isClose || i.reopens) = false
  · rw [List.append_cons, lastCloses_append _ hrest, lastCloses_append _ hrest, lastCloses_concat,
      Item.isClose_of_draws hc, show (Item.letter c : Item α).reopens = true from hc,
      and_iff_left hrest, Bool.not_eq_true]
    rfl
  · have hcounts : ∃ i ∈ rest, (i.isClose || i.reopens) = true := by
      simpa only [not_forall, Bool.not_eq_false, exists_prop] using hrest
    rw [List.append_cons, lastCloses_append_of_counts _ hcounts,
      lastCloses_append_of_counts _ hcounts]
    exact iff_of_true rfl fun h => hrest h.2

/-- Without a letter that draws nothing the same paths are closed, unless that letter leaves one
open. -/
theorem closings_without {c : Command} (hc : c.verb.draws = true) (is js : List (Item α)) :
    closings (is ++ js) = closings (is ++ .letter c :: js) ↔ ¬LeavesOpen is js := by
  have hbodies (rest : List (Item α)) : bodies (is ++ rest) = rest.foldl addPiece (bodies is) :=
    List.foldl_append
  rw [closings, closings, drawnBodies, drawnBodies, hbodies, hbodies, List.foldl_cons, LeavesOpen]
  rcases List.eq_nil_or_concat' (bodies is) with hnil | ⟨bs, body, hlast⟩
  · rw [hnil]
    exact iff_of_true rfl fun h => by simp at h
  · have hdraws : (body ++ .letter c :: untilMove js).any Item.draws =
        (body ++ untilMove js).any Item.draws := by
      simp [Item.draws]
    rw [hlast, addPiece_concat rfl, foldl_addPiece, foldl_addPiece,
      List.append_assoc body, List.singleton_append]
    simp only [List.filter_append, List.map_append, List.filter_singleton, hdraws,
      List.getLast?_concat, Option.some.injEq, exists_eq_left']
    rw [List.append_left_inj, List.append_right_inj]
    cases hbody : (body ++ untilMove js).any Item.draws with
    | true =>
      change [_] = [_] ↔ _
      rw [List.cons.injEq, and_iff_left rfl, lastCloses_without hc, and_assoc]
      refine not_congr ⟨fun h => ⟨?_, h⟩, And.right⟩
      rw [List.any_append, Bool.or_eq_true] at hbody
      refine hbody.resolve_right fun hlater => ?_
      obtain ⟨i, hi, hdraws⟩ := List.any_eq_true.mp hlater
      have hcounts := h.2 i hi
      rw [Item.reopens_of_draws hdraws, Bool.or_true] at hcounts
      cases hcounts
    | false =>
      rw [List.any_append, Bool.or_eq_false_iff] at hbody
      refine iff_of_true rfl fun h => ?_
      rw [hbody.1] at h
      exact Bool.false_ne_true h.1.1

/-- The words of a text around a bare letter, and without it. -/
theorem words_letter [Scalar α] {before after : List Char} (bare : Bare after) {c : Command}
    {ws : List (Word α)}
    (h : (tokens (before ++ c.letter :: after)).mapM Token.word? = some ws) :
    ∃ ws₁ ws₂, (tokens before).mapM Token.word? = some ws₁ ∧
      (tokens after).mapM Token.word? = some ws₂ ∧ leading ws₂ = [] ∧
      ws = ws₁ ++ .letter c :: ws₂ ∧
      (tokens (before ++ after)).mapM Token.word? = some (ws₁ ++ ws₂) := by
  have hsplit : tokens (before ++ c.letter :: after) =
      tokens before ++ .command c :: tokens after := scan_letter [] before c after
  have hwithout : tokens (before ++ after) = tokens before ++ tokens after :=
    scan_append bare [] before
  rw [hsplit, List.mapM_append, List.mapM_cons] at h
  rw [hwithout, List.mapM_append]
  change ((tokens before).mapM Token.word?).bind _ = _ at h
  change ∃ ws₁ ws₂, _ ∧ _ ∧ _ ∧ _ ∧ ((tokens before).mapM Token.word?).bind _ = _
  obtain ⟨ws₁, hws₁, h⟩ := Option.bind_eq_some_iff.mp h
  obtain ⟨_, hletter, h⟩ := Option.bind_eq_some_iff.mp h
  obtain ⟨_, ⟨⟩, hletter⟩ := Option.bind_eq_some_iff.mp hletter
  obtain ⟨ws₂, hws₂, hletter⟩ := Option.bind_eq_some_iff.mp hletter
  cases hletter
  cases h
  refine ⟨ws₁, ws₂, hws₁, hws₂, ?_, rfl, by rw [hws₁, hws₂]; rfl⟩
  rw [Bare] at bare
  cases hts : tokens after with
  | nil =>
    rw [hts] at hws₂
    cases hws₂
    rfl
  | cons t ts =>
    rw [hts] at hws₂ bare
    rw [List.mapM_cons] at hws₂
    obtain ⟨w, hw, hws₂⟩ := Option.bind_eq_some_iff.mp hws₂
    obtain ⟨_, _, hws₂⟩ := Option.bind_eq_some_iff.mp hws₂
    cases hws₂
    cases t with
    | number number => exact absurd rfl (bare number)
    | command k =>
      cases hw
      rfl

theorem whole_without {ws₁ ws₂ : List (Word α)} (hbare : leading ws₂ = []) {c : Command}
    (h : ∀ run ∈ runs (ws₁ ++ .letter c :: ws₂), run.command.verb.arity ∣ run.values.length) :
    ∀ run ∈ runs (ws₁ ++ ws₂), run.command.verb.arity ∣ run.values.length := by
  rw [runs_append rfl, runs_letter hbare] at h
  rw [runs_append hbare]
  intro run hrun
  rcases List.mem_append.mp hrun with hrun | hrun
  · exact h run (List.mem_append_left _ hrun)
  · exact h run (List.mem_append_right _ (List.mem_cons_of_mem _ hrun))

/-- Paths are what their segments and the marks of their close-paths are. -/
theorem paths_ext {ps qs : List (Path α)} (hsegments : ps.map Path.segments = qs.map Path.segments)
    (hclosed : ps.map Path.closed = qs.map Path.closed) : ps = qs := by
  induction ps generalizing qs with
  | nil => exact (List.map_eq_nil_iff.mp hsegments.symm).symm
  | cons p ps ih =>
    cases qs with
    | nil => cases hsegments
    | cons q qs =>
      obtain ⟨hs, hss⟩ := List.cons.inj hsegments
      obtain ⟨hc, hcs⟩ := List.cons.inj hclosed
      rw [ih hss hcs]
      congr 1
      cases p
      cases q
      cases hs
      cases hc
      rfl

/-- When the paths of a text are closed. A path is closed exactly if a close-path is the last thing
on its subpath that counts, and a drawing letter counts there even if nothing is drawn with it. So
the segments and close-paths alone tell which paths are closed as long as no such letter comes
behind the last close-path. Taking out such a letter never changes a segment, and changes nothing at
all unless the letter leaves a path open that is closed without it. -/
theorem read_closed [Scalar α] {text : String} {ps : List (Path α)} (h : read text = .ok ps) :
    ∃ ws : List (Word α), (tokens text.toList).mapM Token.word? = some ws ∧
      ps.map Path.closed = (drawnBodies (items ws)).map (lastCloses Item.reopens) ∧
      (ps.map Path.closed = (drawnBodies (items ws)).map (lastCloses Item.draws) ↔
        ∀ body ∈ drawnBodies (items ws), ¬Undone body) ∧
      ∀ (before after : List Char) (c : Command), text.toList = before ++ c.letter :: after →
        c.verb.draws = true → Bare after →
        ∃ ws₁ ws₂ ps', (tokens before).mapM Token.word? = some ws₁ ∧
          (tokens after).mapM Token.word? = some ws₂ ∧ ws = ws₁ ++ .letter c :: ws₂ ∧
          read (.ofList (before ++ after)) = .ok ps' ∧
          ps'.map Path.segments = ps.map Path.segments ∧
          (ps' = ps ↔ ¬LeavesOpen (items ws₁) (items ws₂)) := by
  obtain ⟨ws, hws, hwhole, hallowed, rfl⟩ := readTokens_eq_ok_iff_sketch.mp h
  have hclosings : (Sketch.blank.after (items ws)).paths.map Path.closed = closings (items ws) :=
    closed_of_told (tells_items hwhole hallowed).subpaths
  refine ⟨ws, hws, hclosings, ?_, ?_⟩
  · rw [hclosings, closings, List.map_inj_left]
    exact forall₂_congr fun body _ => lastCloses_eq_iff body
  · intro before after c hsplit hc hbare
    rw [hsplit] at hws
    obtain ⟨ws₁, ws₂, hws₁, hws₂, hleading, rfl, hwithout⟩ := words_letter hbare hws
    rw [items_letter hleading] at hallowed hclosings ⊢
    obtain ⟨hallowed', hsegments⟩ := allowsAll_without hc hallowed
    have hwhole' := whole_without hleading hwhole
    have hitems : items (ws₁ ++ ws₂) = items ws₁ ++ items ws₂ := items_append hleading
    rw [← hitems] at hallowed' hsegments
    refine ⟨ws₁, ws₂, _, hws₁, hws₂, rfl, ?_, hsegments, ?_⟩
    · refine readTokens_eq_ok_iff_sketch.mpr ⟨ws₁ ++ ws₂, ?_, hwhole', hallowed', rfl⟩
      rw [String.toList_ofList]
      exact hwithout
    · have hclosings' : (Sketch.blank.after (items (ws₁ ++ ws₂))).paths.map Path.closed =
          closings (items (ws₁ ++ ws₂)) :=
        closed_of_told (tells_items hwhole' hallowed').subpaths
      rw [← closings_without hc, ← hitems, ← hclosings, ← hclosings']
      exact ⟨congrArg _, paths_ext hsegments⟩

def squareAndLine : String := "M0 0H10V10H0ZL"

theorem read_closed_squareAndLine : ∃ (ps ps' : List (Path Float)) (ws : List (Word Float)),
    read squareAndLine = .ok ps ∧ (tokens squareAndLine.toList).mapM Token.word? = some ws ∧
      ps.map Path.closed = (drawnBodies (items ws)).map (lastCloses Item.reopens) ∧
      read "M0 0H10V10H0Z" = .ok ps' ∧ ps'.map Path.segments = ps.map Path.segments := by
  have hok : (read squareAndLine : Except _ (List (Path Float))).toOption.isSome = true := by
    decide +kernel
  cases hr : (read squareAndLine : Except _ (List (Path Float))) with
  | error why =>
    rw [hr] at hok
    cases hok
  | ok ps =>
    obtain ⟨ws, hws, hclosed, _, hwithout⟩ := read_closed hr
    obtain ⟨_, _, ps', _, _, _, hread, hsegments, _⟩ :=
      hwithout "M0 0H10V10H0Z".toList [] ⟨.lineTo, false⟩ (by decide) rfl nofun
    exact ⟨ps, ps', ws, rfl, hws, hclosed, hread, hsegments⟩

/-- The letter opens the square again, although a close-path comes after all that is drawn. Without
the letter the square is closed. -/
theorem bare_letter_reopens : ∃ ws : List (Word Float),
    (tokens squareAndLine.toList).mapM Token.word? = some ws ∧
      (drawnBodies (items ws)).map (lastCloses Item.draws) = [true] ∧
      (read squareAndLine).map (List.map fun p : Path Float => p.closed) = .ok [false] ∧
      (read "M0 0H10V10H0Z").map (List.map fun p : Path Float => p.closed) = .ok [true] := by
  refine ⟨_, rfl, ?_, ?_, ?_⟩
  · decide +kernel
  · decide +kernel
  · decide +kernel

end PathData

end Reaming
