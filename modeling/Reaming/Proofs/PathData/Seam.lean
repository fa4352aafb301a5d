import Reaming.Drawing.Document
import Reaming.Proofs.PathData.Scan
import Reaming.Proofs.PathData.Steps

namespace Reaming

namespace PathData

variable {α : Type}

namespace Reader

def behind (done : List (Path α)) (r : Reader α) : Reader α :=
  { r with finished := done ++ r.finished }

theorem paths_behind (done : List (Path α)) (r : Reader α) :
    (r.behind done).paths = done ++ r.paths :=
  List.append_assoc ..

theorem previous?_behind (done : List (Path α)) (r : Reader α) :
    (r.behind done).previous? = r.previous? :=
  rfl

theorem predecessor_behind (done : List (Path α)) (r : Reader α) :
    (r.behind done).predecessor = r.predecessor :=
  rfl

theorem draw_behind (done : List (Path α)) (r : Reader α) (c : Curve α) :
    (r.behind done).draw c = (r.draw c).map (behind done) := by
  obtain ⟨_, current, _⟩ := r
  cases current <;> rfl

theorem moveTo_behind (done : List (Path α)) (r : Reader α) (p : Point α) :
    (r.behind done).moveTo p = (r.moveTo p).behind done := by
  rw [moveTo, paths_behind]
  rfl

theorem finish_behind (done : List (Path α)) (r : Reader α) :
    (r.behind done).finish = r.finish.map (done ++ ·) := by
  rw [finish, finish, paths_behind]
  obtain ⟨finished, current, pen, home, command, operands⟩ := r
  cases operands <;> rfl

variable [Scalar α]

theorem begin_behind (done : List (Path α)) (r : Reader α) (c : Command) :
    (r.behind done).begin c = (r.begin c).map (behind done) := by
  obtain ⟨v, relative⟩ := c
  obtain ⟨finished, current, pen, home, command, operands⟩ := r
  cases operands with
  | cons => rfl
  | nil =>
    cases v
    case moveTo | arcTo => rfl
    all_goals cases current <;> rfl

theorem perform_behind (done : List (Path α)) (r : Reader α) (g : Group α) :
    (r.behind done).perform g = (r.perform g).map (behind done) := by
  cases g with
  | moveTo p => exact congrArg Except.ok (r.moveTo_behind done _)
  | lineTo | horizontalTo | verticalTo | cubicTo | quadraticTo => exact r.draw_behind done _
  | smoothCubicTo | smoothQuadraticTo =>
    rw [perform, perform, previous?_behind, predecessor_behind]
    split
    · exact r.draw_behind done _
    · rfl

theorem operand_behind (done : List (Path α)) (r : Reader α) (text : List Char) (value : α) :
    (r.behind done).operand text value = (r.operand text value).map (behind done) := by
  have hcommand : (r.behind done).command = r.command := rfl
  have hoperands : (r.behind done).operands = r.operands := rfl
  rw [operand, operand, hcommand, hoperands]
  split
  · rfl
  · dsimp only
    split
    · rfl
    · exact perform_behind done { r with operands := [] } _

/-- What is finished plays no part in reading on. -/
theorem feed_behind (done : List (Path α)) (r : Reader α) (t : Token) :
    (r.behind done).feed t = (r.feed t).map (behind done) := by
  cases t with
  | command c => exact r.begin_behind done c
  | number text =>
    rw [feed, feed]
    cases (Scalar.read? text : Option α) with
    | none => rfl
    | some value => exact r.operand_behind done text value

theorem foldlM_behind (done : List (Path α)) (ts : List Token) (r : Reader α) :
    ts.foldlM feed (r.behind done) = (ts.foldlM feed r).map (behind done) := by
  induction ts generalizing r with
  | nil => rfl
  | cons t ts ih =>
    rw [List.foldlM_cons, List.foldlM_cons, feed_behind]
    cases r.feed t with
    | error e => rfl
    | ok s => exact ih s

/-- An absolute moveto leaves nothing of the state before it but the subpaths. -/
theorem foldlM_moveTo {a b : List Char} {x y : α} (ha : Scalar.read? a = some x)
    (hb : Scalar.read? b = some y) {r : Reader α} (hr : r.operands = []) :
    [.command ⟨.moveTo, false⟩, .number a, .number b].foldlM feed r =
      .ok ((initial.moveTo (.origin + ⟨x, y⟩)).behind r.paths) := by
  have hletter : r.feed (.command ⟨.moveTo, false⟩) =
      .ok { r with command := ⟨.moveTo, false⟩ } := by
    rw [feed, begin, checkComplete, hr]
    rfl
  have hfirst : feed { r with command := ⟨.moveTo, false⟩ } (.number a) =
      .ok { r with command := ⟨.moveTo, false⟩, operands := [x] } := by
    simp only [feed, ha, operand, hr]
    rfl
  have hsecond : feed { r with command := ⟨.moveTo, false⟩, operands := [x] } (.number b) =
      .ok ((initial.moveTo (.origin + ⟨x, y⟩)).behind r.paths) := by
    let p : Point α := .origin + ⟨x, y⟩
    simp only [feed, hb]
    exact congrArg (fun ps => Except.ok (⟨ps, some .empty, p, p, ⟨.lineTo, false⟩, []⟩ : Reader α))
      (List.append_nil r.paths).symm
  rw [List.foldlM_cons, hletter]
  change [_, _].foldlM feed _ = _
  rw [List.foldlM_cons, hfirst]
  change [_].foldlM feed _ = _
  rw [List.foldlM_cons, hsecond]
  rfl

def readOn (r : Reader α) (ts : List Token) : Except Error (List (Path α)) := do
  (← ts.foldlM feed r).finish

theorem readOn_append (r : Reader α) (ts us : List Token) :
    r.readOn (ts ++ us) = (ts.foldlM feed r).bind fun s => s.readOn us := by
  rw [readOn, List.foldlM_append]
  cases ts.foldlM feed r <;> rfl

theorem readOn_behind (done : List (Path α)) (r : Reader α) (ts : List Token) :
    (r.behind done).readOn ts = (r.readOn ts).map (done ++ ·) := by
  rw [readOn, readOn, foldlM_behind]
  cases ts.foldlM feed r with
  | error e => rfl
  | ok s => exact s.finish_behind done

/-- Reading ends at an absolute moveto as it does at the end of the data, and begins anew. -/
theorem readOn_moveTo {a b : List Char} {x y : α} (ha : Scalar.read? a = some x)
    (hb : Scalar.read? b = some y) (r : Reader α) (us : List Token) :
    r.readOn ([.command ⟨.moveTo, false⟩, .number a, .number b] ++ us) = r.finish.bind fun ps =>
      (initial.readOn ([.command ⟨.moveTo, false⟩, .number a, .number b] ++ us)).map (ps ++ ·) := by
  cases hops : r.operands with
  | nil =>
    have hfinish : r.finish = .ok r.paths := by
      rw [finish, checkComplete, hops]
      rfl
    rw [hfinish, readOn_append, readOn_append, foldlM_moveTo ha hb hops, foldlM_moveTo ha hb rfl]
    change readOn _ us = Except.map _ (readOn _ us)
    rw [readOn_behind, readOn_behind]
    cases (initial.moveTo (Point.origin + (⟨x, y⟩ : Point α))).readOn us <;> rfl
  | cons o ops =>
    have hfinish : r.finish = .error (.incompleteOperands r.command r.operands.length) := by
      rw [finish, checkComplete, hops]
      rfl
    have hletter : r.feed (.command ⟨.moveTo, false⟩) =
        .error (.incompleteOperands r.command r.operands.length) := by
      rw [feed, begin, checkComplete, hops]
      rfl
    rw [hfinish, List.cons_append, readOn, List.foldlM_cons, hletter]
    rfl

end Reader

def OpensWithMove (text : String) : Prop :=
  ∃ a b rest, tokens text.toList = .command ⟨.moveTo, false⟩ :: .number a :: .number b :: rest ∧
    (Decimal.Numeral.read? a).isSome = true ∧ (Decimal.Numeral.read? b).isSome = true

theorem OpensWithMove.bare {text : String} (h : OpensWithMove text) : Bare text.toList := by
  obtain ⟨a, b, rest, htokens, _⟩ := h
  rw [Bare, htokens]
  rintro n h
  cases h

theorem tokens_append {d₁ d₂ : String} (h : Bare d₂.toList) :
    tokens (d₁ ++ d₂).toList = tokens d₁.toList ++ tokens d₂.toList := by
  rw [String.toList_append]
  exact scan_append h [] d₁.toList

theorem OpensWithMove.append {d₁ d₂ : String} (h : OpensWithMove d₁) (bare : Bare d₂.toList) :
    OpensWithMove (d₁ ++ d₂) := by
  obtain ⟨a, b, rest, htokens, ha, hb⟩ := h
  exact ⟨a, b, rest ++ tokens d₂.toList, by rw [tokens_append bare, htokens]; rfl, ha, hb⟩

theorem bare_join {ds : List String} (h : ∀ d ∈ ds, OpensWithMove d) :
    Bare (String.join ds).toList := by
  induction ds with
  | nil => exact fun _ => nofun
  | cons d ds ih =>
    obtain ⟨hd, hds⟩ := List.forall_mem_cons.mp h
    rw [String.join_cons]
    exact (hd.append (ih hds)).bare

variable [Scalar α]

theorem exists_read? {text : List Char} (h : (Decimal.Numeral.read? text).isSome = true) :
    ∃ x : α, Scalar.read? text = some x := by
  obtain ⟨n, hn⟩ := Option.isSome_iff_exists.mp h
  exact ⟨Scalar.ofNumeral n, by rw [Scalar.read?, hn]; rfl⟩

/-- The data before an absolute moveto and the data from it on are read apart. -/
theorem read_append_opensWithMove (d₁ : String) {d₂ : String} (h : OpensWithMove d₂) :
    read (d₁ ++ d₂) =
      (read d₁).bind fun ps : List (Path α) => (read d₂).map (ps ++ ·) := by
  have hbare := h.bare
  obtain ⟨a, b, rest, htokens, ha, hb⟩ := h
  obtain ⟨x, hx⟩ := exists_read? (α := α) ha
  obtain ⟨y, hy⟩ := exists_read? (α := α) hb
  have hread (text : String) : read text = Reader.initial.readOn (α := α) (tokens text.toList) := rfl
  have hsplit : tokens d₂.toList = [.command ⟨.moveTo, false⟩, .number a, .number b] ++ rest :=
    htokens
  rw [hread, hread, hread, tokens_append hbare, hsplit, Reader.readOn_append, Reader.readOn]
  cases (tokens d₁.toList).foldlM Reader.feed (Reader.initial : Reader α) with
  | error e => rfl
  | ok s => exact s.readOn_moveTo hx hy rest

end PathData

open PathData

variable [Scalar α]

theorem readPaths_singleton (d : String) :
    readPaths [d] = (PathData.read d : Except _ (List (Path α))).mapError LoadError.pathData := by
  rw [readPaths]
  cases (PathData.read d : Except _ (List (Path α))) with
  | error e => rfl
  | ok ps => exact congrArg Except.ok (List.append_nil ps)

/-- Path elements that all begin with an absolute moveto may as well be one. -/
theorem readPaths_join {ds : List String} (h : ∀ d ∈ ds, OpensWithMove d) :
    (readPaths ds : Except _ (List (Path α))) = readPaths [String.join ds] := by
  induction ds with
  | nil => rfl
  | cons d ds ih =>
    obtain ⟨_, hds⟩ := List.forall_mem_cons.mp h
    rw [readPaths, ih hds, readPaths_singleton, readPaths_singleton, String.join_cons]
    cases ds with
    | nil =>
      rw [String.join_nil, String.append_empty]
      cases (PathData.read d : Except _ (List (Path α))) with
      | error e => rfl
      | ok ps => exact congrArg Except.ok (List.append_nil ps)
    | cons d' ds' =>
      obtain ⟨hd', hds'⟩ := List.forall_mem_cons.mp hds
      have hopens : OpensWithMove (String.join (d' :: ds')) := by
        rw [String.join_cons]
        exact hd'.append (bare_join hds')
      rw [read_append_opensWithMove d hopens]
      cases (PathData.read d : Except _ (List (Path α))) with
      | error e => rfl
      | ok ps => cases (PathData.read (String.join (d' :: ds')) : Except _ (List (Path α))) <;> rfl

/-- Path data splits at absolute movetos: what follows one is read as if nothing stood before it,
and what stands before it as if it were the end. So a drawing may hold its paths in one element or
in several. -/
theorem pathData_splits :
    (∀ (d₁ d₂ : String) (ps : List (Path α)), read d₁ = .ok ps → OpensWithMove d₂ →
      read (d₁ ++ d₂) = (read d₂).map (ps ++ ·)) ∧
    ∀ (doc : Document α) (policy : AreaPolicy) (text joined : Markup.Bytes) (scan : Scan),
      Scan.ofBytes? text = some scan → (∀ d ∈ scan.pathData, OpensWithMove d) →
      Scan.ofBytes? joined = some { scan with pathData := [String.join scan.pathData] } →
      doc.load policy joined = doc.load policy text := by
  refine ⟨fun d₁ d₂ ps hread hopens => ?_, fun doc policy text joined scan htext hopens hjoined => ?_⟩
  · rw [read_append_opensWithMove d₁ hopens, hread]
    rfl
  · have hscan : Document.ofScan (α := α) policy { scan with pathData := [String.join scan.pathData] } =
        Document.ofScan policy scan := by
      rw [Document.ofScan, Document.ofScan, readPaths_join hopens]
      rfl
    rw [Document.load, Document.load, Document.ofBytes, Document.ofBytes, htext, hjoined]
    dsimp only
    rw [hscan]

def triangle : String := "M0 0H10V10ZL"

def stroke : String := "M2 2L4 4"

def strokeApart : Markup.Bytes :=
  Markup.bytes "<svg><path d='M0 0H10V10ZL'/><path d='M2 2L4 4'/></svg>"

def strokeJoined : Markup.Bytes :=
  Markup.bytes "<svg><path d='M0 0H10V10ZLM2 2L4 4'/></svg>"

theorem pathData_splits_stroke : ∃ ps : List (Path Float), read triangle = .ok ps ∧
    OpensWithMove triangle ∧ OpensWithMove stroke ∧
    read (triangle ++ stroke) = (read stroke).map (ps ++ ·) ∧
    (Document.empty : Document Float).load .containmentForest strokeJoined =
      Document.empty.load .containmentForest strokeApart := by
  have htriangle : OpensWithMove triangle := ⟨['0'], ['0'], _, rfl, rfl, rfl⟩
  have hstroke : OpensWithMove stroke := ⟨['2'], ['2'], _, rfl, rfl, rfl⟩
  have hapart : Scan.ofBytes? strokeApart = some ⟨none, none, none, [triangle, stroke]⟩ := by
    decide +kernel
  have hjoined : Scan.ofBytes? strokeJoined =
      some ⟨none, none, none, [String.join [triangle, stroke]]⟩ := by
    decide +kernel
  have hok : (read triangle : Except _ (List (Path Float))).toOption.isSome = true := by
    decide +kernel
  obtain ⟨hsplit, hload⟩ := pathData_splits (α := Float)
  cases hr : (read triangle : Except _ (List (Path Float))) with
  | error e =>
    rw [hr] at hok
    cases hok
  | ok ps =>
    refine ⟨ps, rfl, htriangle, hstroke, hsplit _ _ _ hr hstroke, ?_⟩
    refine hload _ _ _ _ _ hapart ?_ hjoined
    exact List.forall_mem_cons.mpr ⟨htriangle, List.forall_mem_singleton.mpr hstroke⟩

end Reaming
