import Mathlib.Data.List.Forall2
import Reaming.Json.Geometry
import Reaming.Json.Reader
import Reaming.Proofs.Geometry.Cache

namespace Reaming

section
variable {α : Type}

/-- What lies on the bench: a segment by itself, or a path. -/
inductive Workpiece (α : Type) where
  | segment (s : Segment α)
  | path (p : Path α)

inductive Handling (α : Type) where
  | look (l : Look)
  | lookPath (l : PathLook)
  | scale (k : α)
  | translate (d : Point α)
  | setStop (p : Point α)
  | toOrigin
  | within (j : Nat) (d : Deed α)

inductive Lives (α : Type) where
  | segment (l : Life α)
  | path (ls : List (Life α)) (closed : Bool)

def Workpiece.segment? : Workpiece α → Option (Segment α)
  | .segment s => some s
  | .path _ => none

def Workpiece.inner? (j : Nat) : Workpiece α → Option (Segment α)
  | .segment _ => none
  | .path p => p.segments[j]?

def Lives.segment? : Lives α → Option (Life α)
  | .segment l => some l
  | .path _ _ => none

def Lives.inner? (j : Nat) : Lives α → Option (Life α)
  | .segment _ => none
  | .path ls _ => ls[j]?

/-- The looks at the segments that a look at their path comes down to. -/
def PathLook.deeds (closed : Bool) : PathLook → List (Deed α)
  | .polyline => [.look .polyline]
  | .length => [.look .length]
  | .bounds => [.look .bounds]
  | .area => if closed then [.look .polyline] else []

end

section
variable {α : Type} [Scalar α]

def Workpiece.handled : Workpiece α → Handling α → Workpiece α
  | .segment s, .look l => .segment (s.after l)
  | .segment s, .scale k => .segment (s.scale k)
  | .segment s, .translate d => .segment (s.translate d)
  | .segment s, .setStop p => .segment (s.withStop p)
  | .path p, .lookPath l => .path (p.after l)
  | .path p, .scale k => .path (p.scale k)
  | .path p, .translate d => .path (p.translate d)
  | .path p, .toOrigin => .path p.toOrigin
  | .path p, .within j d => .path { p with segments := p.segments.modify j (·.did d) }
  | w, _ => w

def Workpiece.scaled (k : α) : Workpiece α → Workpiece α
  | .segment s => .segment (s.scaled k)
  | .path p => .path (p.scaled k)

def Workpiece.translated (d : Point α) : Workpiece α → Workpiece α
  | .segment s => .segment (s.translated d)
  | .path p => .path (p.translated d)

namespace Lives

def workpiece : Lives α → Workpiece α
  | .segment l => .segment l.segment
  | .path ls closed => .path ⟨ls.map Life.segment, closed⟩

/-- Where the corner of the box around all samples would have to move to reach the origin. -/
def toOrigin (ls : List (Life α)) : Point α :=
  let b := Bounds.unions (ls.map fun l => .ofPoints l.curve.samples)
  ⟨-b.x0, -b.y0⟩

def handled : Lives α → Handling α → Lives α
  | .segment l, .look k => .segment (l.did [.look k])
  | .segment l, .scale k => .segment (l.did [.scale k])
  | .segment l, .translate d => .segment (l.did [.translate d])
  | .segment l, .setStop p => .segment (l.did [.setStop p])
  | .path ls closed, .lookPath k => .path (ls.map (·.did (k.deeds closed))) closed
  | .path ls closed, .scale k => .path (ls.map (·.did [.scale k])) closed
  | .path ls closed, .translate d => .path (ls.map (·.did [.translate d])) closed
  | .path ls closed, .toOrigin =>
    .path (ls.map (·.did [.look .bounds, .translate (toOrigin ls)])) closed
  | .path ls closed, .within j d => .path (ls.modify j (·.did [d])) closed
  | t, _ => t

end Lives

theorem map_modify_of_comm {β γ : Type} {f : β → β} {g : γ → γ} {h : β → γ}
    (comm : ∀ x, h (f x) = g (h x)) (xs : List β) (i : Nat) :
    (xs.modify i f).map h = (xs.map h).modify i g := by
  apply List.ext_getElem?
  intro j
  rw [List.getElem?_map, List.getElem?_modify, List.getElem?_modify, List.getElem?_map]
  cases xs[j]? with
  | none => rfl
  | some x => by_cases hij : i = j <;> simp [hij, comm]

/-- Deeds done to all segments of a path. -/
theorem Lives.workpiece_map {f : Segment α → Segment α} {ds : List (Deed α)}
    (h : ∀ s : Segment α, ds.foldl Segment.did s = f s) (ls : List (Life α)) (closed : Bool) :
    (Lives.path (ls.map (·.did ds)) closed).workpiece =
      .path ⟨(ls.map Life.segment).map f, closed⟩ := by
  have hsegments : (ls.map (·.did ds)).map Life.segment = (ls.map Life.segment).map f := by
    rw [List.map_map, List.map_map]
    exact List.map_congr_left fun l _ => (l.segment_did ds).trans (h l.segment)
  rw [workpiece, hsegments]

/-- A path has the bounds of its points. -/
theorem bounds_segments (ls : List (Life α)) (closed : Bool) :
    Path.bounds ⟨ls.map Life.segment, closed⟩ =
      .unions (ls.map fun l => .ofPoints l.curve.samples) := by
  rw [Path.bounds, List.map_map]
  exact congrArg _ (List.map_congr_left fun l _ => congrArg Bounds.ofPoints l.polyline_segment)

theorem Lives.workpiece_lookPath (ls : List (Life α)) (closed : Bool) (k : PathLook) :
    (Lives.path (ls.map (·.did (k.deeds closed))) closed).workpiece =
      .path (Path.after ⟨ls.map Life.segment, closed⟩ k) := by
  cases k with
  | polyline | bounds | length => exact workpiece_map (fun _ => rfl) ls closed
  | area =>
    cases closed with
    | true => exact workpiece_map (fun _ => rfl) ls true
    | false =>
      have hnone (s : Segment α) : ([] : List (Deed α)).foldl Segment.did s = id s := rfl
      exact (workpiece_map hnone ls false).trans (by rw [List.map_id]; rfl)

/-- A workpiece that is handled has the life that is handled so. -/
theorem Lives.workpiece_handled (t : Lives α) (h : Handling α) :
    (t.handled h).workpiece = t.workpiece.handled h := by
  cases t with
  | segment l =>
    cases h with
    | look | scale | translate | setStop => exact congrArg Workpiece.segment (l.segment_did _)
    | lookPath | toOrigin | within => rfl
  | path ls closed =>
    cases h with
    | look | setStop => rfl
    | lookPath k => exact workpiece_lookPath ls closed k
    | scale | translate => exact workpiece_map (fun _ => rfl) ls closed
    | toOrigin =>
      change _ = Workpiece.path (Path.toOrigin _)
      rw [Path.toOrigin, bounds_segments]
      have hmoved (s : Segment α) : [.look .bounds, .translate (toOrigin ls)].foldl Segment.did s =
          s.translate (toOrigin ls) := rfl
      exact workpiece_map hmoved ls closed
    | within j d =>
      have hdid (l : Life α) : (l.did [d]).segment = l.segment.did d := l.segment_did [d]
      have hsegments : (ls.modify j (·.did [d])).map Life.segment =
          (ls.map Life.segment).modify j (·.did d) := map_modify_of_comm hdid ls j
      exact congrArg (fun ss => Workpiece.path ⟨ss, closed⟩) hsegments

/-- A copy is what a clone of the workpiece becomes that is changed in the same way. -/
theorem Workpiece.scaled_eq (w : Workpiece α) (k : α) : w.scaled k = w.handled (.scale k) := by
  cases w <;> rfl

theorem Workpiece.translated_eq (w : Workpiece α) (d : Point α) :
    w.translated d = w.handled (.translate d) := by
  cases w <;> rfl

end

inductive Making where
  | segment (c : Curve Float)
  | path (cs : List (Curve Float)) (closed : Bool)
  | clone (i : Nat)
  | scaled (i : Nat) (k : Float)
  | translated (i : Nat) (d : Point Float)
  /-- A path of clones of segments. -/
  | join (is : List Nat) (closed : Bool)
  /-- A clone of one segment of a path. -/
  | pick (i j : Nat)
  | readSegment (text : String)
  | readPath (text : String)

inductive BenchAct where
  | handle (i : Nat) (h : Handling Float)
  | make (m : Making)

def Making.workpiece? (ws : List (Workpiece Float)) : Making → Option (Workpiece Float)
  | .segment c => some (.segment (.ofCurve c))
  | .path cs closed => some (.path ⟨cs.map .ofCurve, closed⟩)
  | .clone i => ws[i]?
  | .scaled i k => ws[i]?.map (Workpiece.scaled k)
  | .translated i d => ws[i]?.map (Workpiece.translated d)
  | .join is closed =>
    (is.mapM fun i => ws[i]?.bind Workpiece.segment?).map fun ss => .path ⟨ss, closed⟩
  | .pick i j => (ws[i]?.bind (Workpiece.inner? j)).map .segment
  | .readSegment text => ((Json.read? text).bind Segment.ofJson?).map .segment
  | .readPath text => ((Json.read? text).bind Path.ofJson?).map .path

/-- The life that begins with the making. A copy goes on with the life of what it is a copy of. -/
def Making.lives? (ts : List (Lives Float)) : Making → Option (Lives Float)
  | .segment c => some (.segment ⟨c, []⟩)
  | .path cs closed => some (.path (cs.map (⟨·, []⟩)) closed)
  | .clone i => ts[i]?
  | .scaled i k => ts[i]?.map (Lives.handled · (.scale k))
  | .translated i d => ts[i]?.map (Lives.handled · (.translate d))
  | .join is closed =>
    (is.mapM fun i => ts[i]?.bind Lives.segment?).map fun ls => .path ls closed
  | .pick i j => (ts[i]?.bind (Lives.inner? j)).map .segment
  | .readSegment text =>
    ((Json.read? text).bind Segment.ofJson?).map fun s => .segment ⟨s.curve, []⟩
  | .readPath text =>
    ((Json.read? text).bind Path.ofJson?).map fun p =>
      .path (p.segments.map fun s => ⟨s.curve, []⟩) p.closed

/-- The bench after one act. Workpieces are handled where they lie, new ones go to the end. -/
def benchStep (ws : List (Workpiece Float)) : BenchAct → List (Workpiece Float)
  | .handle i h => ws.modify i (·.handled h)
  | .make m => ws ++ (m.workpiece? ws).toList

def bench (as : List BenchAct) : List (Workpiece Float) := as.foldl benchStep []

def livesStep (ts : List (Lives Float)) : BenchAct → List (Lives Float)
  | .handle i h => ts.modify i (·.handled h)
  | .make m => ts ++ (m.lives? ts).toList

def lives (as : List BenchAct) : List (Lives Float) := as.foldl livesStep []

/-- What is read remembers nothing. -/
theorem Segment.fresh_of_ofJson? {v : Json} {s : Segment Float} (h : Segment.ofJson? v = some s) :
    s.fresh = s := by
  obtain ⟨fields, _, h⟩ := Option.bind_eq_some_iff.mp h
  split at h
  · obtain ⟨c, _, h⟩ := Option.bind_eq_some_iff.mp h
    cases h
    rfl
  · cases h

theorem mapM_option_forall {β γ : Type} {f : β → Option γ} {P : γ → Prop}
    (h : ∀ x y, f x = some y → P y) {xs : List β} {ys : List γ} (hys : xs.mapM f = some ys) :
    ∀ y ∈ ys, P y := by
  induction xs generalizing ys with
  | nil =>
    cases hys
    exact nofun
  | cons x xs ih =>
    rw [List.mapM_cons] at hys
    obtain ⟨z, hz, hys⟩ := Option.bind_eq_some_iff.mp hys
    obtain ⟨zs, hzs, hys⟩ := Option.bind_eq_some_iff.mp hys
    cases hys
    exact List.forall_mem_cons.mpr ⟨h x z hz, ih hzs⟩

theorem Path.fresh_of_ofJson? {v : Json} {p : Path Float} (h : Path.ofJson? v = some p) :
    p.fresh = p := by
  obtain ⟨fields, _, h⟩ := Option.bind_eq_some_iff.mp h
  split at h
  · obtain ⟨ss, hss, h⟩ := Option.bind_eq_some_iff.mp h
    obtain ⟨closed, _, h⟩ := Option.bind_eq_some_iff.mp h
    cases h
    obtain ⟨v, _, hss⟩ := Option.bind_eq_some_iff.mp hss
    have hfresh : ∀ s ∈ ss, s.fresh = id s := by
      cases v with
      | array items => exact mapM_option_forall (fun _ _ => Segment.fresh_of_ofJson?) hss
      | _ => cases hss
    rw [fresh, List.map_congr_left hfresh, List.map_id]
  · cases h

theorem mapM_option_map {β γ δ : Type} (f : β → Option γ) (g : γ → δ) (xs : List β) :
    (xs.mapM fun x => (f x).map g) = (xs.mapM f).map (List.map g) := by
  induction xs with
  | nil => rfl
  | cons x xs ih =>
    rw [List.mapM_cons, List.mapM_cons, ih]
    cases f x with
    | none => rfl
    | some y => cases xs.mapM f <;> rfl

/-- What is made has the life that begins with the making. -/
theorem Making.workpiece?_lives (ts : List (Lives Float)) (m : Making) :
    m.workpiece? (ts.map Lives.workpiece) = (m.lives? ts).map Lives.workpiece := by
  have hget (i : Nat) : (ts.map Lives.workpiece)[i]? = ts[i]?.map Lives.workpiece :=
    List.getElem?_map
  cases m with
  | segment c => rfl
  | path cs closed =>
    have hsegments : (cs.map fun c => (⟨c, []⟩ : Life Float)).map Life.segment =
        cs.map .ofCurve := List.map_map
    exact congrArg (fun ss => some (Workpiece.path ⟨ss, closed⟩)) hsegments.symm
  | clone i => exact hget i
  | scaled i k =>
    rw [workpiece?, lives?, hget, Option.map_map, Option.map_map]
    exact Option.map_congr fun t _ =>
      (t.workpiece.scaled_eq k).trans (t.workpiece_handled (.scale k)).symm
  | translated i d =>
    rw [workpiece?, lives?, hget, Option.map_map, Option.map_map]
    exact Option.map_congr fun t _ =>
      (t.workpiece.translated_eq d).trans (t.workpiece_handled (.translate d)).symm
  | join is closed =>
    have hsegment (i : Nat) : (ts.map Lives.workpiece)[i]?.bind Workpiece.segment? =
        (ts[i]?.bind Lives.segment?).map Life.segment := by
      rw [hget]
      rcases ts[i]? with _ | _ | _ <;> rfl
    rw [workpiece?, lives?, funext hsegment, mapM_option_map, Option.map_map, Option.map_map]
    rfl
  | pick i j =>
    rw [workpiece?, lives?, hget]
    rcases ts[i]? with _ | l | ⟨ls, closed⟩
    · rfl
    · rfl
    · change ((ls.map Life.segment)[j]?).map Workpiece.segment =
        (ls[j]?.map Lives.segment).map Lives.workpiece
      rw [List.getElem?_map, Option.map_map, Option.map_map]
      rfl
  | readSegment text =>
    rw [workpiece?, lives?, Option.map_map]
    refine Option.map_congr fun s hs => ?_
    obtain ⟨v, _, hs⟩ := Option.bind_eq_some_iff.mp hs
    exact congrArg Workpiece.segment (Segment.fresh_of_ofJson? hs).symm
  | readPath text =>
    rw [workpiece?, lives?, Option.map_map]
    refine Option.map_congr fun p hp => ?_
    obtain ⟨v, _, hp⟩ := Option.bind_eq_some_iff.mp hp
    have hsegments : (p.segments.map fun s => (⟨s.curve, []⟩ : Life Float)).map Life.segment =
        p.segments.map Segment.fresh := List.map_map
    refine (congrArg Workpiece.path (Path.fresh_of_ofJson? hp).symm).trans ?_
    exact congrArg (fun ss => Workpiece.path ⟨ss, p.closed⟩) hsegments.symm

/-- One act keeps everything on the bench as its life tells. -/
theorem benchStep_lives (ts : List (Lives Float)) (a : BenchAct) :
    benchStep (ts.map Lives.workpiece) a = (livesStep ts a).map Lives.workpiece := by
  cases a with
  | handle i h =>
    have hhandled (t : Lives Float) : (t.handled h).workpiece = t.workpiece.handled h :=
      t.workpiece_handled h
    exact (map_modify_of_comm hhandled ts i).symm
  | make m =>
    rw [benchStep, livesStep, m.workpiece?_lives, List.map_append]
    cases m.lives? ts <;> rfl

theorem bench_lives (as : List BenchAct) : bench as = (lives as).map Lives.workpiece := by
  induction as using List.reverseRecOn with
  | nil => rfl
  | append_singleton as a ih =>
    rw [bench, lives, List.foldl_concat, List.foldl_concat, ← benchStep_lives]
    exact congrArg (benchStep · a) ih

/-- No path that can come to lie on the bench remembers wrong samples. -/
theorem coherent_of_mem_bench {as : List BenchAct} {p : Path Float} (h : .path p ∈ bench as) :
    p.Coherent := by
  rw [bench_lives] at h
  obtain ⟨t, _, ht⟩ := List.mem_map.mp h
  cases t with
  | segment l => cases ht
  | path ls closed =>
    cases ht
    intro s hs
    obtain ⟨l, _, rfl⟩ := List.mem_map.mp hs
    exact l.coherent

structure Segment.Told {α : Type} [Scalar α] (s : Segment α) (l : Life α) : Prop where
  curve : s.curve = l.curve
  /-- The samples are remembered exactly if a look since the points last moved needed them, and
  then they are those of the points. -/
  cache : s.cache = if l.remembers then some s.curve.samples else none
  /-- Nothing but these looks tells the segment from one that is built anew. -/
  looked : s = l.lately.foldl Segment.did s.fresh
  polyline : s.polyline = s.fresh.polyline
  length : s.length = s.fresh.length
  bounds : s.bounds = s.fresh.bounds

structure Path.Told {α : Type} [Scalar α] (p : Path α) (ls : List (Life α)) : Prop where
  segments : List.Forall₂ Segment.Told p.segments ls
  polyline : p.polyline = p.fresh.polyline
  length : p.length = p.fresh.length
  bounds : p.bounds = p.fresh.bounds
  area : p.area = p.fresh.area

def Workpiece.Told {α : Type} [Scalar α] : Workpiece α → Lives α → Prop
  | .segment s, .segment l => s.Told l
  | .path p, .path ls closed => p.Told ls ∧ p.closed = closed
  | _, _ => False

section
variable {α : Type} [Scalar α]

theorem Life.told (l : Life α) : l.segment.Told l := by
  have hpolyline : l.segment.polyline = l.segment.fresh.polyline := by
    rw [polyline_segment, segment_eq]
    rfl
  refine ⟨?_, ?_, ?_, hpolyline, ?_, congrArg Bounds.ofPoints hpolyline⟩
  · rw [segment_eq]
    rfl
  · rw [segment_eq]
    rfl
  · rw [Segment.fresh, segment_eq]
    exact l.segment_eq.symm.trans l.segment_lately
  · rw [Segment.length, Segment.length, hpolyline]
    rfl

theorem Path.told (ls : List (Life α)) (closed : Bool) :
    Path.Told ⟨ls.map Life.segment, closed⟩ ls := by
  have hpolyline : Path.polyline ⟨ls.map Life.segment, closed⟩ =
      (Path.fresh ⟨ls.map Life.segment, closed⟩).polyline := by
    rw [polyline, polyline, fresh, List.flatMap_map, List.flatMap_map, List.flatMap_map]
    exact List.flatMap_congr fun l _ => congrArg List.tail l.told.polyline
  refine ⟨?_, hpolyline, ?_, ?_, ?_⟩
  · exact List.forall₂_map_left_iff.mpr (List.forall₂_same.mpr fun l _ => l.told)
  · rw [length, length, fresh, List.map_map, List.map_map, List.map_map]
    exact congrArg Scalar.sum (List.map_congr_left fun l _ => l.told.length)
  · rw [bounds, bounds, fresh, List.map_map, List.map_map, List.map_map]
    exact congrArg Bounds.unions (List.map_congr_left fun l _ => l.told.bounds)
  · rw [area, area, hpolyline]
    rfl

theorem Lives.told (t : Lives α) : t.workpiece.Told t := by
  cases t with
  | segment l => exact l.told
  | path ls closed => exact ⟨Path.told ls closed, rfl⟩

end

/-- Handling what was put at the end of the bench last. -/
theorem modify_length_append {β : Type} (xs : List β) (made : Option β) (f : β → β) :
    (xs ++ made.toList).modify xs.length f = xs ++ (made.map f).toList := by
  induction xs with
  | nil => cases made <;> rfl
  | cons x xs ih => exact congrArg (x :: ·) ih

/-- Whatever is done at the bench, and in whatever order: a segment remembers samples exactly if a
look since its points last moved needed them, and these are the samples of its points, so that
everything on the bench looks as if it were built anew. A scaled or moved copy is what a clone
becomes that is scaled or moved itself, and nothing that is made changes what is there. -/
theorem bench_coherent (as : List BenchAct) :
    List.Forall₂ Workpiece.Told (bench as) (lives as) ∧
      (∀ i k, bench (as ++ [.make (.scaled i k)]) =
        bench (as ++ [.make (.clone i), .handle (bench as).length (.scale k)])) ∧
      (∀ i d, bench (as ++ [.make (.translated i d)]) =
        bench (as ++ [.make (.clone i), .handle (bench as).length (.translate d)])) ∧
      ∀ m, ∃ made, bench (as ++ [.make m]) = bench as ++ made := by
  have hone (a : BenchAct) : bench (as ++ [a]) = benchStep (bench as) a := List.foldl_concat ..
  have htwo (a b : BenchAct) : bench (as ++ [a, b]) = benchStep (benchStep (bench as) a) b :=
    List.foldl_append
  refine ⟨?_, fun i k => ?_, fun i d => ?_, fun m => ⟨_, hone (.make m)⟩⟩
  · rw [bench_lives]
    exact List.forall₂_map_left_iff.mpr (List.forall₂_same.mpr fun t _ => t.told)
  · have hcopy := funext fun w : Workpiece Float => w.scaled_eq k
    rw [hone, htwo, benchStep, benchStep, benchStep, Making.workpiece?, Making.workpiece?,
      modify_length_append, hcopy]
  · have hcopy := funext fun w : Workpiece Float => w.translated_eq d
    rw [hone, htwo, benchStep, benchStep, benchStep, Making.workpiece?, Making.workpiece?,
      modify_length_append, hcopy]

end Reaming
