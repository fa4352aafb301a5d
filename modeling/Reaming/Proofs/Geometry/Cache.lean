import Mathlib.Data.List.DropRight
import Reaming.Geometry.Path

namespace Reaming

section
variable {α : Type}

inductive Deed (α : Type) where
  | look (l : Look)
  | scale (k : α)
  | translate (d : Point α)
  | setStop (p : Point α)
  deriving DecidableEq, Repr

def Deed.moves : Deed α → Bool
  | .look _ => false
  | _ => true

/-- The looks that leave the samples of a curve remembered: all that need them. -/
def Deed.remembers (c : Curve α) : Deed α → Bool
  | .look .polyline | .look .bounds => true
  | .look .length => !c.isLine
  | _ => false

def Segment.fresh (s : Segment α) : Segment α := .ofCurve s.curve

def Path.fresh (p : Path α) : Path α := { p with segments := p.segments.map Segment.fresh }

end

section
variable {α : Type} [Scalar α]

def Curve.did (c : Curve α) : Deed α → Curve α
  | .look _ => c
  | .scale k => c.map (Point.scale k)
  | .translate d => c.map (· + d)
  | .setStop p => c.withStop p

def Segment.did (s : Segment α) : Deed α → Segment α
  | .look l => s.after l
  | .scale k => s.scale k
  | .translate d => s.translate d
  | .setStop p => s.withStop p

theorem Segment.did_eq_fresh (s : Segment α) {d : Deed α} (hd : d.moves = true) :
    s.did d = .ofCurve (s.curve.did d) := by
  cases d with
  | look l => cases hd
  | _ => rfl

def Curve.segment (c : Curve α) (remembered : Bool) : Segment α :=
  ⟨c, if remembered then some c.samples else none⟩

/-- Remembered samples are the ones that would be worked out afresh. -/
theorem Curve.polyline_segment (c : Curve α) (remembered : Bool) :
    (c.segment remembered).polyline = c.samples := by
  cases remembered <;> rfl

theorem Curve.segment_did_look (c : Curve α) (remembered : Bool) (l : Look) :
    (c.segment remembered).did (.look l) =
      c.segment (remembered || Deed.remembers c (.look l)) := by
  have hsampled : (c.segment remembered).sampled = c.segment true := by
    rw [Segment.sampled, polyline_segment]
    rfl
  cases l with
  | polyline | bounds => exact hsampled.trans (by rw [Deed.remembers, Bool.or_true])
  | isSampled => exact congrArg c.segment (Bool.or_false remembered).symm
  | length =>
    rw [Segment.did, Segment.after, hsampled, Deed.remembers]
    change (if c.isLine = true then _ else _) = _
    cases c.isLine with
    | true => exact congrArg c.segment (Bool.or_false remembered).symm
    | false => exact congrArg c.segment (Bool.or_true remembered).symm

/-- A segment that has been looked at remembers its samples if a look needed them. -/
theorem Curve.foldl_looks (c : Curve α) {ds : List (Deed α)} (h : ∀ d ∈ ds, d.moves = false) :
    ds.foldl Segment.did (.ofCurve c) = c.segment (ds.any (Deed.remembers c)) := by
  induction ds using List.reverseRecOn with
  | nil => rfl
  | append_singleton ds d ih =>
    rw [List.forall_mem_append, List.forall_mem_singleton] at h
    rw [List.foldl_concat, ih h.1, List.any_append, List.any_cons, List.any_nil, Bool.or_false]
    cases d with
    | look l => exact c.segment_did_look _ l
    | scale | translate | setStop => cases h.2

/-- What is known of a segment without its samples: the curve it was built with, and all that has
been done to it, in order. -/
structure Life (α : Type) where
  born : Curve α
  deeds : List (Deed α) := []

namespace Life

def did (l : Life α) (ds : List (Deed α)) : Life α := { l with deeds := l.deeds ++ ds }

def curve (l : Life α) : Curve α := l.deeds.foldl Curve.did l.born

def lately (l : Life α) : List (Deed α) := l.deeds.rtakeWhile fun d => !d.moves

def remembers (l : Life α) : Bool := l.lately.any (Deed.remembers l.curve)

def segment (l : Life α) : Segment α := l.deeds.foldl Segment.did (.ofCurve l.born)

theorem segment_did (l : Life α) (ds : List (Deed α)) :
    (l.did ds).segment = ds.foldl Segment.did l.segment :=
  List.foldl_append

omit [Scalar α] in
theorem moves_of_mem_lately {l : Life α} {d : Deed α} (h : d ∈ l.lately) : d.moves = false :=
  Bool.not_eq_true' _ ▸ List.mem_rtakeWhile_imp (p := fun d : Deed α => !d.moves) h

/-- All but the looks since the points last moved is forgotten. -/
theorem segment_lately (l : Life α) :
    l.segment = l.lately.foldl Segment.did (.ofCurve l.curve) := by
  obtain ⟨c, ds⟩ := l
  induction ds using List.reverseRecOn with
  | nil => rfl
  | append_singleton ds d ih =>
    have hsegment : segment ⟨c, ds ++ [d]⟩ = (segment ⟨c, ds⟩).did d := List.foldl_concat ..
    have hcurve : curve ⟨c, ds ++ [d]⟩ = (curve ⟨c, ds⟩).did d := List.foldl_concat ..
    rw [hsegment, hcurve, lately]
    cases hd : d.moves with
    | true =>
      rw [List.rtakeWhile_concat_neg _ _ _ (by simp [hd]), Segment.did_eq_fresh _ hd, ih,
        Curve.foldl_looks _ fun _ => moves_of_mem_lately]
      rfl
    | false =>
      rw [List.rtakeWhile_concat_pos _ _ _ (by simp [hd]), List.foldl_concat, ih]
      cases d with
      | look l => rfl
      | scale | translate | setStop => cases hd

/-- A segment is its points, with the samples of these if a look since they last moved needed
them. -/
theorem segment_eq (l : Life α) : l.segment = l.curve.segment l.remembers := by
  rw [segment_lately, Curve.foldl_looks _ fun _ => moves_of_mem_lately]
  rfl

theorem polyline_segment (l : Life α) : l.segment.polyline = l.curve.samples := by
  rw [segment_eq, Curve.polyline_segment]

end Life

/-- Samples that are remembered are those of the points. -/
def Segment.Coherent (s : Segment α) : Prop := ∀ ps, s.cache = some ps → ps = s.curve.samples

def Path.Coherent (p : Path α) : Prop := ∀ s ∈ p.segments, s.Coherent

theorem Segment.Coherent.polyline {s : Segment α} (h : s.Coherent) :
    s.polyline = s.curve.samples := by
  rw [Segment.polyline]
  cases hs : s.cache with
  | none => rfl
  | some ps => exact h ps hs

theorem Segment.coherent_ofCurve (c : Curve α) : (ofCurve c).Coherent := nofun

theorem Life.coherent (l : Life α) : l.segment.Coherent := by
  intro ps hps
  rw [segment_eq, Curve.segment] at hps ⊢
  split at hps <;> cases hps
  rfl

end

end Reaming
