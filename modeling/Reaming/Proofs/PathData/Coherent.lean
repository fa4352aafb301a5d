import Reaming.Proofs.Geometry.Cache
import Reaming.Proofs.PathData.Sketch

namespace Reaming

variable {α : Type} [Scalar α]

namespace Path

theorem Coherent.push {p : Path α} (h : p.Coherent) (c : Curve α) :
    (p.push (.ofCurve c)).Coherent := by
  intro s hs
  rcases List.mem_append.mp hs with hs | hs
  · exact h s hs
  · rw [List.mem_singleton.mp hs]
    exact Segment.coherent_ofCurve c

theorem Coherent.snapTo {p : Path α} (h : p.Coherent) (q : Point α) : (p.snapTo q).Coherent := by
  intro s hs
  rcases List.mem_append.mp hs with hs | hs
  · exact h s (List.dropLast_subset _ hs)
  · obtain ⟨t, _, rfl⟩ := Option.map_eq_some_iff.mp (Option.mem_toList.mp hs)
    exact Segment.coherent_ofCurve _

theorem Coherent.close {p : Path α} (h : p.Coherent) (pen : Point α) : (p.close pen).Coherent := by
  rw [Path.close]
  split
  · exact h
  · rename_i first _
    dsimp only
    split
    · exact h.snapTo first
    · exact h.push (.line pen first)

end Path

namespace PathData

def Sketch.Coherent (s : Sketch α) : Prop := ∀ q ∈ s.subpaths, q.path.Coherent

theorem Sketch.Coherent.onPath {s : Sketch α} (h : s.Coherent) {f : Path α → Path α}
    (hf : ∀ p : Path α, p.Coherent → (f p).Coherent) (pen : Point α) :
    Coherent { s with current := s.onPath f, pen := pen } := by
  intro q hq
  rcases List.mem_append.mp hq with hq | hq
  · exact h q (List.mem_append_left _ hq)
  · obtain ⟨q', hq', rfl⟩ := Option.map_eq_some_iff.mp (Option.mem_toList.mp hq)
    exact hf q'.path (h q' (List.mem_append_right _ (Option.mem_toList.mpr hq')))

theorem Sketch.Coherent.put {s : Sketch α} (h : s.Coherent) (k : Stroke α) :
    (s.put k).Coherent := by
  cases k with
  | moveTo p =>
    intro q hq
    rcases List.mem_append.mp hq with hq | hq
    · exact h q hq
    · rw [List.mem_singleton.mp hq]
      exact nofun
  | lineTo | quadraticTo | cubicTo => exact h.onPath (fun p hp => hp.push _) _
  | close => exact h.onPath (fun p hp => hp.close s.pen) _

theorem Sketch.Coherent.step {s : Sketch α} (h : s.Coherent) (i : Item α) :
    (s.step i).Coherent := by
  cases i with
  | group c g => exact h.put _
  | letter c =>
    rw [Sketch.step]
    cases c.verb
    case moveTo | arcTo => exact h
    case closePath => exact h.put .close
    all_goals
      have hopened (p : Path α) (hp : p.Coherent) : Path.Coherent { p with closed := false } := hp
      exact h.onPath hopened s.pen

theorem Sketch.Coherent.after {s : Sketch α} (h : s.Coherent) (is : List (Item α)) :
    (s.after is).Coherent := by
  induction is generalizing s with
  | nil => exact h
  | cons i is ih => exact ih (h.step i)

theorem read_coherent {text : String} {ps : List (Path α)} (h : read text = .ok ps) :
    ∀ p ∈ ps, p.Coherent := by
  obtain ⟨ws, _, _, _, rfl⟩ := readTokens_eq_ok_iff_sketch.mp h
  have hblank : (Sketch.blank : Sketch α).Coherent := nofun
  intro p hp
  obtain ⟨q, hq, rfl⟩ := List.mem_map.mp (List.mem_of_mem_filter hp)
  exact hblank.after (items ws) q hq

end PathData

end Reaming
