import Reaming.Proofs.PathData.RoundTrip

namespace Reaming.PathData
open Decimal

theorem pointWords_reread {q : Point Float} (h : q.Finite) :
    pointWords q.reread = pointWords q := by
  rw [pointWords, pointWords, ← fixed3_reread h.1, ← fixed3_reread h.2]
  rfl

theorem strokeWords_reread {c : Curve Float} (h : ∀ q ∈ c.points, q.Finite) :
    strokeWords (c.map Point.reread).stroke = strokeWords c.stroke := by
  have hwords : ∀ q ∈ c.points, pointWords q.reread = pointWords q :=
    fun q hq => pointWords_reread (h q hq)
  cases c <;> simp only [Curve.points, List.forall_mem_cons] at hwords <;>
    simp only [Curve.map, Curve.stroke, strokeWords, hwords]

/-- Rounding the points of a path leaves its text as it is. -/
theorem write_reread {p : Path Float} (finite : p.Finite) :
    write (p.map Point.reread) = write p := by
  have hmove : ((p.map Point.reread).start?.map Stroke.moveTo).toList.flatMap strokeWords =
      (p.start?.map Stroke.moveTo).toList.flatMap strokeWords := by
    rw [Path.start?, Path.start?, Path.map, List.head?_map]
    cases hs : p.segments.head? with
    | none => rfl
    | some s =>
      have hstart := pointWords_reread (finite.start (List.mem_of_head? hs))
      have hwords : strokeWords (.moveTo s.start.reread) = strokeWords (.moveTo s.start) :=
        congrArg (List.cons "M") hstart
      rw [Option.map_some, Option.map_some, Segment.start_map]
      exact congrArg (· ++ []) hwords
  have hcurves : ((p.map Point.reread).segments.map fun s => s.curve.stroke).flatMap strokeWords =
      (p.segments.map fun s => s.curve.stroke).flatMap strokeWords := by
    rw [Path.map, List.map_map, List.flatMap_map, List.flatMap_map]
    exact List.flatMap_congr fun s hs => strokeWords_reread (finite s hs)
  have hempty : (p.map Point.reread).isEmpty = p.isEmpty := by
    rw [Path.isEmpty, Path.map, List.isEmpty_map, Path.isEmpty]
  have hclosed : (p.map Point.reread).closed = p.closed := rfl
  rw [write, write, pathWords, pathWords, hempty, Path.strokes, Path.strokes, hclosed,
    List.flatMap_append, List.flatMap_append, List.flatMap_append, List.flatMap_append, hmove,
    hcurves]

/-- The numbers in a written path are numbers with three places. -/
theorem mem_tokens_write {p : Path Float} (joined : p.Joined) (finite : p.Finite) {text : List Char}
    (h : .number text ∈ tokens (write p).toList) : ∃ x, text = (fixed3 x).toList := by
  rw [tokens_write joined.nonempty (finite_strokePoints finite)] at h
  obtain ⟨s, _, h⟩ := List.mem_flatMap.mp h
  rcases List.mem_cons.mp h with h | h
  · cases h
  · obtain ⟨q, _, h⟩ := List.mem_flatMap.mp h
    rcases List.mem_cons.mp h with h | h
    · exact ⟨q.x, Token.number.inj h⟩
    · exact ⟨q.y, Token.number.inj (List.mem_singleton.mp h)⟩

def rewrite? (text : String) : Option String :=
  (read text : Except Error (List (Path Float))).toOption.bind fun ps => ps.head?.map write

/-- A written path has one text. The path that is read from it is written as that text, and read
from it again, however often; and no zero in it has a minus. -/
theorem write_canonical {p : Path Float} (joined : p.Joined) (finite : p.Finite) :
    (∃ q : Path Float, read (write p) = .ok [q] ∧ write q = write p ∧ read (write q) = .ok [q]) ∧
      (∀ n, (fun text : Option String => text.bind rewrite?)^[n] (some (write p)) =
        some (write p)) ∧
      ∀ text, .number text ∈ tokens (write p).toList → text ≠ "-0.000".toList := by
  have hread := read_write_eq joined finite
  have hwrite := write_reread finite
  refine ⟨⟨p.map Point.reread, hread, hwrite, hwrite ▸ hread⟩, fun n => ?_, ?_⟩
  · have hcycle : rewrite? (write p) = some (write p) := by
      rw [rewrite?, hread]
      exact congrArg some hwrite
    exact Function.iterate_fixed hcycle n
  · intro text htext hzero
    obtain ⟨x, rfl⟩ := mem_tokens_write joined finite htext
    exact text_ne_negative_zero _ (String.toList_inj.mp hzero)

theorem write_canonical_extremePath : extremePath.Joined ∧ extremePath.Finite ∧
    (∃ q : Path Float, read (write extremePath) = .ok [q] ∧ write q = write extremePath ∧
      read (write q) = .ok [q]) ∧
    rewrite? (write extremePath) = some (write extremePath) ∧
    .number "0.000".toList ∈ tokens (write extremePath).toList ∧
    .number "-0.000".toList ∉ tokens (write extremePath).toList := by
  have finite : extremePath.Finite := by decide +kernel
  obtain ⟨hread, hcycle, hzero⟩ := write_canonical extremePath_joined finite
  have hone := hcycle 1
  rw [Function.iterate_one, Option.bind_some] at hone
  have hunsigned : .number "0.000".toList ∈ tokens (write extremePath).toList := by
    have hfixed : "0.000" = fixed3 (-0.0) := by decide +kernel
    rw [tokens_write extremePath_joined.nonempty (finite_strokePoints finite), hfixed]
    -- the first line of the path ends on a zero with a minus
    have hstroke : .lineTo ⟨1.7976931348623157e308, -0.0⟩ ∈ extremePath.strokes := .tail _ (.head _)
    exact List.mem_flatMap.mpr ⟨_, hstroke, .tail _ (.tail _ (.head _))⟩
  exact ⟨extremePath_joined, finite, hread, hone, hunsigned, fun h => hzero _ h rfl⟩

end Reaming.PathData
