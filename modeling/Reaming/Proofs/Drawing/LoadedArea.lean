import Reaming.Proofs.Area.Scaling
import Reaming.Proofs.PathData.Coherent
import Reaming.Drawing.Document

namespace Reaming

section coherent
variable {α : Type} [Scalar α]

theorem readPaths_forall {P : Path α → Prop}
    (read : ∀ {text : String} {ps : List (Path α)}, PathData.read text = .ok ps → ∀ p ∈ ps, P p)
    {ds : List String} {ps : List (Path α)} (h : readPaths ds = .ok ps) : ∀ p ∈ ps, P p := by
  induction ds generalizing ps with
  | nil =>
    cases h
    exact nofun
  | cons d ds ih =>
    rw [readPaths] at h
    cases hd : (PathData.read d : Except _ (List (Path α))) with
    | error e =>
      rw [hd] at h
      cases h
    | ok qs =>
      rw [hd] at h
      cases hds : (readPaths ds : Except _ (List (Path α))) with
      | error e =>
        rw [hds] at h
        cases h
      | ok rs =>
        rw [hds] at h
        cases h
        exact List.forall_mem_append.mpr ⟨read hd, ih hds⟩

theorem readPaths_coherent {ds : List String} {ps : List (Path α)} (h : readPaths ds = .ok ps) :
    ∀ p ∈ ps, p.Coherent :=
  readPaths_forall PathData.read_coherent h

/-- What a document that has been loaded is made from. -/
theorem load_cases {d doc : Document α} {policy : AreaPolicy} {text : Markup.Bytes}
    (h : d.load policy text = (doc, none)) : ∃ scan size paths, Scan.ofBytes? text = some scan ∧
      readPaths scan.pathData = .ok paths ∧ doc = .ofPaths size policy paths := by
  rw [Document.load, Document.ofBytes] at h
  cases hscan : Scan.ofBytes? text with
  | none =>
    rw [hscan] at h
    cases h
  | some scan =>
    rw [hscan] at h
    simp only [Document.ofScan] at h
    cases hsize : (Size.ofScan scan : Except _ (Size α)) with
    | error e =>
      rw [hsize] at h
      cases h
    | ok size =>
      rw [hsize] at h
      cases hpaths : (readPaths scan.pathData : Except _ (List (Path α))) with
      | error e =>
        rw [hpaths] at h
        cases h
      | ok paths =>
        rw [hpaths] at h
        cases h
        exact ⟨scan, size, paths, rfl, hpaths, rfl⟩

end coherent

variable {K : Type} [Field K] [LinearOrder K] [IsStrictOrderedRing K] [Root K]

/-- The areas of the closed paths of a drawing, with the signs of their depths in a nesting. -/
def signedAreas (f : Forest) (paths : List (Path K)) : List K :=
  paths.zipIdx.map fun (p, i) => if p.closed = true then (-1) ^ f.depth i * p.area else 0

theorem composeArea_forest (paths : List (Path K)) : composeArea paths .containmentForest =
    (signedAreas (.build (paths.map Path.figure)) paths).sum := by
  rw [composeArea, composeFigures_forest, placed, List.zipIdx_map, List.map_map, List.map_map,
    signedAreas]
  refine congrArg List.sum (List.map_congr_left fun e _ => ?_)
  change Forest.share _ ⟨e.2, e.1.figure⟩ = _
  rw [Forest.share, Path.figure_eq]

/-- A path that is stored has the area of the path it is a scaled copy of. -/
theorem area_stored {p : Path K} (h : p.Coherent) (k : K) :
    (p.scale k).toOrigin.area = p.area * (k * k) := by
  have hscaled : (p.scale k).Coherent := Path.coherent_map _ p
  rw [Path.area_toOrigin hscaled, Path.area_scale h]

theorem signedAreas_stored (f : Forest) {paths : List (Path K)} (h : ∀ p ∈ paths, p.Coherent)
    (k : K) : (signedAreas f (paths.map fun p => (p.scale k).toOrigin)).sum =
      (signedAreas f paths).sum * (k * k) := by
  rw [signedAreas, signedAreas, List.zipIdx_map, List.map_map, ← List.sum_map_mul_right]
  refine congrArg List.sum (List.map_congr_left fun e he => ?_)
  have hp := h e.1 (List.fst_mem_of_mem_zipIdx he)
  change (if e.1.closed = true then (-1) ^ f.depth e.2 * (e.1.scale k).toOrigin.area else 0) = _
  rw [area_stored hp, ite_mul, zero_mul, mul_assoc]

/-- In exact arithmetic the area of a drawing grows with the square of the factor by which its paths
are scaled. So the area of a document is that of its paths at their declared size, although it is
worked out before they are scaled, and every path is stored with the area it has there. -/
theorem loaded_area (policy : AreaPolicy) :
    (∀ (paths : List (Path K)) (k : K), (∀ p ∈ paths, p.Coherent) →
      composeArea (paths.map (Path.scale k)) policy = k ^ 2 * composeArea paths policy) ∧
    ∀ (d doc : Document K) (text : Markup.Bytes), d.load policy text = (doc, none) →
      ∃ scan paths, Scan.ofBytes? text = some scan ∧ readPaths scan.pathData = .ok paths ∧
        doc.paths = paths.map (fun p => (p.scale doc.scale).toOrigin) ∧
        doc.area = composeArea (paths.map (Path.scale doc.scale)) policy ∧
        doc.paths.map Path.area = (paths.map (Path.scale doc.scale)).map Path.area ∧
        (policy = .containmentForest →
          doc.area = (signedAreas (.build (paths.map Path.figure)) doc.paths).sum) := by
  have hscale {paths : List (Path K)} (k : K) (h : ∀ p ∈ paths, p.Coherent) :
      composeArea (paths.map (Path.scale k)) policy = k ^ 2 * composeArea paths policy := by
    rw [composeArea_scale h, pow_two, mul_comm]
  refine ⟨fun paths k h => hscale k h, fun d doc text hload => ?_⟩
  obtain ⟨scan, size, paths, hscan, hpaths, rfl⟩ := load_cases hload
  have hcoherent := readPaths_coherent hpaths
  refine ⟨scan, paths, hscan, hpaths, rfl, ?_, ?_, ?_⟩
  · rw [composeArea_scale hcoherent, ← mul_assoc]
    rfl
  · rw [List.map_map]
    refine List.map_map.trans (List.map_congr_left fun p _ => ?_)
    exact Path.area_toOrigin (Path.coherent_map _ p)
  · rintro rfl
    refine Eq.trans ?_ (signedAreas_stored _ hcoherent size.scale).symm
    rw [← composeArea_forest, ← mul_assoc]
    rfl

def plate : Markup.Bytes :=
  Markup.bytes "<svg width='20mm' viewBox='0 0 10 10'><path d='M1 1H9V9H1ZM2 2H4V4H2Z'/></svg>"

theorem loaded_area_plate : ∃ (doc : Document ℚ) (paths : List (Path ℚ)),
    Document.empty.load .containmentForest plate = (doc, none) ∧ doc.scale = 2 ∧ doc.area = 240 ∧
      (∀ p ∈ paths, p.Coherent) ∧
      doc.area = composeArea (paths.map (Path.scale 2)) .containmentForest ∧
      composeArea (paths.map (Path.scale (-3))) .containmentForest =
        (-3) ^ 2 * composeArea paths .containmentForest := by
  obtain ⟨hnone, hscale, harea⟩ :
      let loaded := (Document.empty : Document ℚ).load .containmentForest plate
      loaded.2 = none ∧ loaded.1.scale = 2 ∧ loaded.1.area = 240 := by
    decide +kernel
  obtain ⟨hlists, hloads⟩ := loaded_area (K := ℚ) .containmentForest
  obtain ⟨scan, paths, _, hpaths, _, hcompose, _⟩ := hloads .empty _ plate (Prod.ext rfl hnone)
  have hcoherent := readPaths_coherent hpaths
  rw [hscale] at hcompose
  exact ⟨_, paths, Prod.ext rfl hnone, hscale, harea, hcoherent, hcompose,
    hlists paths (-3) hcoherent⟩

end Reaming
