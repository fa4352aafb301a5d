import Reaming.Proofs.Area.NetArea
import Reaming.Proofs.Area.Renamed

namespace Reaming

variable {α : Type}

/-- Where a figure stands once one more is drawn at place `n`. -/
def displaced (n i : Nat) : Nat := if i < n then i else i + 1

theorem displaced_strictMono (n : Nat) : StrictMono (displaced n) := by
  intro i j hij
  simp only [displaced]
  split <;> split <;> omega

theorem exists_displaced {n j : Nat} (h : j ≠ n) : ∃ i, displaced n i = j := by
  rcases Nat.lt_or_gt_of_ne h with hj | hj
  · exact ⟨j, if_pos hj⟩
  · refine ⟨j - 1, ?_⟩
    rw [displaced, if_neg (by omega)]
    omega

theorem getElem?_displaced {β : Type} (before after : List β) (x : β) (i : Nat) :
    (before ++ x :: after)[displaced before.length i]? = (before ++ after)[i]? := by
  by_cases hi : i < before.length
  · rw [displaced, if_pos hi, List.getElem?_append_left hi, List.getElem?_append_left hi]
  · have hi' := Nat.le_of_not_lt hi
    rw [displaced, if_neg hi, List.getElem?_append_right (by omega), List.getElem?_append_right hi',
      Nat.succ_sub hi', List.getElem?_cons_succ]

def Placed.rename (name : Nat → Nat) (p : Placed α) : Placed α := ⟨name p.index, p.figure⟩

/-- One more figure moves those drawn after it. -/
theorem placed_displaced (before after : List (Figure α)) (f : Figure α) :
    ∃ earlier later, placed (before ++ f :: after) = earlier ++ ⟨before.length, f⟩ :: later ∧
      (placed (before ++ after)).map (Placed.rename (displaced before.length)) =
        earlier ++ later := by
  let later : List (Placed α) := (after.zipIdx before.length).map fun q => ⟨q.2 + 1, q.1⟩
  have hbefore : ∀ p ∈ placed before, p.rename (displaced before.length) = p := by
    intro p hp
    have hlt := (List.getElem?_eq_some_iff.mp (mem_placed.mp hp)).1
    exact congrArg (Placed.mk · p.figure) (if_pos hlt)
  have hafter : ∀ q ∈ after.zipIdx before.length,
      Placed.rename (displaced before.length) ⟨q.2, q.1⟩ = ⟨q.2 + 1, q.1⟩ := by
    intro q hq
    have hle := List.le_snd_of_mem_zipIdx hq
    exact congrArg (Placed.mk · q.1) (if_neg (Nat.not_lt.mpr hle))
  refine ⟨placed before, later, ?_, ?_⟩
  · simp [placed, later, List.zipIdx_append, List.zipIdx_cons, List.zipIdx_succ]
  · have hsplit : placed (before ++ after) =
        placed before ++ (after.zipIdx before.length).map fun q => ⟨q.2, q.1⟩ := by
      simp [placed, List.zipIdx_append]
    rw [hsplit, List.map_append, List.map_congr_left hbefore, List.map_id', List.map_map]
    exact congrArg (placed before ++ ·) (List.map_congr_left hafter)

theorem closedOf_rename (name : Nat → Nat) (figures : List (Placed α)) :
    closedOf (figures.map (Placed.rename name)) = (closedOf figures).map (Placed.rename name) :=
  List.filter_map

variable [Scalar α] {name : Nat → Nat}

namespace Forest

theorem holds_rename (mono : StrictMono name) (outer inner : Placed α) :
    holds (outer.rename name) (inner.rename name) = holds outer inner := by
  have hname (i j : Nat) : (name i == name j) = (i == j) := by
    rw [Bool.eq_iff_iff, beq_iff_eq, beq_iff_eq, mono.injective.eq_iff]
  simp [holds, Placed.rename, bne, hname, mono.lt_iff_lt]

theorem closer_rename (name : Nat → Nat) (best : Option (Placed α)) (next : Placed α) :
    closer (best.map (Placed.rename name)) (next.rename name) =
      (closer best next).map (Placed.rename name) := by
  cases best with
  | none => rfl
  | some b =>
    rw [closer, apply_ite (Option.map (Placed.rename name))]
    rfl

theorem chooseParent_rename (mono : StrictMono name) (all : List (Placed α)) (inner : Placed α) :
    chooseParent (all.map (Placed.rename name)) (inner.rename name) =
      (chooseParent all inner).map name := by
  have hholds : (all.map (Placed.rename name)).filter (holds · (inner.rename name)) =
      (all.filter (holds · inner)).map (Placed.rename name) := by
    rw [List.filter_map]
    exact congrArg _ (List.filter_congr fun outer _ => holds_rename mono outer inner)
  have hfound := foldl_choose_map (closer_rename name) (all.filter (holds · inner)) none
  rw [Option.map_none] at hfound
  rw [chooseParent, chooseParent, hholds, hfound, apply_ite (Option.map name), Option.map_map,
    Option.map_map]
  rfl

theorem chooseParent_leave_out {o : Placed α} (h : o.figure.closed = false)
    (earlier later : List (Placed α)) (inner : Placed α) :
    chooseParent (earlier ++ o :: later) inner = chooseParent (earlier ++ later) inner := by
  have hheld : holds o inner = false := by simp [holds, h]
  simp [chooseParent, hheld]

theorem parent?_build (figures : List (Figure α)) (i : Nat) : (build figures).parent? i =
    figures[i]?.bind fun f => chooseParent (placed figures) ⟨i, f⟩ := by
  rw [parent?, build, List.getElem?_map, placed_getElem?]
  cases figures[i]? <;> rfl

/-- With an open figure drawn among them, the others nest as they do without it. -/
theorem renamed_of_open (before after : List (Figure α)) {f : Figure α} (h : f.closed = false) :
    Renamed (displaced before.length) (build (before ++ after)) (build (before ++ f :: after)) where
  injective := (displaced_strictMono _).injective
  closed := by
    intro i
    rw [Bool.eq_iff_iff, build_isClosed, build_isClosed, getElem?_displaced]
  parent := by
    intro i
    obtain ⟨earlier, later, hplaced, hrename⟩ := placed_displaced before after f
    rw [parent?_build, parent?_build, getElem?_displaced, hplaced, Option.map_bind]
    congr 1
    funext g
    rw [chooseParent_leave_out h, ← hrename]
    exact chooseParent_rename (displaced_strictMono _) _ ⟨i, g⟩
  named := by
    intro j hj
    obtain ⟨g, hg, hclosed⟩ := build_isClosed.mp hj
    apply exists_displaced
    rintro rfl
    rw [List.getElem?_append_right (Nat.le_refl _), Nat.sub_self, List.getElem?_cons_zero] at hg
    obtain rfl := Option.some.inj hg
    rw [h] at hclosed
    cases hclosed

end Forest

theorem areaAt_displaced (before after : List (Figure α)) (f : Figure α) (i : Nat) :
    areaAt (before ++ f :: after) (displaced before.length i) = areaAt (before ++ after) i := by
  rw [areaAt, areaAt, getElem?_displaced]

theorem insideSoFar_rename (this f : Placed α) (inside : List (Placed α)) :
    insideSoFar (this.rename name) (f.rename name) (inside.map (Placed.rename name)) =
      (insideSoFar this f inside).map (Placed.rename name) := by
  rw [insideSoFar, insideSoFar, apply_ite (List.map (Placed.rename name)), List.map_append]
  rfl

/-- Net areas hang on which figures are the same, not on where they stand. -/
theorem netArea_rename (injective : Function.Injective name) :
    (∀ (this : Placed α) (figures : List (Placed α)),
      netArea (this.rename name) (figures.map (Placed.rename name)) = netArea this figures) ∧
    ∀ (this : Placed α) (area : α) (inside figures : List (Placed α)),
      subtractNet (this.rename name) area (inside.map (Placed.rename name))
        (figures.map (Placed.rename name)) = subtractNet this area inside figures := by
  have hskips (this f : Placed α) :
      ((f.rename name).index == (this.rename name).index || !(f.rename name).figure.closed) =
        (f.index == this.index || !f.figure.closed) := by
    rw [Bool.eq_iff_iff]
    simp [Placed.rename, injective.eq_iff]
  refine netArea.mutual_induct _ _ ?_ ?_ ?_ ?_
  · intro this figures ih
    rw [netArea, netArea, ← ih]
    rfl
  · intro this area inside
    rw [List.map_nil, subtractNet, subtractNet]
  · intro this area inside f figures hskip ih
    rw [List.map_cons, subtractNet, subtractNet, hskips, if_pos hskip, if_pos hskip, ih]
  · intro this area inside f figures htake ihf ih
    rw [List.map_cons, subtractNet, subtractNet, hskips, if_neg htake, if_neg htake,
      insideSoFar_rename, ihf, ih]

theorem netArea_leave_out {o : Placed α} (h : o.figure.closed = false) (this : Placed α)
    (earlier later : List (Placed α)) :
    netArea this (earlier ++ o :: later) = netArea this (earlier ++ later) := by
  have hother : isOther this o = false := by simp [isOther, h]
  rw [netArea, netArea, subtractNet_filter, subtractNet_filter this _ [] (earlier ++ later)]
  simp [hother]

theorem largest?_rename (all : List (Placed α)) :
    largest? (all.map (Placed.rename name)) = (largest? all).map (Placed.rename name) := by
  have hrename := closedOf_rename name all
  rw [closedOf, closedOf] at hrename
  rw [largest?, largest?, hrename]
  refine foldl_choose_map (fun best p => ?_) _ none
  cases best with
  | none => rfl
  | some b =>
    rw [apply_ite (Option.map (Placed.rename name))]
    rfl

theorem largest?_leave_out {o : Placed α} (h : o.figure.closed = false)
    (earlier later : List (Placed α)) :
    largest? (earlier ++ o :: later) = largest? (earlier ++ later) := by
  simp [largest?, h]

theorem largestMinusOthers_of_open (before after : List (Figure α)) {f : Figure α}
    (h : f.closed = false) :
    largestMinusOthers (before ++ f :: after) = largestMinusOthers (before ++ after) := by
  obtain ⟨earlier, later, hplaced, hrename⟩ := placed_displaced before after f
  have hopen : (Placed.mk before.length f).figure.closed = false := h
  unfold largestMinusOthers
  dsimp only
  rw [hplaced, largest?_leave_out hopen, ← hrename, largest?_rename]
  cases largest? (placed (before ++ after)) with
  | none => rfl
  | some main =>
    have hnet := netArea_leave_out hopen (main.rename (displaced before.length)) earlier later
    rw [← hrename, (netArea_rename (displaced_strictMono _).injective).1] at hnet
    exact hnet

section ordered

variable [Scalar.Ordered α]

/-- An open figure changes nothing wherever it is drawn: the same areas are added and subtracted in
the same order. -/
theorem composeFigures_of_open (before after : List (Figure α)) {f : Figure α}
    (h : f.closed = false) (policy : AreaPolicy) :
    composeFigures (before ++ f :: after) policy = composeFigures (before ++ after) policy := by
  cases policy with
  | largestMinusOthers => exact largestMinusOthers_of_open before after h
  | containmentForest =>
    have hregions := (Forest.renamed_of_open before after h).regions_eq (build_ranked _)
      (build_ranked _) (displaced_strictMono _) fun j p hj => (Forest.build_closed _ j p hj).1
    rw [composeFigures, composeFigures, hregions, List.map_map]
    exact congrArg Scalar.sum
      (List.map_congr_left fun r _ => r.area_rename (areaAt_displaced before after f))

/-- All open figures can be left out, those behind some that are kept first. -/
theorem composeFigures_closed (before figures : List (Figure α)) (policy : AreaPolicy) :
    composeFigures (before ++ figures) policy =
      composeFigures (before ++ figures.filter (·.closed)) policy := by
  induction figures generalizing before with
  | nil => rfl
  | cons f figures ih =>
    cases h : f.closed with
    | false =>
      rw [composeFigures_of_open before figures h, ih, List.filter_cons_of_neg (by simp [h])]
    | true =>
      rw [List.append_cons, ih, List.filter_cons_of_pos h, List.append_assoc, List.singleton_append]

theorem composeArea_closed (paths : List (Path α)) (policy : AreaPolicy) :
    composeArea paths policy = composeArea (paths.filter (·.closed)) policy := by
  have hfigures : (paths.map Path.figure).filter (·.closed) =
      (paths.filter (·.closed)).map Path.figure := by
    rw [List.filter_map]
    rfl
  have hclosed := composeFigures_closed [] (paths.map Path.figure) policy
  rw [hfigures] at hclosed
  exact hclosed

end ordered

/-- Open paths take no part in the area of a drawing: only its closed paths and their order count,
to the last bit of every sum. -/
theorem composeArea_eq_of_closed [Scalar.Ordered α] (policy : AreaPolicy)
    (paths : List (Path α)) : composeArea paths policy =
      composeArea (paths.filter (·.closed)) policy ∧
    ∀ others : List (Path α), others.filter (·.closed) = paths.filter (·.closed) →
      composeArea others policy = composeArea paths policy := by
  refine ⟨composeArea_closed paths policy, fun others same => ?_⟩
  rw [composeArea_closed others, same, ← composeArea_closed paths]

section crossed

def openLine : Path Float := ⟨[.line ⟨-5.0, 5.0⟩ ⟨15.0, 5.0⟩], false⟩

def crossed : List (Path Float) :=
  [openLine, block 0.0 10.0, { block 0.0 20.0 with closed := false }, block 1.0 9.0]

theorem composeArea_eq_of_closed_crossed :
    let others := [block 0.0 10.0, block 1.0 9.0, openLine]
    others.filter (·.closed) = crossed.filter (·.closed) ∧
      composeArea crossed .containmentForest = 36.0 ∧
      composeArea others .containmentForest = 36.0 ∧
      composeArea others .largestMinusOthers = composeArea crossed .largestMinusOthers := by
  intro others
  have hsame : others.filter (·.closed) = crossed.filter (·.closed) := rfl
  have harea : composeArea crossed .containmentForest = 36.0 := by decide +kernel
  obtain ⟨_, hforest⟩ := composeArea_eq_of_closed .containmentForest crossed
  obtain ⟨_, hlargest⟩ := composeArea_eq_of_closed .largestMinusOthers crossed
  exact ⟨hsame, harea, (hforest others hsame).trans harea, hlargest others hsame⟩

end crossed

end Reaming
