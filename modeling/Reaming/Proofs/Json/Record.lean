import Mathlib.Data.List.Nodup
import Reaming.Json.Decode
import Reaming.Proofs.Json.RoundTrip

namespace Reaming.Json

theorem find?_field {members : List (Text × Json)} (h : (members.map Prod.fst).Nodup)
    {m : Text × Json} (hm : m ∈ members) : members.find? (fun n => n.1 == m.1) = some m := by
  induction members with
  | nil => cases hm
  | cons n ns ih =>
    obtain ⟨hn, hns⟩ := List.nodup_cons.mp h
    rcases List.mem_cons.mp hm with rfl | hm
    · exact List.find?_cons_of_pos (beq_self_eq_true m.1)
    · have hne : ¬(n.1 == m.1) = true := fun heq =>
        hn (beq_iff_eq.mp heq ▸ List.mem_map_of_mem hm)
      rw [List.find?_cons_of_neg (p := fun n : Text × Json => n.1 == m.1) hne]
      exact ih hns hm

theorem countP_field_le {members : List (Text × Json)} (h : (members.map Prod.fst).Nodup)
    (k : Text) : members.countP (fun m => m.1 == k) ≤ 1 := by
  have hcount := List.nodup_iff_count_le_one.mp h k
  rwa [List.count_eq_countP, List.countP_map] at hcount

def sparse (members : List (String × Option Json)) : Json :=
  .object (members.filterMap fun m => m.2.map (some m.1, ·))

section sparse
variable {members : List (String × Option Json)}

theorem keys_sparse (members : List (String × Option Json)) :
    ((members.filterMap fun m => m.2.map (some m.1, ·)).map Prod.fst).Sublist
      ((members.map Prod.fst).map some) := by
  induction members with
  | nil => exact .slnil
  | cons m ms ih =>
    obtain ⟨k, v?⟩ := m
    cases v? with
    | none => exact ih.cons (some k)
    | some v => exact ih.cons_cons (some k)

theorem find?_sparse (h : (members.map Prod.fst).Nodup) {m : String × Option Json}
    (hm : m ∈ members) :
    ((members.filterMap fun n => n.2.map (some n.1, ·)).find? fun n => n.1 == some m.1).map
      Prod.snd = m.2 := by
  cases hv : m.2 with
  | none =>
    rw [List.find?_eq_none.mpr, Option.map_none]
    intro n hn hkey
    obtain ⟨n', hn', hvalue⟩ := List.mem_filterMap.mp hn
    obtain ⟨v, hv', rfl⟩ := Option.map_eq_some_iff.mp hvalue
    obtain rfl : n' = m := List.inj_on_of_nodup_map h hn' hm (Option.some.inj (beq_iff_eq.mp hkey))
    rw [hv] at hv'
    cases hv'
  | some v =>
    have hmem : (some m.1, v) ∈ members.filterMap fun n => n.2.map (some n.1, ·) :=
      List.mem_filterMap.mpr ⟨m, hm, by rw [hv]; rfl⟩
    have hkeys := (h.map fun _ _ => Option.some.inj).sublist (keys_sparse members)
    rw [find?_field hkeys hmem]
    rfl

/-- The fields of a record are found by their names, those that are missing among them. -/
theorem fields?_sparse {names : List String} (keys : members.map Prod.fst = names)
    (h : names.Nodup) : fields? names (sparse members) = some (members.map Prod.snd) := by
  subst keys
  have hkeys := (h.map fun _ _ => Option.some.inj).sublist (keys_sparse members)
  have hsome : (members.filterMap fun m => m.2.map (some m.1, ·)).all (fun m => m.1.isSome) = true := by
    simp only [List.all_eq_true, List.mem_filterMap, Option.map_eq_some_iff]
    rintro _ ⟨m, _, v, _, rfl⟩
    rfl
  have honce : (members.map Prod.fst).all (fun name =>
      (members.filterMap fun m => m.2.map (some m.1, ·)).countP (fun m => m.1 == some name) ≤ 1) =
        true := by
    simp only [List.all_eq_true, decide_eq_true_eq]
    exact fun name _ => countP_field_le hkeys (some name)
  rw [sparse, fields?, if_pos (by rw [hsome, honce]; rfl), List.map_map]
  exact congrArg some (List.map_congr_left fun m hm => find?_sparse h hm)

end sparse

theorem plain_ofFloat (x : Float) : Plain (ofFloat x) := by
  unfold ofFloat
  cases hn : Number.ofFloat? x with
  | none => exact .null
  | some n => exact .number (Number.written_ofFloat? hn)

theorem plain_sparse {members : List (String × Option Json)}
    (h : ∀ m ∈ members, ∀ v ∈ m.2, Plain v) : Plain (sparse members) := by
  have hmember {n : Text × Json} (hn : n ∈ members.filterMap fun m => m.2.map (some m.1, ·)) :
      n.1.isSome = true ∧ Plain n.2 := by
    obtain ⟨m, hm, hvalue⟩ := List.mem_filterMap.mp hn
    obtain ⟨v, hv, rfl⟩ := Option.map_eq_some_iff.mp hvalue
    exact ⟨rfl, h m hm v hv⟩
  exact .object (fun n hn => (hmember hn).1) fun n hn => (hmember hn).2

end Reaming.Json
