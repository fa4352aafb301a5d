import Reaming.Files.Tree

namespace Reaming.Files

variable {files : Files} {place other : Place} {entry : FileEntry}

theorem find?_put_self (h : place.isGiven = false) :
    (files.put place entry).find? place = some entry := by
  have hfirst : (files.put place entry).entries.find? (·.1 == place) = some (place, entry) :=
    List.find?_cons_of_pos (beq_self_eq_true place)
  rw [find?, h, hfirst]
  rfl

theorem entries_put_other (ne : other ≠ place) :
    (files.put place entry).entries.find? (·.1 == other) =
      files.entries.find? (·.1 == other) := by
  rw [put, List.find?_cons_of_neg (by simpa using ne.symm), List.find?_filter]
  congr 1
  funext e
  by_cases he : e.1 = other <;> simp [he, ne]

theorem any_put (h : files.entries.any (fun e => other.isPrefixOf e.1) = true) :
    (files.put place entry).entries.any (fun e => other.isPrefixOf e.1) = true := by
  obtain ⟨e, he, hprefix⟩ := List.any_eq_true.mp h
  apply List.any_eq_true.mpr
  by_cases hplace : e.1 = place
  · exact ⟨_, List.mem_cons_self, hplace ▸ hprefix⟩
  · exact ⟨e, List.mem_cons_of_mem _ (List.mem_filter.mpr ⟨he, by simpa using hplace⟩), hprefix⟩

/-- A directory stays one when something is put in another place. -/
theorem directory_put (ne : other ≠ place) (h : files.find? other = some .directory) :
    (files.put place entry).find? other = some .directory := by
  rw [find?] at h ⊢
  rw [entries_put_other ne]
  by_cases hgiven : other.isGiven = true
  · rw [if_pos hgiven]
  · rw [if_neg hgiven] at h ⊢
    cases hfound : files.entries.find? (·.1 == other) with
    | some e =>
      rw [hfound] at h
      exact h
    | none =>
      rw [hfound] at h
      have hany := (Option.ite_none_right_eq_some.mp h).1
      exact if_pos (any_put hany)

theorem step_directory {name : String} {next : Place} (h : files.step place name = .ok next) :
    files.find? place = some .directory := by
  unfold step at h
  split at h
  · cases h
  · assumption
  · cases h

/-- What is put where no directory is stands in the way of no walk. -/
theorem walk_put (free : files.find? place ≠ some .directory) {names : List String}
    {start last : Place} (h : files.walk start names = .ok last) :
    (files.put place entry).walk start names = .ok last := by
  induction names generalizing start with
  | nil => exact h
  | cons name names ih =>
    cases hstep : files.step start name with
    | error e =>
      rw [walk, List.foldlM_cons, hstep] at h
      cases h
    | ok next =>
      rw [walk, List.foldlM_cons, hstep] at h
      have hstart := step_directory hstep
      have hne : start ≠ place := by
        rintro rfl
        exact free hstart
      have hput : (files.put place entry).step start name = .ok next := by
        rw [← hstep, step, step, directory_put hne hstart, hstart]
      rw [walk, List.foldlM_cons, hput]
      exact ih h

/-- A file that is written stands where it was put, unless it went into a device. Its place is
reached as before. -/
theorem writeAt_ok {content : ByteArray} {written : Files}
    (h : files.writeAt place content = .ok written) :
    (written.find? place = some .sink ∨ written.find? place = some (.file content)) ∧
      ∀ start names, files.walk start names = .ok place →
        written.walk start names = .ok place := by
  have hput (free : files.find? place ≠ some .directory) :
      ((files.put place (.file content)).find? place = some .sink ∨
        (files.put place (.file content)).find? place = some (.file content)) ∧
      ∀ start names, files.walk start names = .ok place →
        (files.put place (.file content)).walk start names = .ok place := by
    have hgiven : place.isGiven = false := by
      rw [← Bool.not_eq_true]
      intro hgiven
      exact free (by rw [find?, if_pos hgiven])
    exact ⟨.inr (find?_put_self hgiven), fun _ _ => walk_put free⟩
  unfold writeAt at h
  split at h
  · cases h
  · cases h
  · rename_i hsink
    cases h
    exact ⟨.inl hsink, fun _ _ => id⟩
  · rename_i hfile
    cases h
    exact hput (by rw [hfile]; rintro ⟨⟩)
  · rename_i hnone
    cases h
    exact hput (by rw [hnone]; rintro ⟨⟩)

/-- Only a text that ends in a cut has an empty last piece. -/
theorem getLast?_splitAt {cut : Char → Bool} {cs : List Char} (ne : cs ≠ [])
    (last : ∀ c ∈ cs.getLast?, cut c = false) : (Text.splitAt cut cs).getLast? ≠ some [] := by
  induction cs with
  | nil => exact absurd rfl ne
  | cons c cs ih =>
    rw [Text.splitAt]
    by_cases hcs : cs = []
    · subst hcs
      rw [if_neg (by simp [last c rfl]), Text.splitAt]
      rintro ⟨⟩
    · have hrest := ih hcs (by rwa [List.getLast?_cons_of_ne_nil hcs] at last)
      split
      · rwa [List.getLast?_cons_of_ne_nil (Text.splitAt_ne_nil cut cs)]
      · cases hpieces : Text.splitAt cut cs with
        | nil => exact absurd hpieces (Text.splitAt_ne_nil cut cs)
        | cons piece pieces =>
          rw [hpieces] at hrest
          cases pieces with
          | nil => rintro ⟨⟩
          | cons p ps => simpa using hrest

/-- A path that does not end in a slash has a last name. -/
theorem getLast?_pathNames {path : String} {names : List String}
    (slash : path.endsWith "/" = false) (h : pathNames path = .ok names) :
    names.getLast? ≠ some "" := by
  have hlast : ∀ c ∈ path.toList.getLast?, (c == '/') = false := by
    intro c hc
    apply beq_false_of_ne
    rintro rfl
    rw [String.endsWith_eq_endsWith_toSlice, String.Slice.endsWith_string_eq_false_iff,
      String.copy_toSlice] at slash
    obtain ⟨front, hfront⟩ := List.getLast?_eq_some_iff.mp hc
    exact slash ⟨front, hfront.symm⟩
  unfold pathNames at h
  split at h
  · cases h
  · split at h
    · cases h
    · rename_i hpath
      split at h
      · cases h
      · cases h
        have hne : path.toList ≠ [] := fun hnil => hpath (String.toList_eq_nil_iff.mp hnil)
        rw [List.getLast?_map]
        intro hempty
        obtain ⟨piece, hpiece, hnone⟩ := Option.map_eq_some_iff.mp hempty
        rw [String.ofList_eq_empty_iff.mp hnone] at hpiece
        exact getLast?_splitAt hne hlast hpiece

/-- A path that names a file is followed name by name. -/
theorem write_names {names : List String} (h : names.getLast? ≠ some "") :
    (names.reverse.dropWhile (· == "")).reverse = names := by
  rw [← List.head?_reverse] at h
  cases hr : names.reverse with
  | nil => rw [← List.reverse_reverse names, hr]; rfl
  | cons n ns =>
    rw [hr] at h
    rw [List.dropWhile_cons_of_neg (by simpa using h), ← hr, List.reverse_reverse]

/-- A file that is written is put where its path leads. -/
theorem write_ok {path : String} {content : ByteArray} {written : Files}
    (h : files.write path content = .ok written) :
    ∃ place, files.locate path = .ok place ∧ files.writeAt place content = .ok written := by
  unfold write at h
  cases hnames : pathNames path with
  | error e =>
    rw [hnames] at h
    cases h
  | ok names =>
    rw [hnames] at h
    cases hslash : path.endsWith "/" with
    | true =>
      rw [hslash] at h
      change (files.walk _ _ >>= fun _ => .error .isDirectory) = _ at h
      generalize files.walk _ _ = reached at h
      cases reached <;> cases h
    | false =>
      rw [hslash] at h
      change (files.walk _ (names.reverse.dropWhile (· == "")).reverse >>= _) = _ at h
      rw [write_names (getLast?_pathNames hslash hnames)] at h
      cases hwalk : files.walk (pathOrigin path) names with
      | error e =>
        rw [hwalk] at h
        cases h
      | ok place =>
        rw [hwalk] at h
        refine ⟨place, ?_, h⟩
        rw [locate, hnames]
        exact hwalk

/-- What has been written is found again along the same path. Only a device keeps nothing. -/
theorem look_write {path : String} {content : ByteArray} {written : Files}
    (h : files.write path content = .ok written) :
    written.look path = .ok .sink ∨ written.look path = .ok (.file content) := by
  obtain ⟨place, hplace, hwritten⟩ := write_ok h
  obtain ⟨hfound, hwalk⟩ := writeAt_ok hwritten
  have hlocate : written.locate path = .ok place := by
    unfold locate at hplace ⊢
    cases hnames : pathNames path with
    | error e =>
      rw [hnames] at hplace
      cases hplace
    | ok names =>
      rw [hnames] at hplace
      exact hwalk _ _ hplace
  have hlook {entry : FileEntry} (h : written.find? place = some entry) :
      written.look path = .ok entry := by
    simp only [look, hlocate, bind, Except.bind, h]
    rfl
  exact hfound.imp hlook hlook

end Reaming.Files
