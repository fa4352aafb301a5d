import Reaming.Proofs.Settings.Persist

namespace Reaming

namespace Json

/-- The value without what stands at a path of keys; the same value if nothing stands there. -/
def without : List String → Json → Json
  | [key], .object members => .object (members.filter fun m => m.1 != some key)
  | key :: path, .object members =>
    .object (members.map fun m => if m.1 = some key then (m.1, without path m.2) else m)
  | _, v => v

section without
variable {members : List (String × Option Json)}

theorem without_key (key : String) : (sparse members).without [key] =
    sparse (members.map fun m => if m.1 = key then (m.1, none) else m) := by
  rw [sparse, sparse, without, List.filter_filterMap, List.filterMap_map]
  congr 2
  funext m
  obtain ⟨k, v?⟩ := m
  by_cases hk : k = key <;> cases v? <;> simp [hk]

theorem without_path (key next : String) (path : List String) :
    (sparse members).without (key :: next :: path) =
      sparse (members.map fun m =>
        if m.1 = key then (m.1, m.2.map (without (next :: path))) else m) := by
  rw [sparse, sparse, without, List.map_filterMap, List.filterMap_map]
  · congr 2
    funext m
    obtain ⟨k, v?⟩ := m
    by_cases hk : k = key <;> cases v? <;> simp [hk]
  · exact List.cons_ne_nil next path

end without

end Json

open Json

namespace Omittable

def path : Omittable → List String
  | .reaming => ["reaming"]
  | .floorHeight => ["floor_height"]
  | .volumeUnits => ["volume_units"]
  | .areaPolicy => ["area_policy"]
  | .prologue => ["reaming", "prologue"]
  | .epilogue => ["reaming", "epilogue"]

def leave (gone : List Omittable) (v : Json) : Json := gone.foldr (fun o v => v.without o.path) v

theorem member_cons (gone : List Omittable) (o o' : Omittable) (v : Json) :
    member (o' :: gone) o v = if o = o' then none else member gone o v := by
  by_cases h : o = o' <;> simp [member, h]

theorem map_member (gone : List Omittable) (o : Omittable) (f : Json → Json) (v : Json) :
    (member gone o v).map f = member gone o (f v) := by
  rw [member, member]
  split <;> rfl

end Omittable

open Omittable

namespace Settings

theorem leave_toJson (s : Settings) (gone : List Omittable) :
    leave gone s.toJson = s.partJson gone := by
  induction gone with
  | nil => exact s.partJson_nil.symm
  | cons o gone ih =>
    rw [leave, List.foldr_cons, ← leave, ih, partJson, partJson]
    cases o <;> simp [Omittable.path, without_key, without_path, member_cons, map_member,
      Config.partJson]

theorem floats_filled (s : Settings) (gone : List Omittable) (prologue epilogue : String) :
    ∀ x ∈ (s.filled gone prologue epilogue).floats, x ∈ s.floats ∨ x ∈ (default : Settings).floats := by
  intro x hx
  rcases List.mem_append.mp hx with hx | hx
  · rw [filled] at hx
    by_cases hgone : .reaming ∈ gone
    · rw [if_pos hgone] at hx
      exact .inr (List.mem_append_left _ hx)
    · rw [if_neg hgone] at hx
      exact .inl (List.mem_append_left _ hx)
  · rw [List.mem_singleton.mp hx, filled]
    by_cases hgone : .floorHeight ∈ gone
    · rw [if_pos hgone]
      exact .inr (List.mem_append_right _ List.mem_cons_self)
    · rw [if_neg hgone]
      exact .inl (List.mem_append_right _ List.mem_cons_self)

/-- Stand-ins for program texts show up just where a text is gone from a configuration that is
there. -/
theorem filled_eq_iff (s : Settings) (gone : List Omittable) {p p' e e' : String} (hp : p ≠ p')
    (he : e ≠ e') : s.filled gone p e = s.filled gone p' e' ↔
      .reaming ∈ gone ∨ .prologue ∉ gone ∧ .epilogue ∉ gone := by
  by_cases hreaming : .reaming ∈ gone
  · simp [filled, hreaming]
  · by_cases hprologue : .prologue ∈ gone <;> by_cases hepilogue : .epilogue ∈ gone <;>
      simp [filled, Config.filled, hreaming, hprologue, hepilogue, hp, he]

variable {s : Settings} {files saved : Files} {path : String}

/-- Settings that are saved and read back unchanged are read from what is left of their file too. -/
theorem load_of_part (reproduced : ∀ x ∈ s.floats, reread? x = some x) {gone : List Omittable}
    {text : String} (left : read? text = some (leave gone s.toJson))
    (there : files.look path = .ok (.file text.toUTF8)) :
    load files path = .ok (s.filled gone "" "") := by
  have hfloats : ∀ x ∈ (s.filled gone "" "").floats, reread? x = some x := fun x hx =>
    (s.floats_filled gone "" "" x hx).elim (reproduced x) (reread?_default x)
  rw [load_of_text there, ofFileText?, left, Option.bind_some, leave_toJson, ofJson?_partJson,
    mapFloats?_eq_self.mpr hfloats]
  rfl

/-- What is left out of a settings file takes its default, but for a program text: it is empty when
only the text is left out. This holds of everything that may be left out together, and however the
rest is laid out. -/
theorem load_omitted (reproduced : ∀ x ∈ s.floats, reread? x = some x)
    (saves : s.save files path = (.ok (), saved)) (kept : saved.look path ≠ .ok .sink) :
    ∃ written v, saved.read path = .ok written.toUTF8 ∧ read? written = some v ∧
      ∀ gone : List Omittable,
        (∀ l : Layout, l.Blanks →
          read? (String.ofList (text l 0 (leave gone v))) = some (leave gone v)) ∧
        ∀ (edited : Files) (place rest : String), read? rest = some (leave gone v) →
          edited.look place = .ok (.file rest.toUTF8) →
          load edited place = .ok (s.filled gone "" "") ∧
            (load edited place =
                .ok (s.filled gone (default : Config).prologue (default : Config).epilogue) ↔
              .reaming ∈ gone ∨ .prologue ∉ gone ∧ .epilogue ∉ gone) := by
  obtain ⟨made, hwrite⟩ := save_ok saves
  have hstored := (Files.look_write hwrite).resolve_left kept
  have hread : saved.read path = .ok s.fileText.toUTF8 := by
    rw [Files.read, hstored]
    rfl
  refine ⟨s.fileText, s.toJson, hread, read?_pretty (s.plain_partJson []), fun gone => ⟨?_, ?_⟩⟩
  · intro l hl
    rw [leave_toJson]
    exact read?_text hl (s.plain_partJson gone)
  · intro edited place rest hrest hthere
    have hload := load_of_part reproduced hrest hthere
    refine ⟨hload, ?_⟩
    rw [hload, Except.ok.injEq]
    exact s.filled_eq_iff gone (by decide) (by decide)

def edited (text : String) : Files :=
  configured.put ["conf", "settings.json"] (.file text.toUTF8)

/-- Settings that differ from the defaults in a double of each level, a text and a choice. -/
def trimmed : Settings :=
  { (default : Settings) with
    reaming := { (default : Config) with safeZ := 7.5, epilogue := "M5\nM30" }
    floorHeight := 4.5
    areaPolicy := .largestMinusOthers }

/-- All but the configuration is left out, and then the floor and both program texts. -/
theorem load_omitted_trimmed : ∃ saved written v,
    trimmed.save .fresh configPath = (.ok (), saved) ∧ read? written = some v ∧
      load (edited (leave [.floorHeight, .volumeUnits, .areaPolicy] v).pretty) configPath =
        .ok { trimmed with floorHeight := 10.0, areaPolicy := .containmentForest } ∧
      load (edited (leave [.epilogue, .floorHeight, .prologue] v).compact) configPath =
        .ok { trimmed with
          reaming := { trimmed.reaming with prologue := "", epilogue := "" }, floorHeight := 10.0 } := by
  have hshort : ∀ x ∈ trimmed.floats, ∃ n ∈ Number.ofFloat? x, n.Short := by
    decide +kernel
  have reproduced : ∀ x ∈ trimmed.floats, reread? x = some x := by
    intro x hx
    obtain ⟨n, hn, hshort⟩ := hshort x hx
    exact reread?_of_short hn hshort
  have kept : (edited trimmed.fileText).look configPath ≠ .ok .sink := by
    rw [edited, look_fresh]
    rintro ⟨⟩
  obtain ⟨written, v, _, hwritten, hparts⟩ := load_omitted reproduced (save_fresh trimmed) kept
  refine ⟨_, written, v, save_fresh trimmed, hwritten, ?_, ?_⟩
  · obtain ⟨hlayout, hload⟩ := hparts [.floorHeight, .volumeUnits, .areaPolicy]
    exact (hload _ _ _ (hlayout _ blanks_pretty) (look_fresh _)).2.mpr (by decide)
  · obtain ⟨hlayout, hload⟩ := hparts [.epilogue, .floorHeight, .prologue]
    exact (hload _ _ _ (hlayout _ blanks_compact) (look_fresh _)).1

/-- Default settings whose prologue is left out have none when they are loaded again. -/
theorem load_without_prologue : ∃ saved v,
    (default : Settings).save .fresh configPath = (.ok (), saved) ∧
      saved.read configPath = .ok (default : Settings).fileText.toUTF8 ∧
      read? (default : Settings).fileText = some v ∧
      load (edited (leave [.prologue] v).pretty) configPath =
        .ok { (default : Settings) with reaming := { (default : Config) with prologue := "" } } ∧
      load (edited (leave [.prologue] v).pretty) configPath ≠ .ok default := by
  have hread : (edited (default : Settings).fileText).read configPath =
      .ok (default : Settings).fileText.toUTF8 := by
    rw [Files.read, edited, look_fresh]
    rfl
  have hplain := (default : Settings).plain_partJson [.prologue]
  rw [← leave_toJson] at hplain
  have hload := load_of_part reread?_default (read?_pretty hplain) (look_fresh _)
  refine ⟨_, _, save_fresh default, hread, read?_pretty ((default : Settings).plain_partJson []),
    hload, fun hsame => ?_⟩
  rw [edited, hload] at hsame
  have htext := congrArg (fun s => s.reaming.prologue) (Except.ok.inj hsame)
  exact absurd htext (by decide)

end Settings

end Reaming
