import Reaming.Proofs.Files.Kept
import Reaming.Proofs.Settings.FileText

namespace Reaming.Settings

open Json

theorem fromUTF8?_toUTF8 (s : String) : String.fromUTF8? s.toUTF8 = some s := by
  unfold String.fromUTF8?
  rw [String.toUTF8_eq_toByteArray, dif_pos s.isValidUTF8]
  rfl

variable {s : Settings} {files saved : Files} {path : String}

/-- Whatever directories are made, a save ends in writing the text of the settings. -/
theorem save_ok (h : s.save files path = (.ok (), saved)) :
    ∃ made : Files, made.write path s.fileText.toUTF8 = .ok saved := by
  have hwrite {made : Files} (h : s.write made path = (.ok (), saved)) :
      made.write path s.fileText.toUTF8 = .ok saved := by
    unfold write at h
    cases hw : made.write path s.fileText.toUTF8 with
    | error e =>
      rw [hw] at h
      cases h
    | ok written =>
      rw [hw] at h
      cases h
      rfl
  unfold save at h
  split at h
  · exact ⟨files, hwrite h⟩
  · split at h
    · cases h
    · exact ⟨_, hwrite h⟩

theorem load_of_text {text : String} (h : files.look path = .ok (.file text.toUTF8)) :
    load files path = (ofFileText? text).elim (.error .malformed) .ok := by
  have hthere : files.isThere path = true := by
    rw [Files.isThere, h]
  have hread : files.read path = .ok text.toUTF8 := by
    rw [Files.read, h]
    rfl
  simp only [load, hthere, hread, fromUTF8?_toUTF8, Option.bind_some, Bool.not_true,
    Bool.false_eq_true, ↓reduceIte]
  cases ofFileText? text <;> rfl

/-- A settings file reads as the settings, with each double as its number reads. -/
theorem load_of_look (h : files.look path = .ok (.file s.fileText.toUTF8)) :
    load files path = (s.mapFloats? reread?).elim (.error .malformed) .ok := by
  rw [load_of_text h, ofFileText?_fileText]

/-- Settings that are loaded where they were saved have everything as it was but the doubles, and
each of these as its number reads. They are the same settings just when no double is moved, and
none is whose number is short. -/
theorem load_save (h : s.save files path = (.ok (), saved)) (kept : saved.look path ≠ .ok .sink) :
    load saved path = (s.mapFloats? reread?).elim (.error .malformed) .ok ∧
      (load saved path = .ok s ↔ ∀ x ∈ s.floats, reread? x = some x) ∧
      ((∀ x ∈ s.floats, ∃ n ∈ Number.ofFloat? x, n.Short) → load saved path = .ok s) := by
  obtain ⟨made, hwrite⟩ := save_ok h
  have hload := load_of_look ((Files.look_write hwrite).resolve_left kept)
  have hsame : load saved path = .ok s ↔ ∀ x ∈ s.floats, reread? x = some x := by
    rw [hload, ← mapFloats?_eq_self]
    cases s.mapFloats? reread? with
    | none => simp
    | some t => simp
  refine ⟨hload, hsame, fun short => hsame.mpr fun x hx => ?_⟩
  obtain ⟨n, hn, hshort⟩ := short x hx
  exact reread?_of_short hn hshort

def configured : Files := Files.fresh.put ["conf"] .directory

theorem createDirectories_fresh : Files.fresh.createDirectories "conf" = (.ok (), configured) := by
  have hnames : pathNames "conf" = .ok ["conf"] := by
    rw [pathNames, if_neg (by simp), if_neg (by decide), if_neg (by decide)]
    rfl
  have horigin : pathOrigin "conf" = [] := by simp [pathOrigin]
  have hmade : Files.fresh.makeAlong [] ["conf"] = (.ok ["conf"], configured) := rfl
  rw [Files.createDirectories, if_neg (by decide), hnames, horigin]
  dsimp only
  rw [hmade]
  rfl

def configPath : String := "conf/settings.json"

theorem pathNames_config : pathNames configPath = .ok ["conf", "settings.json"] := by
  rw [configPath, pathNames, if_neg (by simp), if_neg (by decide), if_neg (by decide)]
  rfl

theorem pathOrigin_config : pathOrigin configPath = [] := by simp [pathOrigin, configPath]

/-- The first save makes the directory. -/
theorem save_fresh (s : Settings) : s.save .fresh configPath =
    (.ok (), configured.put ["conf", "settings.json"] (.file s.fileText.toUTF8)) := by
  have hparent : parentPath? configPath = some "conf" := rfl
  have hslash : configPath.endsWith "/" = false := by decide +kernel
  have hwrite (content : ByteArray) : configured.write configPath content =
      .ok (configured.put ["conf", "settings.json"] (.file content)) := by
    rw [Files.write, pathNames_config, pathOrigin_config, hslash]
    rfl
  rw [save, hparent]
  dsimp only
  rw [createDirectories_fresh]
  dsimp only
  rw [write, hwrite]

theorem look_fresh (content : ByteArray) :
    (configured.put ["conf", "settings.json"] (.file content)).look configPath =
      .ok (.file content) := by
  rw [Files.look, Files.locate, pathNames_config, pathOrigin_config]
  rfl

theorem load_save_default : ∃ saved, (default : Settings).save .fresh configPath = (.ok (), saved) ∧
    load saved configPath = .ok default := by
  have kept : (configured.put ["conf", "settings.json"]
      (.file (default : Settings).fileText.toUTF8)).look configPath ≠ .ok .sink := by
    rw [look_fresh]
    rintro ⟨⟩
  have hshort : ∀ x ∈ (default : Settings).floats, ∃ n ∈ Number.ofFloat? x, n.Short := by
    decide +kernel
  exact ⟨_, save_fresh default, (load_save (save_fresh default) kept).2.2 hshort⟩

/-- The default settings with a floor of one inch, off by the last bit. -/
def inchFloor : Settings := { (default : Settings) with floorHeight := 25.400000000000002 }

theorem reread?_inchFloor : reread? inchFloor.floorHeight = some 25.4 := by
  have hn : Number.ofFloat? inchFloor.floorHeight =
      some ⟨false, "25".toList, "400000000000002".toList, []⟩ := by
    decide +kernel
  have hvalue : Number.movePoint? (Decimal.ofRatio false 25400000000000002 1) (-15) = some 25.4 := by
    rw [Number.movePoint?, if_neg (by decide), if_pos (by decide)]
    exact congrArg some (Decimal.shape_injective (by decide +kernel))
  rw [reread?, ofFloat, hn]
  exact congrArg (Option.map id) hvalue

theorem mapFloats?_inchFloor :
    inchFloor.mapFloats? reread? = some { inchFloor with floorHeight := 25.4 } := by
  have hconfig : inchFloor.reaming.mapFloats? reread? = some inchFloor.reaming :=
    Config.mapFloats?_eq_self.mpr fun x hx => reread?_default x (List.mem_append_left _ hx)
  rw [mapFloats?, hconfig, reread?_inchFloor]
  rfl

/-- The number of the floor is too long: it is read as the double below. -/
theorem load_inchFloor : inchFloor.floats.all Float.isFinite = true ∧
    ∃ saved, inchFloor.save .fresh configPath = (.ok (), saved) ∧
      load saved configPath = .ok { inchFloor with floorHeight := 25.4 } ∧
      load saved configPath ≠ .ok inchFloor := by
  have hload := load_of_look (look_fresh inchFloor.fileText.toUTF8)
  rw [mapFloats?_inchFloor] at hload
  refine ⟨by decide +kernel, _, save_fresh inchFloor, hload, ?_⟩
  rw [hload]
  intro hsame
  have hfloor : Decimal.shape 25.4 = Decimal.shape inchFloor.floorHeight :=
    congrArg (fun s => Decimal.shape s.floorHeight) (Except.ok.inj hsame)
  exact absurd hfloor (by decide +kernel)

end Reaming.Settings
