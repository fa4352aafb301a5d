import Reaming.Area.Policy
import Reaming.Files.Tree
import Reaming.Json.Drawing
import Reaming.Json.Printer
import Reaming.Json.Reader
import Reaming.Json.Toolpath

namespace Reaming

structure Settings where
  reaming : Config
  /-- The height in millimetres over which a volume is reckoned. -/
  floorHeight : Float
  volumeUnits : VolumeUnits
  areaPolicy : AreaPolicy

instance : Inhabited Settings where
  default :=
    { reaming := default
      floorHeight := 10.0
      volumeUnits := default
      areaPolicy := default }

inductive SettingsError where
  | unreadable (path : String) (cause : FileError)
  | malformed
  | noDirectory (path : String) (cause : FileError)
  | unwritable (path : String) (cause : FileError)

namespace SettingsError

def context : SettingsError → String
  | .unreadable path _ => s!"read settings {path}"
  | .malformed => "deserialize settings"
  | .noDirectory path _ => s!"create settings directory {path}"
  | .unwritable path _ => s!"write settings {path}"

def cause? : SettingsError → Option FileError
  | .unreadable _ cause | .noDirectory _ cause | .unwritable _ cause => some cause
  | .malformed => none

def message (e : SettingsError) : String :=
  match e.cause? with
  | none => e.context
  | some cause => s!"{e.context}: {cause.message}"

end SettingsError

namespace Settings

def toJson (s : Settings) : Json :=
  Json.record
    [("reaming", s.reaming.toJson), ("floor_height", .ofFloat s.floorHeight),
      ("volume_units", .ofString s.volumeUnits.name), ("area_policy", .ofString s.areaPolicy.name)]

/-- Fields that are missing take their default. -/
def ofJson? (v : Json) : Option Settings := do
  let absent : Settings := default
  match ← Json.fields? ["reaming", "floor_height", "volume_units", "area_policy"] v with
  | [reaming, floorHeight, volumeUnits, areaPolicy] =>
    return {
      reaming := ← Json.optional? absent.reaming Config.ofJson? reaming
      floorHeight := ← Json.optional? absent.floorHeight Json.float? floorHeight
      volumeUnits := ← Json.optional? absent.volumeUnits VolumeUnits.ofJson? volumeUnits
      areaPolicy := ← Json.optional? absent.areaPolicy AreaPolicy.ofJson? areaPolicy }
  | _ => none

def fileText (s : Settings) : String := s.toJson.pretty

def ofFileText? (text : String) : Option Settings := (Json.read? text).bind ofJson?

/-- Reads settings from a file. Without a file they are the defaults. -/
def load (files : Files) (path : String) : Except SettingsError Settings :=
  if !files.isThere path then .ok default
  else match files.read path with
    | .error e => .error (.unreadable path e)
    | .ok content =>
      match (String.fromUTF8? content).bind ofFileText? with
      | none => .error .malformed
      | some s => .ok s

def write (s : Settings) (files : Files) (path : String) : Except SettingsError Unit × Files :=
  match files.write path s.fileText.toUTF8 with
  | .error e => (.error (.unwritable path e), files)
  | .ok written => (.ok (), written)

/-- Writes settings to a file, and makes its directory first. The directory stays if the file is
refused. -/
def save (s : Settings) (files : Files) (path : String) : Except SettingsError Unit × Files :=
  match parentPath? path with
  | none => s.write files path
  | some directory =>
    match files.createDirectories directory with
    | (.error e, made) => (.error (.noDirectory directory e), made)
    | (.ok (), made) => s.write made path

/-- The defaults, with the program texts kept. -/
def reset (s : Settings) : Settings :=
  { (default : Settings) with
    reaming :=
      { (default : Config) with prologue := s.reaming.prologue, epilogue := s.reaming.epilogue } }

def defaultPath (home : String) : String :=
  joinPath (joinPath home ".curvereamer") "settings.json"

end Settings

end Reaming
