import Reaming.CommandLine.Arguments
import Reaming.Settings
import Reaming.Toolpath.Program

namespace Reaming.CommandLine

inductive RunError where
  | noHome
  | settings (cause : SettingsError)
  | unreadableDrawing (path : String) (cause : FileError)
  | badDrawing (path : String) (cause : LoadError)
  | noPaths (path : String)
  | noSuchPath (index count : Nat)
  | unwritableProgram (path : String) (cause : FileError)

def RunError.message : RunError → String
  | .noHome => "could not determine home directory"
  | .settings cause => cause.message
  | .unreadableDrawing path cause => s!"read drawing {path}: {cause.message}"
  | .badDrawing path cause => s!"load drawing {path}: {cause.message}"
  | .noPaths path => s!"no paths found in {path}"
  | .noSuchPath index count => s!"invalid path index {index} (drawing has {count} paths)"
  | .unwritableProgram path cause => s!"write G-code {path}: {cause.message}"

structure Outcome where
  exit : Nat
  stdout : List String
  stderr : String
  files : Files

structure Job where
  settings : Settings
  document : Document Float
  path : Path Float

def usage : List String :=
  ["Usage: curvereamer <drawing.svg> [options]",
    "  --path N          - Index of the path to ream (default 0)",
    "  --floor-height H  - Floor height in mm for the volume estimate",
    "  --out FILE        - Write G-code to FILE instead of stdout",
    "  --settings FILE   - Settings JSON (default ~/.curvereamer/settings.json)"]

def settingsPath (home : Option String) (o : Options) : Except RunError String :=
  match o.settings, home with
  | some path, _ => .ok path
  | none, some home => .ok (Settings.defaultPath home)
  | none, none => .error .noHome

def prepare (home : Option String) (files : Files) (o : Options) : Except RunError Job := do
  let settings ← (Settings.load files (← settingsPath home o)).mapError .settings
  let content ← (files.read o.drawing).mapError (.unreadableDrawing o.drawing)
  let document ←
    (Document.ofBytes settings.areaPolicy content.toList).mapError (.badDrawing o.drawing)
  if document.isEmpty then throw (.noPaths o.drawing)
  match document.paths[o.pathIndex]? with
  | none => throw (.noSuchPath o.pathIndex document.paths.length)
  | some path => return ⟨settings, document, path⟩

def report (o : Options) (job : Job) : List String :=
  let d := job.document
  let units := job.settings.volumeUnits
  let length := measureLabel job.path.length d.units.lengthSuffix
  let volume :=
    match d.volume? (o.floorHeight.getD job.settings.floorHeight) units with
    | some v => s!"{Decimal.fixed3 v} {units.suffix}"
    | none => "unavailable without physical units"
  [s!"Paths:  {d.paths.length}", s!"Area:   {d.areaLabel}", s!"Length: {length}",
    s!"Volume: {volume}"]

def deliver (files : Files) (o : Options) (shown program : List String) : Outcome :=
  match o.out with
  | none => ⟨0, shown ++ ["", "G-code:", ""] ++ program, "", files⟩
  | some out =>
    match files.write out (programText program).toUTF8 with
    | .ok files =>
      ⟨0, shown ++ [s!"Wrote {program.length} G-code lines to {out}"], "", files⟩
    | .error e =>
      ⟨1, shown, s!"Error: {(RunError.unwritableProgram out e).message}\n", files⟩

def run (home : Option String) (files : Files) (args : List String) : Outcome :=
  match Options.ofArguments args with
  | .error e => ⟨2, usage, s!"Error: {e.message}\n\n", files⟩
  | .ok o =>
    match prepare home files o with
    | .error e => ⟨1, [], s!"Error: {e.message}\n", files⟩
    | .ok job =>
      deliver files o (report o job)
        (reamingProgram job.path.vertices job.settings.reaming)

def Outcome.stdoutText (o : Outcome) : String :=
  String.join (o.stdout.map (· ++ "\n"))

end Reaming.CommandLine
