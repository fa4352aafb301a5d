import Reaming.CommandLine.Run

namespace Reaming.CommandLine

def refusal : IO.Error → FileError
  | .noFileOrDirectory .. => .notFound
  | .permissionDenied .. => .other "Permission denied (os error 13)"
  | .inappropriateType .. => .isDirectory
  | e => .other (toString e)

def addEntry (files : Files) (path : String) : IO Files :=
  match files.locate path with
  | .error _ => return files
  | .ok place => do
    try return files.put place (.file (← IO.FS.readBinFile path))
    catch e =>
      match refusal e with
      | .notFound => return files
      | .isDirectory => return files.put place .directory
      | reason => return files.put place (.refused reason.message)

def addAlong (files : Files) (names : List String) : IO Files :=
  (List.range (names.length + 1)).foldlM (fun files n =>
    addEntry files (String.intercalate "/" (names.take n))) files

/-- The files that a run reads, and the way to the one that it writes. -/
def filesOnDisk (home : Option String) (o : Options) : IO Files := do
  let files ← addAlong .fresh (o.drawing.splitOn "/")
  let files ← match settingsPath home o with
    | .ok path => addAlong files (path.splitOn "/")
    | .error _ => pure files
  match o.out with
  | some out => addAlong files (out.splitOn "/").dropLast
  | none => return files

/-- Writes the program to the disk. If that is refused, the run is repeated with the refusal. -/
def writeToDisk (home : Option String) (files : Files) (args : List String) (out : String)
    (done : Outcome) : IO Outcome := do
  match done.files.read out with
  | .error _ => return done
  | .ok content =>
    try
      IO.FS.writeBinFile out content
      return done
    catch e =>
      match files.locate out with
      | .error _ => return done
      | .ok place =>
        return run home (files.put place (.refused (refusal e).message)) args

def outcomeOnDisk (args : List String) : IO Outcome := do
  let home ← IO.getEnv "HOME"
  match Options.ofArguments args with
  | .error _ => return run home .fresh args
  | .ok o =>
    let files ← filesOnDisk home o
    let done := run home files args
    match o.out with
    | none => return done
    | some out => if done.exit = 0 then writeToDisk home files args out done else return done

end Reaming.CommandLine

def main (args : List String) : IO UInt32 := do
  let outcome ← Reaming.CommandLine.outcomeOnDisk args
  IO.print outcome.stdoutText
  IO.eprint outcome.stderr
  return outcome.exit.toUInt32
