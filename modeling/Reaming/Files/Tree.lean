import Reaming.Files.Place

namespace Reaming

inductive FileEntry where
  | file (content : ByteArray)
  | directory
  /-- A device that is always empty and takes whatever is written. -/
  | sink
  /-- Something that the system lets nobody read or write. -/
  | refused (reason : String)

/-- A tree of files. A directory is there if it is listed or leads to something that is. -/
structure Files where
  entries : List (Place × FileEntry)

namespace Files

/-- An empty working directory, on a system with a directory for temporary files and a null
device. -/
def fresh : Files := ⟨[(["/", "tmp"], .directory), (["/", "dev", "null"], .sink)]⟩

def find? (files : Files) (place : Place) : Option FileEntry :=
  if place.isGiven then some .directory
  else match files.entries.find? (·.1 == place) with
    | some (_, entry) => some entry
    | none => if files.entries.any (fun e => place.isPrefixOf e.1) then some .directory else none

def put (files : Files) (place : Place) (entry : FileEntry) : Files :=
  ⟨(place, entry) :: files.entries.filter (·.1 != place)⟩

/-- Goes one name further from a directory. An empty name and a dot stay; two dots go up. Nothing
has to stand at the end. -/
def step (files : Files) (place : Place) (name : String) : Except FileError Place :=
  match files.find? place with
  | none => .error .notFound
  | some .directory =>
    if name = "" ∨ name = "." then .ok place
    else if name = ".." then .ok place.above
    else if longestName < name.utf8ByteSize then .error .nameTooLong
    else .ok (place ++ [name])
  | some _ => .error .notDirectory

def walk (files : Files) (place : Place) (names : List String) : Except FileError Place :=
  names.foldlM files.step place

/-- The place that a path leads to. All directories on the way have to be there, also those that
it leaves again. -/
def locate (files : Files) (path : String) : Except FileError Place := do
  files.walk (pathOrigin path) (← pathNames path)

def look (files : Files) (path : String) : Except FileError FileEntry := do
  match files.find? (← files.locate path) with
  | none => throw .notFound
  | some entry => return entry

def isThere (files : Files) (path : String) : Bool :=
  match files.look path with
  | .ok _ => true
  | .error _ => false

def read (files : Files) (path : String) : Except FileError ByteArray := do
  match ← files.look path with
  | .directory => throw .isDirectory
  | .refused reason => throw (.other reason)
  | .sink => return .empty
  | .file content => return content

def writeAt (files : Files) (place : Place) (content : ByteArray) : Except FileError Files :=
  match files.find? place with
  | some .directory => .error .isDirectory
  | some (.refused reason) => .error (.other reason)
  | some .sink => .ok files
  | some (.file _) | none => .ok (files.put place (.file content))

/-- Writes a file whose directory is there. A path with slashes at its end asks for a directory,
which cannot be written: its last name is not looked at. -/
def write (files : Files) (path : String) (content : ByteArray) : Except FileError Files := do
  let names := ((← pathNames path).reverse.dropWhile (· == "")).reverse
  if path.endsWith "/" then
    let _ ← files.walk (pathOrigin path) (names.dropLast ++ ["."])
    throw .isDirectory
  files.writeAt (← files.walk (pathOrigin path) names) content

/-- Makes every directory that some names lead through. What has been made stays, also when a
later name fails. -/
def makeAlong (files : Files) (place : Place) : List String → Except FileError Place × Files
  | [] => (.ok place, files)
  | name :: names =>
    match files.step place name with
    | .error e => (.error e, files)
    | .ok next =>
      let made := if (files.find? next).isNone then files.put next .directory else files
      made.makeAlong next names

/-- Makes a directory and those on the way to it. An empty path asks for none. -/
def createDirectories (files : Files) (path : String) : Except FileError Unit × Files :=
  if path = "" then (.ok (), files)
  else match pathNames path with
    | .error e => (.error e, files)
    | .ok names =>
      match files.makeAlong (pathOrigin path) names with
      | (.error e, made) => (.error e, made)
      | (.ok place, made) =>
        match made.find? place with
        | some .directory => (.ok (), made)
        | _ => (.error .occupied, made)

end Files

end Reaming
