import Reaming.Text.Lines

namespace Reaming

inductive FileError where
  | notFound
  | isDirectory
  | notDirectory
  | occupied
  | nameTooLong
  | nulInName
  /-- Any other reason, in the system's words. -/
  | other (reason : String)
  deriving DecidableEq, Repr

def FileError.message : FileError → String
  | .notFound => "No such file or directory (os error 2)"
  | .isDirectory => "Is a directory (os error 21)"
  | .notDirectory => "Not a directory (os error 20)"
  | .occupied => "File exists (os error 17)"
  | .nameTooLong => "File name too long (os error 36)"
  | .nulInName => "file name contained an unexpected NUL byte"
  | .other reason => reason

/-- A place as the names that lead to it, from the working directory on. The root is a name, and
the directories above the working directory are two dots each. -/
abbrev Place := List String

namespace Place

/-- The place that two dots lead to. The root is above itself. -/
def above (place : Place) : Place :=
  match place.getLast? with
  | none | some ".." => place ++ [".."]
  | some "/" => place
  | some _ => place.dropLast

/-- The working directory, the root and all directories above are there without being listed. -/
def isGiven (place : Place) : Bool := place == ["/"] || place.all (· == "..")

end Place

def longestName : Nat := 255

def longestPath : Nat := 4095

def pathNames (path : String) : Except FileError (List String) :=
  if path.contains '\x00' then .error .nulInName
  else if path = "" then .error .notFound
  else if longestPath < path.utf8ByteSize then .error .nameTooLong
  else .ok ((Text.splitAt (· == '/') path.toList).map String.ofList)

def pathOrigin (path : String) : Place := if path.startsWith "/" then ["/"] else []

/-- A path without the slashes and dots at its end that change nothing. -/
def trimPath (path : List Char) : List Char :=
  go path.length path.reverse
where
  go : Nat → List Char → List Char
    | 0, cs => cs.reverse
    | fuel + 1, cs =>
      match cs with
      | '/' :: c :: rest => go fuel (c :: rest)
      | '.' :: '/' :: rest => go fuel ('/' :: rest)
      | cs => cs.reverse

def parentPath? (path : String) : Option String :=
  let whole := trimPath path.toList
  if whole = [] ∨ whole = ['/'] then none
  else
    let above := (whole.reverse.dropWhile (· != '/')).reverse
    some (String.ofList (if above = [] then [] else trimPath above))

def joinPath (directory name : String) : String :=
  if directory = "" ∨ directory.endsWith "/" then directory ++ name
  else directory ++ "/" ++ name

end Reaming
