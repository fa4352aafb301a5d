import Reaming.Json.Value

namespace Reaming.Json

/-- A number as a double, unless it lies past the largest one. -/
def float? : Json → Option Float
  | .number n => n.toFloat?
  | _ => none

def bool? : Json → Option Bool
  | .bool b => some b
  | _ => none

def string? : Json → Option String
  | .string s => s
  | _ => none

def list? {β : Type} (item? : Json → Option β) : Json → Option (List β)
  | .array items => items.mapM item?
  | _ => none

/-- The values of the named fields, in the order of the names; some may be missing. An object may
have more members, but none of these twice. An array gives the fields in order, from the first
on, and nothing more. -/
def fields? (names : List String) : Json → Option (List (Option Json))
  | .array items =>
    if items.length ≤ names.length then
      some ((List.range names.length).map fun i => items[i]?)
    else none
  | .object members =>
    if members.all (fun m => m.1.isSome) &&
        names.all (fun name => members.countP (fun m => m.1 == some name) ≤ 1) then
      some (names.map fun name => (members.find? fun m => m.1 == some name).map Prod.snd)
    else none
  | _ => none

def choice? : Json → Option (String × Option Json)
  | .string (some name) => some (name, none)
  | .object [(some name, v)] => some (name, some v)
  | _ => none

/-- The name of a choice without data; null counts as none. -/
def plainChoice? (v : Json) : Option String :=
  match choice? v with
  | some (name, none) => some name
  | some (name, some .null) => some name
  | _ => none

def required? {β : Type} (read? : Json → Option β) (field : Option Json) : Option β :=
  field.bind read?

def optional? {β : Type} (absent : β) (read? : Json → Option β) : Option Json → Option β
  | none => some absent
  | some v => read? v

end Reaming.Json
