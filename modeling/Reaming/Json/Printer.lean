import Reaming.Json.Value

namespace Reaming.Json

def hexDigit (n : Nat) : Char := Nat.digitChar n

/-- One character inside a string. Quotes, backslashes and controls are escaped, nothing else. -/
def escapeChar (c : Char) : List Char :=
  if c = '"' then ['\\', '"']
  else if c = '\\' then ['\\', '\\']
  else if c = '\x08' then ['\\', 'b']
  else if c = '\x0c' then ['\\', 'f']
  else if c = '\n' then ['\\', 'n']
  else if c = '\r' then ['\\', 'r']
  else if c = '\t' then ['\\', 't']
  else if c.toNat < 32 then
    ['\\', 'u', '0', '0', hexDigit (c.toNat / 16), hexDigit (c.toNat % 16)]
  else [c]

/-- A string in quotes. One without a text is written as half of a pair, which has none. -/
def stringText : Text → List Char
  | some s => '"' :: (s.toList.flatMap escapeChar ++ ['"'])
  | none => ['"', '\\', 'u', 'd', '8', '0', '0', '"']

/-- How the parts of a value are set apart: what begins a line at some depth, and what stands
between a key and its value. -/
structure Layout where
  newline : Nat → List Char
  afterColon : List Char

def Layout.compact : Layout := ⟨fun _ => [], []⟩

def Layout.pretty : Layout := ⟨fun depth => '\n' :: List.replicate (2 * depth) ' ', [' ']⟩

mutual

def text (l : Layout) (depth : Nat) : Json → List Char
  | .null => ['n', 'u', 'l', 'l']
  | .bool true => ['t', 'r', 'u', 'e']
  | .bool false => ['f', 'a', 'l', 's', 'e']
  | .number n => n.text
  | .string s => stringText s
  | .array [] => ['[', ']']
  | .array (v :: vs) =>
    '[' :: (l.newline (depth + 1) ++ text l (depth + 1) v ++ itemsText l (depth + 1) vs ++
      l.newline depth ++ [']'])
  | .object [] => ['\x7b', '\x7d']
  | .object (m :: ms) =>
    '\x7b' :: (l.newline (depth + 1) ++ memberText l (depth + 1) m ++
      membersText l (depth + 1) ms ++ l.newline depth ++ ['\x7d'])

def itemsText (l : Layout) (depth : Nat) : List Json → List Char
  | [] => []
  | v :: vs => ',' :: (l.newline depth ++ text l depth v ++ itemsText l depth vs)

def memberText (l : Layout) (depth : Nat) : Text × Json → List Char
  | (k, v) => stringText k ++ ':' :: (l.afterColon ++ text l depth v)

def membersText (l : Layout) (depth : Nat) : List (Text × Json) → List Char
  | [] => []
  | m :: ms => ',' :: (l.newline depth ++ memberText l depth m ++ membersText l depth ms)

end

def compact (v : Json) : String := String.ofList (text .compact 0 v)

def pretty (v : Json) : String := String.ofList (text .pretty 0 v)

end Reaming.Json
