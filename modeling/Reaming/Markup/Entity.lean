namespace Reaming.Markup

def hexDigit? (c : Char) : Option Nat :=
  if c.isDigit then some (c.toNat - '0'.toNat)
  else if 'a' ≤ c ∧ c ≤ 'f' then some (c.toNat - 'a'.toNat + 10)
  else if 'A' ≤ c ∧ c ≤ 'F' then some (c.toNat - 'A'.toNat + 10)
  else none

def decimalDigit? (c : Char) : Option Nat :=
  if c.isDigit then some (c.toNat - '0'.toNat) else none

def code? (base limit : Nat) (digit? : Char → Option Nat) (digits : List Char) : Option Nat :=
  if limit < digits.length then none
  else (digits.mapM digit?).map (·.foldl (fun n d => base * n + d) 0)

def charOfCode? (code : Nat) : Option Char :=
  if h : code ≠ 0 ∧ code.isValidChar then some (Char.ofNatAux code h.2) else none

def entity? : List Char → Option Char
  | '#' :: 'x' :: digits => (code? 16 6 hexDigit? digits).bind charOfCode?
  | '#' :: digits => (code? 10 7 decimalDigit? digits).bind charOfCode?
  | name =>
    if name = "lt".toList then some '<'
    else if name = "gt".toList then some '>'
    else if name = "amp".toList then some '&'
    else if name = "apos".toList then some '\''
    else if name = "quot".toList then some '"'
    else none

def entityName? : List Char → Option (List Char × List Char)
  | [] => none
  | c :: cs =>
    if c = ';' then some ([], cs)
    else if c = '&' then none
    else (entityName? cs).map fun (name, rest) => (c :: name, rest)

theorem length_lt_of_entityName? {cs name rest : List Char}
    (h : entityName? cs = some (name, rest)) : rest.length < cs.length := by
  induction cs generalizing name with
  | nil => simp [entityName?] at h
  | cons c cs ih =>
    simp only [entityName?] at h
    split at h
    · simp_all
    · split at h
      · simp at h
      · obtain ⟨⟨n, r⟩, hn, he⟩ := Option.map_eq_some_iff.1 h
        simp only [Prod.mk.injEq] at he
        obtain ⟨_, rfl⟩ := he
        have := ih hn
        simp only [List.length_cons]
        omega

def unescape? : List Char → Option (List Char)
  | [] => some []
  | c :: cs =>
    if c = '&' then
      match _h : entityName? cs with
      | none => none
      | some (name, rest) => do
        let c ← entity? name
        return c :: (← unescape? rest)
    else (unescape? cs).map (c :: ·)
termination_by cs => cs.length
decreasing_by
  · have := length_lt_of_entityName? _h
    simp only [List.length_cons]
    omega
  · simp

end Reaming.Markup
