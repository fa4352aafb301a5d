namespace Reaming.Markup

/-- Markup is read byte by byte; only values that are asked for have to be text. -/
abbrev Bytes := List UInt8

def byte (c : Char) : UInt8 := c.toUInt8

def bytes (text : String) : Bytes := text.toList.map byte

def isSpace (b : UInt8) : Bool :=
  b == 32 || b == 9 || b == 10 || b == 13

def startsWithAnyCase (head : String) (text : Bytes) : Bool :=
  let lower (b : UInt8) := if 65 ≤ b && b ≤ 90 then b + 32 else b
  (bytes head).map lower |>.isPrefixOf (text.map lower)

def upTo (stop : UInt8) (text : Bytes) : Bytes × Bytes :=
  (text.takeWhile (· != stop), (text.dropWhile (· != stop)).tail)

theorem length_dropWhile_le {α : Type} (p : α → Bool) (l : List α) :
    (l.dropWhile p).length ≤ l.length :=
  (List.dropWhile_suffix p).length_le

theorem length_upTo_le (stop : UInt8) (text : Bytes) :
    (upTo stop text).2.length ≤ text.length := by
  have := length_dropWhile_le (· != stop) text
  simp only [upTo, List.length_tail]
  omega

def localName (name : Bytes) : Bytes :=
  match name.dropWhile (· != byte ':') with
  | [] => name
  | _ :: rest => rest

structure Element where
  name : Bytes
  attributes : Bytes
  deriving DecidableEq, Repr

/-- Finds the `>` that ends a declaration: the first one before which the bytes, given from the
last to the first, satisfy `complete`. -/
def declarationEnd? (complete : Bytes → Bool) (before : Bytes) : Bytes → Option (Bytes × Bytes)
  | [] => none
  | b :: bs =>
    if b == byte '>' && complete before then some (before.reverse, bs)
    else declarationEnd? complete (b :: before) bs

theorem length_lt_of_declarationEnd? {complete : Bytes → Bool} {before text body rest : Bytes}
    (h : declarationEnd? complete before text = some (body, rest)) :
    rest.length < text.length := by
  induction text generalizing before with
  | nil => simp [declarationEnd?] at h
  | cons b bs ih =>
    simp only [declarationEnd?] at h
    split at h
    · simp_all
    · have := ih h
      simp only [List.length_cons]
      omega

def declaration? (complete accepts : Bytes → Bool) (text : Bytes) : Option Bytes :=
  match declarationEnd? complete [] text with
  | none => none
  | some (body, rest) => if accepts body then some rest else none

theorem length_lt_of_declaration? {complete accepts : Bytes → Bool} {text rest : Bytes}
    (h : declaration? complete accepts text = some rest) : rest.length < text.length := by
  unfold declaration? at h
  split at h
  · simp at h
  · next hd =>
    split at h
    · exact Option.some.inj h ▸ length_lt_of_declarationEnd? hd
    · simp at h

/-- A comment ends at the first `-->` that leaves room for its own dashes. -/
def comment? : Bytes → Option Bytes :=
  declaration? (fun before => 4 ≤ before.length && (bytes "--").isPrefixOf before)
    (bytes "--").isPrefixOf

def rawText? : Bytes → Option Bytes :=
  declaration? (bytes "]]").isPrefixOf (startsWithAnyCase "[CDATA[")

/-- A document type may hold nested angle brackets, and has to say something. -/
def documentType? : Bytes → Option Bytes :=
  declaration? (fun before => before.count (byte '<') == before.count (byte '>'))
    fun body => startsWithAnyCase "DOCTYPE" body && !(body.drop 7).all isSpace

def skipDeclaration? (text : Bytes) : Option Bytes :=
  match text with
  | [] => none
  | b :: _ =>
    if b == byte '-' then comment? text
    else if b == byte '[' then rawText? text
    else if b == byte 'D' || b == byte 'd' then documentType? text
    else none

theorem length_lt_of_skipDeclaration? {text rest : Bytes}
    (h : skipDeclaration? text = some rest) : rest.length < text.length := by
  unfold skipDeclaration? at h
  split at h
  · simp at h
  · split at h
    · exact length_lt_of_declaration? h
    · split at h
      · exact length_lt_of_declaration? h
      · split at h
        · exact length_lt_of_declaration? h
        · simp at h

/-- The content of a start tag, up to the first `>` outside quotes, and the text behind it. -/
def tagContent (quote : Option UInt8) : Bytes → Bytes × Bytes
  | [] => ([], [])
  | b :: bs =>
    match quote with
    | some q =>
      let (content, rest) := tagContent (if b == q then none else some q) bs
      (b :: content, rest)
    | none =>
      if b == byte '>' then ([], bs)
      else
        let quoted := b == byte '"' || b == byte '\''
        let (content, rest) := tagContent (if quoted then some b else none) bs
        (b :: content, rest)

theorem length_tagContent_le (quote : Option UInt8) (text : Bytes) :
    (tagContent quote text).2.length ≤ text.length := by
  induction text generalizing quote with
  | nil => simp [tagContent]
  | cons b bs ih =>
    simp only [tagContent]
    split
    · exact Nat.le_succ_of_le (ih _)
    · split
      · simp
      · exact Nat.le_succ_of_le (ih _)

/-- The name in an end tag: blanks behind it do not count, unless there is nothing else. -/
def closingName (content : Bytes) : Bytes :=
  match (content.reverse.dropWhile isSpace).reverse with
  | [] => content
  | name => name

/-- The element of a tag, and whether it stays open. A slash at the end closes it at once. -/
def elementOf (content : Bytes) : Element × Bool :=
  let closed := content.getLast? == some (byte '/')
  let body := if closed then content.dropLast else content
  (⟨body.takeWhile (!isSpace ·), body.dropWhile (!isSpace ·)⟩, !closed)

/-- Reads the elements of a text in order. An end tag has to carry the name of the innermost open
element; elements left open at the end are fine. -/
def elementsFrom? (opened : List Bytes) (text : Bytes) : Option (List Element) :=
  match _whole : text.dropWhile (· != byte '<') with
  | [] => some []
  | [_] => some []
  | _ :: b :: rest =>
    if b == byte '!' then
      match _h : skipDeclaration? rest with
      | none => none
      | some rest => elementsFrom? opened rest
    else if b == byte '/' then
      match opened with
      | [] => none
      | name :: opened =>
        if closingName (upTo (byte '>') rest).1 == name then
          elementsFrom? opened (upTo (byte '>') rest).2
        else none
    else if b == byte '?' then
      let body := (upTo (byte '>') rest).1
      if 2 ≤ body.length && body.getLast? == some (byte '?') then
        elementsFrom? opened (upTo (byte '>') rest).2
      else none
    else
      let (element, stays) := elementOf (tagContent none (b :: rest)).1
      let opened := if stays then element.name :: opened else opened
      (elementsFrom? opened (tagContent none (b :: rest)).2).map (element :: ·)
termination_by text.length
decreasing_by
  all_goals
    have whole := length_dropWhile_le (· != byte '<') text
    rw [_whole] at whole
    simp only [List.length_cons] at whole
  · have := length_lt_of_skipDeclaration? _h
    omega
  · have := length_upTo_le (byte '>') rest
    omega
  · have := length_upTo_le (byte '>') rest
    omega
  · have := length_tagContent_le none (b :: rest)
    simp only [List.length_cons] at this
    omega

def elements? : Bytes → Option (List Element)
  | 0xEF :: 0xBB :: 0xBF :: text => elementsFrom? [] text
  | text => elementsFrom? [] text

end Reaming.Markup
