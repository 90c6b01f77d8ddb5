import RelaxSchema.Document.Text
import RelaxSchema.Document.Event

/-!
# Reading documents

Cuts the bytes of a document into events. The reader is lenient: a name is anything up to white
space, and the end of the input ends a tag. End tags must match the start tags.
-/

namespace RelaxSchema.Document

/-! ### Bytes -/

/-- The byte of an ASCII character. -/
abbrev byte (c : Char) : UInt8 := c.toUInt8

/-- White space between the parts of a tag. -/
def isSpaceByte (b : UInt8) : Bool :=
  b = byte ' ' || b = byte '\t' || b = byte '\n' || b = byte '\r'

/-- A byte with a capital letter of ASCII made small. -/
def lowerByte (b : UInt8) : UInt8 := if byte 'A' ≤ b && b ≤ byte 'Z' then b + 32 else b

/-- Whether bytes begin with an ASCII text, whose letters are small, in either case. -/
def beginsWith (text : String) (bytes : List UInt8) : Bool :=
  (text.toList.map byte).isPrefixOf ((bytes.take text.length).map lowerByte)

/-! ### Attributes -/

/-- Takes the key of an attribute and the equals sign behind it. The first byte belongs to the key,
whatever it is. -/
def takeKey? : List UInt8 → Option (List UInt8 × List UInt8)
  | [] => none
  | first :: bytes =>
    let (key, behind) := bytes.span fun b => b ≠ byte '=' && !isSpaceByte b
    match behind.dropWhile isSpaceByte with
    | [] => none
    | b :: rest => if b = byte '=' then some (first :: key, rest) else none

/-- Takes a quoted value. -/
def takeValue? (bytes : List UInt8) : Option (List UInt8 × List UInt8) :=
  match bytes.dropWhile isSpaceByte with
  | [] => none
  | mark :: rest =>
    if mark = byte '"' || mark = byte '\'' then
      match rest.span (· ≠ mark) with
      | (_, []) => none
      | (value, _ :: behind) => some (value, behind)
    else none

/-- Whether an attribute declares a namespace. -/
def declaresNamespace (name : String) : Bool := name = "xmlns" || name.startsWith "xmlns:"

/-- Reads attributes, at most `fuel` of them. `keys` are the keys before them, which must not come
again, and `found` the attributes before them. -/
def readAttributes : Nat → List (List UInt8) → Catalogue String → List UInt8 →
    Except MarkupFault (Catalogue String)
  | 0, _, _, _ => .error .attribute
  | fuel + 1, keys, found, bytes =>
    match bytes.dropWhile isSpaceByte with
    | [] => .ok found
    | bytes => do
      let some (key, bytes) := takeKey? bytes | .error .attribute
      let some (value, bytes) := takeValue? bytes | .error .attribute
      if keys.contains key then .error .attribute
      let some name := decodeBytes? key | .error .attributeName
      -- A declaration of a namespace is no attribute, and its value is not looked at.
      if declaresNamespace name then readAttributes fuel (key :: keys) found bytes
      else do
        let some value := readText? value | .error .attributeValue
        readAttributes fuel (key :: keys) (found.insert name value) bytes

/-! ### Tags -/

/-- The name in the content of a tag. -/
def tagName (content : List UInt8) : List UInt8 := content.takeWhile fun b => !isSpaceByte b

/-- Reads the content of a tag. -/
def readTag (content : List UInt8) : Except MarkupFault Tag := do
  let some name := decodeBytes? (tagName content) | .error .elementName
  let rest := content.dropWhile fun b => !isSpaceByte b
  let attributes ← readAttributes (rest.length + 1) [] .empty rest
  .ok ⟨name, attributes⟩

/-- Takes the content of a tag up to the next closing bracket outside of quotation marks, or to the
end. `mark` is the quotation mark that is open; `taken` is what was taken before, in reverse. -/
def takeTag (mark : Option UInt8) (taken : List UInt8) : List UInt8 → List UInt8 × List UInt8
  | [] => (taken.reverse, [])
  | b :: rest =>
    match mark with
    -- Inside of quotation marks a closing bracket is an ordinary byte.
    | some quote => takeTag (if b = quote then none else mark) (b :: taken) rest
    | none =>
      if b = byte '>' then (taken.reverse, rest)
      else takeTag (if b = byte '"' || b = byte '\'' then some b else none) (b :: taken) rest

/-- Takes bytes up to the next closing bracket, or to the end. -/
def takeToBracket (bytes : List UInt8) : List UInt8 × List UInt8 :=
  match bytes.span (· ≠ byte '>') with
  | (content, rest) => (content, rest.drop 1)

/-- The name in an end tag: trailing white space is left out, unless there is nothing else. -/
def endName (content : List UInt8) : List UInt8 :=
  match content.reverse.dropWhile isSpaceByte with
  | [] => content
  | reversed => reversed.reverse

/-! ### Remarks and sections -/

/-- Takes bytes up to the first closing bracket where `ends` holds of what stands before it, in
reverse. -/
def takeTo? (ends : List UInt8 → Bool) (taken : List UInt8) :
    List UInt8 → Option (List UInt8 × List UInt8)
  | [] => none
  | b :: rest =>
    if b = byte '>' && ends taken then some (taken.reverse, rest)
      else takeTo? ends (b :: taken) rest

/-- Whether reversed bytes end with two bytes of a kind. -/
def endsTwice (c : Char) (reversed : List UInt8) : Bool := [byte c, byte c].isPrefixOf reversed

/-- Takes a comment behind its exclamation mark. -/
def takeComment? (bytes : List UInt8) : Option (Event × List UInt8) := do
  let (content, rest) ← takeTo? (fun taken => 3 < taken.length && endsTwice '-' taken) [] bytes
  if beginsWith "--" content then some (.remark, rest) else none

/-- Takes a CDATA section behind its exclamation mark. -/
def takeSection? (bytes : List UInt8) : Option (Event × List UInt8) := do
  let (content, rest) ← takeTo? (endsTwice ']') [] bytes
  if beginsWith "[cdata[" content then
    let inner := (content.drop 7).take (content.length - 9)
    let text :=
      match decodeBytes? inner with
      | some text => .ok text
      | none => .error .cdata
    some (.cdata text, rest)
  else none

/-- Takes a document type behind its exclamation mark. Brackets are balanced in it, and it is not
empty. -/
def takeDocumentType? (bytes : List UInt8) : Option (Event × List UInt8) := do
  let balanced (taken : List UInt8) : Bool := taken.count (byte '<') = taken.count (byte '>')
  let (content, rest) ← takeTo? balanced [] bytes
  if beginsWith "doctype" content && !(content.drop 7).all isSpaceByte then some (.remark, rest)
  else none

/-- Takes what an exclamation mark introduces. -/
def takeDeclaration? (bytes : List UInt8) : Option (Event × List UInt8) :=
  match bytes.head?.map lowerByte with
  | none => none
  | some b =>
    if b = byte '-' then takeComment? bytes
    else if b = byte '[' then takeSection? bytes
    else if b = byte 'd' then takeDocumentType? bytes
    else none

/-- Takes a processing instruction, of which the question mark is still there. Something stands
between that and the one at its end. -/
def takeInstruction? (bytes : List UInt8) : Option (Event × List UInt8) :=
  let (content, rest) := takeToBracket bytes
  if 2 < content.length && content.getLast? = some (byte '?') then some (.remark, rest) else none

/-! ### Events -/

/-- A place in a document: what is left of it, and the names of the open elements. -/
structure Cursor where
  /-- The bytes that are left. -/
  rest : List UInt8
  /-- The names of the open elements, innermost first. -/
  names : List (List UInt8) := []

/-- Takes an end tag, of which the slash is still there. Its name must be that of the innermost open
element. -/
def takeEnd? (names : List (List UInt8)) (bytes : List UInt8) : Option (Event × Cursor) :=
  let (content, rest) := takeToBracket bytes
  match names with
  | [] => none
  | name :: others =>
    if endName (content.drop 1) = name then some (.finish, ⟨rest, others⟩) else none

/-- Takes a start tag, or the tag of an empty element. -/
def takeStart (names : List (List UInt8)) (bytes : List UInt8) : Event × Cursor :=
  let (content, rest) := takeTag none [] bytes
  if content.getLast? = some (byte '/') then (.empty (readTag content.dropLast), ⟨rest, names⟩)
  else (.start (readTag content), ⟨rest, tagName content :: names⟩)

/-- Takes the markup behind an opening bracket. -/
def takeMarkup? (names : List (List UInt8)) (bytes : List UInt8) : Option (Event × Cursor) :=
  match bytes with
  | [] => none
  | b :: behind =>
    if b = byte '!' then (takeDeclaration? behind).map fun (event, rest) => (event, ⟨rest, names⟩)
    else if b = byte '?' then
      (takeInstruction? bytes).map fun (event, rest) => (event, ⟨rest, names⟩)
    else if b = byte '/' then takeEnd? names bytes
    else some (takeStart names bytes)

/-- Takes a piece of character data. -/
def takeText (cursor : Cursor) : Event × Cursor :=
  let (written, rest) := cursor.rest.span (· ≠ byte '<')
  let text :=
    match readText? written with
    | some text => .ok text
    | none => .error .text
  (.text text, { cursor with rest := rest })

/-- The events of a document that has at most `fuel` of them, behind those found before, which are
in reverse. An opening bracket at the very end is not looked at. -/
def eventsWithin : Nat → List Event → Cursor → List Event
  | 0, found, _ => found.reverse
  | fuel + 1, found, cursor =>
    match cursor.rest with
    | [] => found.reverse
    | b :: behind =>
      if b = byte '<' then
        if behind.isEmpty then found.reverse
        else
          match takeMarkup? cursor.names behind with
          | some (event, cursor) => eventsWithin fuel (event :: found) cursor
          | none => (.broken :: found).reverse
      else
        let (event, cursor) := takeText cursor
        eventsWithin fuel (event :: found) cursor

/-- A byte order mark. -/
def byteOrderMark : List UInt8 := [0xEF, 0xBB, 0xBF]

/-- The events of a document. Each takes a byte at least, so there are no more than bytes. -/
def events (bytes : List UInt8) : List Event :=
  let bytes := if byteOrderMark.isPrefixOf bytes then bytes.drop 3 else bytes
  eventsWithin bytes.length [] ⟨bytes, []⟩

/-- The root of a document; `none`, if it has no element. -/
def read (limits : Limits) (bytes : List UInt8) : Except Error (Option Element) := do
  limits.check .xmlSize bytes.length
  ofEvents limits (events bytes)

end RelaxSchema.Document
