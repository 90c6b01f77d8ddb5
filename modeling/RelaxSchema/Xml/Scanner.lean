import RelaxSchema.Xml.Character

/-!
# Scanning

A scanner takes something off the front of a text, or fails. Here are the scanners for the small
pieces of markup: white space, fixed strings, names, quoted values and references.
-/

namespace RelaxSchema.Xml

/-- Takes a value off the front of a text, or fails. -/
abbrev Scanner := StateT (List Char) Option

/-- A name with an optional qualifier before a colon. -/
structure QName where
  /-- What stands before the colon; empty, if there is none. -/
  qualifier : String
  /-- What stands behind it. -/
  localName : String
  deriving DecidableEq, Repr

/-- What an ampersand introduces. -/
inductive Reference where
  /-- A character. -/
  | character (c : Char)
  /-- A declared entity. -/
  | entity (name : String)
  deriving DecidableEq, Repr

namespace Scanner

/-! ### Pieces -/

/-- Whether the rest begins with a string. -/
def startsWith (text : String) : Scanner Bool := do return text.toList.isPrefixOf (← get)

/-- Takes `count` characters. -/
def skip (count : Nat) : Scanner Unit := modify fun rest => rest.drop count

/-- Takes a string. -/
def literal (text : String) : Scanner Unit := do
  if ← startsWith text then skip text.length else failure

/-- Takes a string if the rest begins with it, and tells whether it did. -/
def optionalLiteral (text : String) : Scanner Bool := do
  if ← startsWith text then
    skip text.length
    return true
  else return false

/-- Takes the characters of a class at the front. -/
def takeWhile (accept : Char → Bool) : Scanner (List Char) := fun rest => some (rest.span accept)

/-- Takes white space, if there is any. -/
def spaces : Scanner Unit := discard (takeWhile isSpace)

/-- Takes white space, at least one character. -/
def someSpaces : Scanner Unit := do
  if (← takeWhile isSpace).isEmpty then failure

/-- The characters before `stop`, in reverse behind `taken`, and what follows it. -/
def before (stop : List Char) (taken : List Char) : List Char → Option (List Char × List Char)
  | [] => none
  | c :: rest =>
    if stop.isPrefixOf (c :: rest) then some (taken.reverse, (c :: rest).drop stop.length)
    else if isChar c then before stop (c :: taken) rest
    else none

/-- Takes characters up to a string, and the string. -/
def upTo (stop : String) : Scanner (List Char) := before stop.toList []

/-- Takes an opening quotation mark. -/
def quote : Scanner Char := do
  match ← get with
  | c :: rest =>
    if c = '"' || c = '\'' then
      set rest
      return c
    else failure
  | [] => failure

/-- Takes anything between two equal quotation marks. -/
def quoted : Scanner (List Char) := do
  let mark ← quote
  let value ← takeWhile (· ≠ mark)
  literal (String.singleton mark)
  return value

/-! ### Names -/

/-- Takes a name, which may hold colons anywhere. -/
def name : Scanner String := do
  match ← get with
  | c :: _ =>
    if isNameStart c then return String.ofList (← takeWhile isNameChar) else failure
  | [] => failure

/-- A name with at most one colon in it. What stands before the colon may be empty, what stands
behind it may not, and each begins as a name does. -/
def splitName (characters : List Char) : Option QName :=
  let starts (part : List Char) : Bool := (part.head?.map isNameStart).getD true
  match characters.span (· ≠ ':') with
  | (whole, []) =>
    if !whole.isEmpty && starts whole then some ⟨"", String.ofList whole⟩ else none
  | (qualifier, _ :: part) =>
    if part.contains ':' || part.isEmpty || !starts qualifier || !starts part then none
    else some ⟨String.ofList qualifier, String.ofList part⟩

/-- Takes a name with an optional qualifier. -/
def qualifiedName : Scanner QName := do
  match splitName (← takeWhile isNameChar) with
  | some result => return result
  | none => failure

/-- Takes an attribute: its name, an equals sign and the quoted value as it is written. -/
def writtenAttribute : Scanner (QName × List Char) := do
  let name ← qualifiedName
  spaces
  literal "="
  spaces
  let value ← quoted
  if value.contains '<' || !value.all isChar then failure
  return (name, value)

/-! ### References -/

/-- The value of a digit below the base. -/
def digitValue (base : Nat) (c : Char) : Option Nat :=
  let value :=
    if c.isDigit then c.toNat - '0'.toNat
    else if 'a' ≤ c && c ≤ 'f' then c.toNat - 'a'.toNat + 10
    else if 'A' ≤ c && c ≤ 'F' then c.toNat - 'A'.toNat + 10
    else base
  if value < base then some value else none

/-- The number that digits stand for. -/
def numeral (base : Nat) (digits : List Char) : Nat :=
  digits.foldl (fun value c => value * base + (digitValue base c).getD 0) 0

/-- The character with a code point; the replacement character, if there is none. -/
def characterOf (code : Nat) : Char :=
  if code.isValidChar then Char.ofNat code else Char.ofNat 0xFFFD

/-- Takes the digits of a character reference. The code point has at most 32 bits. -/
def characterCode (base : Nat) : Scanner Reference := do
  let digits ← takeWhile fun c => (digitValue base c).isSome
  let code := numeral base digits
  let c := characterOf code
  if digits.isEmpty || 0x100000000 ≤ code || !isChar c then failure
  return .character c

/-- The character that a predefined entity stands for. -/
def predefined? : String → Option Char
  | "quot" => some '"'
  | "amp" => some '&'
  | "apos" => some '\''
  | "lt" => some '<'
  | "gt" => some '>'
  | _ => none

/-- Takes a reference, of which the ampersand is taken already. -/
def reference : Scanner Reference := do
  let result ←
    if ← optionalLiteral "#x" then characterCode 16
    else if ← optionalLiteral "#" then characterCode 10
    else do
      let name ← name
      match predefined? name with
      | some c => pure (.character c)
      | none => pure (.entity name)
  literal ";"
  return result

end Scanner

end RelaxSchema.Xml
