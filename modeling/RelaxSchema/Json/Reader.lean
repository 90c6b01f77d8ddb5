import RelaxSchema.Json.Number

/-!
# Reading JSON

Strict JSON: no comments, no trailing commas, no raw control characters. The nesting of arrays and
objects is limited. A value that nobody asks for is only scanned, which is laxer: it may be nested
without limit, its numbers may be of any size and its escapes may stand for half a character. Loops
over characters, items and members take a fuel, for which the length of the whole text is enough.
-/

namespace RelaxSchema.Json

/-- How closely a value is looked at. -/
inductive Scrutiny where
  /-- The value is used. -/
  | full
  /-- The value is skipped. -/
  | skipped
  deriving DecidableEq, Repr

/-- The text without white space in front. -/
def trimFront (input : List Char) : List Char :=
  input.dropWhile fun c => c = ' ' || c = '\n' || c = '\t' || c = '\r'

/-! ### Strings -/

/-- The value of a digit of base sixteen. -/
def hexValue? (c : Char) : Option Nat :=
  if c.isDigit then some (c.toNat - '0'.toNat)
  else if 'a' ≤ c && c ≤ 'f' then some (c.toNat - 'a'.toNat + 10)
  else if 'A' ≤ c && c ≤ 'F' then some (c.toNat - 'A'.toNat + 10)
  else none

/-- Takes four digits of base sixteen. -/
def takeUnit? : List Char → Option (Nat × List Char)
  | a :: b :: c :: d :: rest => do
    let a ← hexValue? a
    let b ← hexValue? b
    let c ← hexValue? c
    let d ← hexValue? d
    some (((a * 16 + b) * 16 + c) * 16 + d, rest)
  | _ => none

/-- Whether a unit is the first half of a pair that stands for one character. -/
def isHighUnit (unit : Nat) : Bool := 0xD800 ≤ unit && unit ≤ 0xDBFF

/-- Whether a unit is the second half of such a pair. -/
def isLowUnit (unit : Nat) : Bool := 0xDC00 ≤ unit && unit ≤ 0xDFFF

/-- Takes the character that four digits stand for, or eight digits in two escapes. -/
def takeCoded? (scrutiny : Scrutiny) (input : List Char) : Option (Char × List Char) := do
  let (unit, rest) ← takeUnit? input
  -- What is skipped only has to have four digits.
  if scrutiny = .skipped then some (' ', rest)
  else if isHighUnit unit then
    match rest with
    | '\\' :: 'u' :: rest =>
      let (low, rest) ← takeUnit? rest
      if isLowUnit low then
        some (Char.ofNat (0x10000 + (unit - 0xD800) * 0x400 + (low - 0xDC00)), rest)
      else none
    | _ => none
  else if isLowUnit unit then none
  else some (Char.ofNat unit, rest)

/-- The character that a letter stands for behind a backslash. -/
def escaped? : Char → Option Char
  | '"' => some '"'
  | '\\' => some '\\'
  | '/' => some '/'
  | 'b' => some '\x08'
  | 'f' => some '\x0c'
  | 'n' => some '\n'
  | 'r' => some '\r'
  | 't' => some '\t'
  | _ => none

/-- Takes the rest of a string up to its quotation mark, behind the characters found, which are in
reverse. It takes at most `fuel` characters and escapes. -/
def takeString? (scrutiny : Scrutiny) : Nat → List Char → List Char → Option (String × List Char)
  | 0, _, _ => none
  | _ + 1, _, [] => none
  | fuel + 1, found, c :: rest =>
    if c = '"' then some (String.ofList found.reverse, rest)
    else if c = '\\' then
      match rest with
      | 'u' :: rest => do
        let (c, rest) ← takeCoded? scrutiny rest
        takeString? scrutiny fuel (c :: found) rest
      | letter :: rest => do
        let c ← escaped? letter
        takeString? scrutiny fuel (c :: found) rest
      | [] => none
    else if c.toNat < 0x20 then none
    else takeString? scrutiny fuel (c :: found) rest

/-- Takes a string, quotation marks included. -/
def takeQuoted? (scrutiny : Scrutiny) (fuel : Nat) : List Char → Option (String × List Char)
  | '"' :: rest => takeString? scrutiny fuel [] rest
  | _ => none

/-! ### Values -/

/-- Puts a named value in its place among others, or in the place of the one of that name. -/
def insertMember (name : String) (value : Json) : List (String × Json) → List (String × Json)
  | [] => [(name, value)]
  | (other, old) :: rest =>
    if name < other then (name, value) :: (other, old) :: rest
    else if name = other then (name, value) :: rest
    else (other, old) :: insertMember name value rest

/-- Takes the items of an array up to its closing bracket, behind those found, which are in reverse;
`take?` takes an item. -/
def takeItems? (take? : List Char → Option (Json × List Char)) :
    Nat → List Json → List Char → Option (Json × List Char)
  | 0, _, _ => none
  | fuel + 1, found, input => do
    let (item, rest) ← take? input
    match trimFront rest with
    | ',' :: rest => takeItems? take? fuel (item :: found) rest
    | ']' :: rest => some (.array (item :: found).reverse, rest)
    | _ => none

/-- Takes the members of an object up to its closing bracket, behind those found; `take?` takes a
value. -/
def takeMembers? (scrutiny : Scrutiny) (take? : List Char → Option (Json × List Char))
    (size : Nat) : Nat → List (String × Json) → List Char → Option (Json × List Char)
  | 0, _, _ => none
  | fuel + 1, found, input => do
    let (name, rest) ← takeQuoted? scrutiny size (trimFront input)
    match trimFront rest with
    | ':' :: rest =>
      let (value, rest) ← take? rest
      let found := insertMember name value found
      match trimFront rest with
      | ',' :: rest => takeMembers? scrutiny take? size fuel found rest
      | '\x7d' :: rest => some (.object found, rest)
      | _ => none
    | _ => none

/-- Takes a number. -/
def takeNumberValue? (scrutiny : Scrutiny) (input : List Char) : Option (Json × List Char) := do
  let (parts, rest) ← takeNumber? input
  if scrutiny = .skipped then some (.null, rest)
  else do
    let value ← parts.value?
    some (.number value, rest)

/-- Takes a value that is no array and no object. -/
def takeScalar? (scrutiny : Scrutiny) (fuel : Nat) : List Char → Option (Json × List Char)
  | 'n' :: 'u' :: 'l' :: 'l' :: rest => some (.null, rest)
  | 't' :: 'r' :: 'u' :: 'e' :: rest => some (.bool true, rest)
  | 'f' :: 'a' :: 'l' :: 's' :: 'e' :: rest => some (.bool false, rest)
  | '"' :: rest => do
    let (text, rest) ← takeQuoted? scrutiny fuel ('"' :: rest)
    some (.string text, rest)
  | input => takeNumberValue? scrutiny input

/-- Takes a value in which at most `depth` arrays and objects are nested. -/
def take? (scrutiny : Scrutiny) (fuel : Nat) : Nat → List Char → Option (Json × List Char)
  | 0, input =>
    match trimFront input with
    | '[' :: _ => none
    | '\x7b' :: _ => none
    | rest => takeScalar? scrutiny fuel rest
  | depth + 1, input =>
    match trimFront input with
    | '[' :: rest =>
      match trimFront rest with
      | ']' :: rest => some (.array [], rest)
      | rest => takeItems? (take? scrutiny fuel depth) fuel [] rest
    | '\x7b' :: rest =>
      match trimFront rest with
      | '\x7d' :: rest => some (.object [], rest)
      | rest => takeMembers? scrutiny (take? scrutiny fuel depth) fuel fuel [] rest
    | rest => takeScalar? scrutiny fuel rest

/-- Takes a value that is used, in which at most `depth` arrays and objects are nested. -/
def takeValue? (depth : Nat) (input : List Char) : Option (Json × List Char) :=
  take? .full (input.length + 1) depth input

/-- Takes a value that is skipped. -/
def skip? (input : List Char) : Option (List Char) :=
  (take? .skipped (input.length + 1) input.length input).map Prod.snd

/-- The number of arrays and objects that may be nested. -/
def maxDepth : Nat := 127

end RelaxSchema.Json
