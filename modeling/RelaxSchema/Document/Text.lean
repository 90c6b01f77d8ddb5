/-!
# Text of a document

Bytes become text by UTF-8, and references in it become the characters that they stand for. An
ampersand always begins a reference: one of five names, or a code point in decimal or hexadecimal
digits.
-/

namespace RelaxSchema.Document

/-- The text that bytes encode. -/
def decodeBytes? (bytes : List UInt8) : Option String := String.fromUTF8? ⟨bytes.toArray⟩

/-- The character that a reference name stands for. -/
def namedCharacter? : List Char → Option Char
  | ['l', 't'] => some '<'
  | ['g', 't'] => some '>'
  | ['a', 'm', 'p'] => some '&'
  | ['a', 'p', 'o', 's'] => some '\''
  | ['q', 'u', 'o', 't'] => some '"'
  | _ => none

/-- The value of a hexadecimal digit. -/
def hexDigit? (c : Char) : Option Nat :=
  if c.isDigit then some (c.toNat - '0'.toNat)
  else if 'a' ≤ c && c ≤ 'f' then some (c.toNat - 'a'.toNat + 10)
  else if 'A' ≤ c && c ≤ 'F' then some (c.toNat - 'A'.toNat + 10)
  else none

/-- The value of a decimal digit. -/
def decimalDigit? (c : Char) : Option Nat :=
  if c.isDigit then some (c.toNat - '0'.toNat) else none

/-- The number that digits stand for, of which there are at most `most`. -/
def codePoint? (base most : Nat) (digit? : Char → Option Nat) (digits : List Char) : Option Nat :=
  if digits.length ≤ most then
    (digits.mapM digit?).map fun values => values.foldl (fun sum value => sum * base + value) 0
  else none

/-- The character with a code point, which must not be zero. -/
def codedCharacter? (code : Nat) : Option Char :=
  if code ≠ 0 ∧ code.isValidChar then some (Char.ofNat code) else none

/-- The character that a reference stands for, given what is between ampersand and semicolon. -/
def referencedCharacter? : List Char → Option Char
  | '#' :: 'x' :: digits => (codePoint? 16 6 hexDigit? digits).bind codedCharacter?
  | '#' :: digits => (codePoint? 10 7 decimalDigit? digits).bind codedCharacter?
  | name => namedCharacter? name

/-- Replaces the references in a text with fewer than `fuel` ampersands, behind the characters found
before, which are in reverse. -/
def unescapeWithin : Nat → List Char → List Char → Option (List Char)
  | 0, _, _ => none
  | fuel + 1, found, written =>
    match written.span (· ≠ '&') with
    | (plain, []) => some (plain.reverse ++ found).reverse
    | (plain, _ :: behind) =>
      match behind.span fun c => c ≠ ';' && c ≠ '&' with
      | (reference, ';' :: rest) => do
        let c ← referencedCharacter? reference
        unescapeWithin fuel (c :: (plain.reverse ++ found)) rest
      | _ => none

/-- Replaces the references in a text. -/
def unescape? (written : List Char) : Option (List Char) :=
  unescapeWithin (written.length + 1) [] written

/-- The text that bytes with references stand for. -/
def readText? (bytes : List UInt8) : Option String := do
  let written ← decodeBytes? bytes
  let plain ← unescape? written.toList
  some (String.ofList plain)

end RelaxSchema.Document
