import RelaxSchema.Decimal.Shortest
import RelaxSchema.Json.Value

/-!
# JSON text

Two printers of values: one without any space, one indented by two spaces. Strings escape the
quotation mark, the backslash and control characters, and nothing else.
-/

namespace RelaxSchema

/-! ### Numbers -/

namespace JsonNumber

/-- The digits of a decimal with a point before the last `places` of them. -/
def withPoint (digits : List Char) (places : Nat) : List Char :=
  digits.take (digits.length - places) ++ '.' :: digits.drop (digits.length - places)

/-- The text of a positive decimal. The point stands within 16 digits or behind up to five zeros;
beyond that the text has an exponent, which always has a sign. -/
def decimalText (decimal : Decimal) : List Char :=
  let digits := (toString decimal.digits).toList
  let point : Int := digits.length + decimal.exponent
  if 0 ≤ decimal.exponent ∧ point ≤ 16 then
    digits ++ List.replicate decimal.exponent.toNat '0' ++ ['.', '0']
  else if 0 < point ∧ point ≤ 16 then withPoint digits (-decimal.exponent).toNat
  else if -5 < point ∧ point ≤ 0 then '0' :: '.' :: List.replicate (-point).toNat '0' ++ digits
  else
    let mantissa := if digits.length = 1 then digits else withPoint digits (digits.length - 1)
    let sign := if point ≤ 0 then '-' else '+'
    mantissa ++ 'e' :: sign :: (toString (point - 1).natAbs).toList

/-- The text of a finite double. -/
def doubleText (bits : UInt64) : List Char :=
  let sign := if bits.toNat < signedWordEnd then [] else ['-']
  let absolute := bits.toNat % signedWordEnd
  if absolute = 0 then sign ++ ['0', '.', '0']
  else sign ++ decimalText (BinaryNumber.ofBits absolute).shortest

/-- The text of a number. -/
def text : JsonNumber → String
  | natural value => toString value
  | negative absolute => "-" ++ toString absolute
  | double bits => String.ofList (doubleText bits)

end JsonNumber

/-! ### Strings -/

namespace Json

/-- A digit of base sixteen. -/
def hexDigit (value : Nat) : Char :=
  if value < 10 then Char.ofNat ('0'.toNat + value) else Char.ofNat ('a'.toNat + value - 10)

/-- A character within a string. -/
def escape (c : Char) : List Char :=
  if c = '"' then ['\\', '"']
  else if c = '\\' then ['\\', '\\']
  else if c = '\x08' then ['\\', 'b']
  else if c = '\x0c' then ['\\', 'f']
  else if c = '\n' then ['\\', 'n']
  else if c = '\r' then ['\\', 'r']
  else if c = '\t' then ['\\', 't']
  else if c.toNat < 0x20 then
    ['\\', 'u', '0', '0', hexDigit (c.toNat / 16), hexDigit (c.toNat % 16)]
  else [c]

/-- A string in quotation marks. -/
def quote (text : String) : String := String.ofList ('"' :: text.toList.flatMap escape ++ ['"'])

/-! ### Compact text -/

mutual

/-- The text of a value without any space. -/
def render : Json → String
  | null => "null"
  | bool value => if value then "true" else "false"
  | number value => value.text
  | string value => quote value
  | array items => "[" ++ renderItems items ++ "]"
  | object members => "\x7b" ++ renderMembers members ++ "\x7d"

/-- The texts of several values with commas between them. -/
def renderItems : List Json → String
  | [] => ""
  | [item] => render item
  | item :: rest => render item ++ "," ++ renderItems rest

/-- The text of a named value. -/
def renderMember : String × Json → String
  | (name, value) => quote name ++ ":" ++ render value

/-- The texts of several named values with commas between them. -/
def renderMembers : List (String × Json) → String
  | [] => ""
  | [member] => renderMember member
  | member :: rest => renderMember member ++ "," ++ renderMembers rest

end

/-! ### Indented text -/

/-- A line break and the indentation of a level. -/
def lineBreak (level : Nat) : String := "\n" ++ String.ofList (List.replicate (2 * level) ' ')

mutual

/-- The text of a value that stands at a level of indentation. -/
def renderIndented (level : Nat) : Json → String
  | null => "null"
  | bool value => if value then "true" else "false"
  | number value => value.text
  | string value => quote value
  | array [] => "[]"
  | array items => "[" ++ renderLines (level + 1) items ++ lineBreak level ++ "]"
  | object [] => "\x7b\x7d"
  | object members => "\x7b" ++ renderMemberLines (level + 1) members ++ lineBreak level ++ "\x7d"

/-- The texts of several values, each on lines of its own. -/
def renderLines (level : Nat) : List Json → String
  | [] => ""
  | [item] => lineBreak level ++ renderIndented level item
  | item :: rest => lineBreak level ++ renderIndented level item ++ "," ++ renderLines level rest

/-- The text of a named value that stands at a level of indentation. -/
def renderIndentedMember (level : Nat) : String × Json → String
  | (name, value) => quote name ++ ": " ++ renderIndented level value

/-- The texts of several named values, each on lines of its own. -/
def renderMemberLines (level : Nat) : List (String × Json) → String
  | [] => ""
  | [member] => lineBreak level ++ renderIndentedMember level member
  | member :: rest =>
    lineBreak level ++ renderIndentedMember level member ++ "," ++ renderMemberLines level rest

end

end Json

end RelaxSchema
