/-!
# JSON values

Values, and their text: compact, or indented by two spaces. Numbers are natural numbers and
negative integers of 64 bits, and doubles for all else.
-/

namespace RelaxSchema

/-- The first number that has more than 64 bits. -/
def wordEnd : Nat := 0x10000000000000000

/-- The first number that has more than 63 bits. -/
def signedWordEnd : Nat := 0x8000000000000000

/-- A number of JSON. -/
inductive JsonNumber where
  /-- A natural number. -/
  | natural (value : Nat)
  /-- The negative of a positive number. -/
  | negative (absolute : Nat)
  /-- A finite double, by its bits. -/
  | double (bits : UInt64)
  deriving Repr, DecidableEq

/-- A value of JSON. -/
inductive Json where
  /-- The empty value. -/
  | null
  /-- A truth value. -/
  | bool (value : Bool)
  /-- A number. -/
  | number (value : JsonNumber)
  /-- A string. -/
  | string (value : String)
  /-- A list of values. -/
  | array (items : List Json)
  /-- Named values, in ascending order of the names, each name once. -/
  | object (members : List (String × Json))
  deriving Repr

namespace Json

instance : Inhabited Json := ⟨.null⟩

/-- A natural number as a value. -/
abbrev nat (value : Nat) : Json := number (.natural value)

/-- The natural number that a value is. -/
def natural? : Json → Option Nat
  | number (.natural value) => some value
  | _ => none

/-- The string that a value is. -/
def string? : Json → Option String
  | string value => some value
  | _ => none

/-- The values of a list. -/
def items? : Json → Option (List Json)
  | array items => some items
  | _ => none

end Json

end RelaxSchema
