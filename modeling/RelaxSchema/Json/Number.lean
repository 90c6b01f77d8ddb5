import RelaxSchema.Json.Value

/-!
# Reading numbers of JSON

A number is scanned into its digits and then evaluated. An integer of 64 bits is kept exactly. For
any other number the leading digits that fit into 64 bits are a significand; it is made a double and
scaled by a power of ten in double arithmetic, which may miss the nearest double in the last place.
A number beyond the largest double is refused.
-/

namespace RelaxSchema

namespace Json

/-- The parts of a number as it is written. -/
structure NumberParts where
  /-- Whether a minus sign stands in front. -/
  minus : Bool
  /-- The digits before the point. -/
  whole : List Char
  /-- The digits behind the point, if there is a point. -/
  fraction : Option (List Char)
  /-- Whether the exponent is negative, and its digits, if there is an exponent. -/
  exponent : Option (Bool × List Char)

/-! ### Scanning -/

/-- Takes digits, at least one. -/
def takeDigits? (input : List Char) : Option (List Char × List Char) :=
  let (digits, rest) := input.span Char.isDigit
  if digits.isEmpty then none else some (digits, rest)

/-- Takes the digits before the point, which have no leading zero. -/
def takeWhole? (input : List Char) : Option (List Char × List Char) := do
  let (digits, rest) ← takeDigits? input
  match digits with
  | '0' :: _ :: _ => none
  | _ => some (digits, rest)

/-- Takes a point and the digits behind it, if there is a point. -/
def takeFraction? : List Char → Option (Option (List Char) × List Char)
  | '.' :: rest => do
    let (digits, rest) ← takeDigits? rest
    some (some digits, rest)
  | rest => some (none, rest)

/-- Takes an exponent, if there is one. -/
def takeExponent? : List Char → Option (Option (Bool × List Char) × List Char)
  | c :: rest =>
    if c = 'e' || c = 'E' then do
      let (negative, rest) :=
        match rest with
        | '+' :: rest => (false, rest)
        | '-' :: rest => (true, rest)
        | rest => (false, rest)
      let (digits, rest) ← takeDigits? rest
      some (some (negative, digits), rest)
    else some (none, c :: rest)
  | [] => some (none, [])

/-- Takes a number. -/
def takeNumber? (input : List Char) : Option (NumberParts × List Char) := do
  let (minus, rest) :=
    match input with
    | '-' :: rest => (true, rest)
    | rest => (false, rest)
  let (whole, rest) ← takeWhole? rest
  let (fraction, rest) ← takeFraction? rest
  let (exponent, rest) ← takeExponent? rest
  some (⟨minus, whole, fraction, exponent⟩, rest)

/-! ### Evaluation -/

/-- The significand that a digit behind another one gives, if it has no more than 64 bits. -/
def pushDigit? (significand : Nat) (digit : Char) : Option Nat :=
  let next := significand * 10 + (digit.toNat - '0'.toNat)
  if next < wordEnd then some next else none

/-- Takes digits into a significand while they fit, and returns those that are left. -/
def pushDigits (significand : Nat) : List Char → Nat × List Char
  | [] => (significand, [])
  | digit :: rest =>
    match pushDigit? significand digit with
    | some next => pushDigits next rest
    | none => (significand, digit :: rest)

/-- A power of ten as a double. -/
def powerOfTen (exponent : Nat) : Float := Float.ofScientific 1 false exponent

/-- A double divided by a power of ten. The largest power there is has the exponent 308, so larger
ones are divided by in several steps. -/
def scaleDown (value : Float) (exponent : Nat) : Float :=
  if 308 < exponent then
    -- Zero stays zero, however large the rest of the exponent is.
    if value == 0 then value else scaleDown (value / powerOfTen 308) (exponent - 308)
  else value / powerOfTen exponent
termination_by exponent
decreasing_by omega

/-- A significand times a power of ten, unless it is beyond the largest double. -/
def scale? (significand : Nat) (exponent : Int) : Option Float :=
  let value := (UInt64.ofNat significand).toFloat
  if exponent < 0 then some (scaleDown value exponent.natAbs)
  else if 308 < exponent then if significand = 0 then some value else none
  else
    let scaled := value * powerOfTen exponent.natAbs
    if scaled.isInf then none else some scaled

/-- A double with a sign. -/
def signed (minus : Bool) (value : Float) : JsonNumber :=
  .double (if minus then -value else value).toBits

/-- The value of a whole number of 64 bits. Zero with a minus sign is a double, and so is a negative
number of more than 63 bits. -/
def integerValue (minus : Bool) (significand : Nat) : JsonNumber :=
  if !minus then .natural significand
  else if significand = 0 || signedWordEnd < significand then
    signed true (UInt64.ofNat significand).toFloat
  else .negative significand

/-- The value of an exponent as it is written. -/
def exponentValue : Option (Bool × List Char) → Int
  | none => 0
  | some (negative, digits) =>
    let value : Nat := digits.foldl (fun sum c => sum * 10 + (c.toNat - '0'.toNat)) 0
    if negative then -value else value

/-- The value of a number. -/
def NumberParts.value? (parts : NumberParts) : Option JsonNumber :=
  let (significand, unread) := pushDigits 0 parts.whole
  if unread.isEmpty && parts.fraction.isNone && parts.exponent.isNone then
    some (integerValue parts.minus significand)
  else
    let fraction := parts.fraction.getD []
    -- Digits that no longer fit only move the point, unless they stand behind it.
    let (significand, unreadFraction) := pushDigits significand fraction
    let places := fraction.length - unreadFraction.length
    let exponent := (unread.length : Int) - places + exponentValue parts.exponent
    (scale? significand exponent).map (signed parts.minus)

end Json

end RelaxSchema
