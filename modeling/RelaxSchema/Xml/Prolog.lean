import RelaxSchema.Xml.Token

/-!
# Prologs

What stands before the root element: the XML declaration, the document type with its internal
entities, comments and processing instructions. Only the entities have an effect. External
entities are never fetched and have no value.
-/

namespace RelaxSchema.Xml

/-- The internal entities in the order of their declarations. -/
abbrev Entities := List (String × List Char)

namespace Scanner

/-- Takes white space where the XML declaration needs it: unless it ends here. -/
def declarationSpace : Scanner Unit := do
  let space ← takeWhile isSpace
  let atEnd ← startsWith "?>"
  if space.isEmpty && !atEnd && !(← get).isEmpty then failure

/-- Takes an XML declaration; the version is required. -/
def declaration : Scanner Unit := do
  literal "<?xml"
  declarationSpace
  if !(← startsWith "version") then failure
  discard writtenAttribute
  declarationSpace
  if ← startsWith "encoding" then
    discard writtenAttribute
    declarationSpace
  if ← startsWith "standalone" then discard writtenAttribute
  spaces
  literal "?>"

/-- Takes white space, comments and processing instructions. -/
def remarks : Nat → Scanner Unit
  | 0 => failure
  | fuel + 1 => do
    spaces
    if ← startsWith "<!--" then
      comment
      remarks fuel
    else if ← startsWith "<?" then
      instruction
      remarks fuel

/-- Takes the address of an external entity, and tells whether there is one. -/
def externalId : Scanner Bool := do
  if ← optionalLiteral "SYSTEM" then
    someSpaces
    discard quoted
    return true
  else if ← optionalLiteral "PUBLIC" then
    someSpaces
    discard quoted
    someSpaces
    discard quoted
    return true
  else return false

/-- Takes the value of an entity declaration; `none` for an external entity. A general entity may
name a notation behind the address. -/
def entityValue (general : Bool) : Scanner (Option (List Char)) := do
  if (← startsWith "\"") || (← startsWith "'") then return some (← quoted)
  else if ← externalId then
    if general then
      spaces
      if ← optionalLiteral "NDATA" then
        someSpaces
        discard name
    return none
  else failure

/-- Takes an entity declaration. -/
def entityDeclaration : Scanner Entities := do
  literal "<!ENTITY"
  someSpaces
  let parameter ← optionalLiteral "%"
  if parameter then someSpaces
  let name ← name
  someSpaces
  let value ← entityValue !parameter
  spaces
  literal ">"
  return (value.map fun value => (name, value)).toList

/-- Takes the declarations of the internal subset up to its end, behind the entities found. -/
def subset : Nat → Entities → Scanner Entities
  | 0, _ => failure
  | fuel + 1, found => do
    spaces
    if ← startsWith "<!ENTITY" then subset fuel (found ++ (← entityDeclaration))
    else if ← startsWith "<!--" then
      comment
      subset fuel found
    else if ← startsWith "<?" then
      instruction
      subset fuel found
    else if ← optionalLiteral "]" then
      spaces
      literal ">"
      return found
    else if (← startsWith "<!ELEMENT") || (← startsWith "<!ATTLIST") ||
        (← startsWith "<!NOTATION") then
      discard (takeWhile (· ≠ '>'))
      literal ">"
      subset fuel found
    else failure

/-- Takes the document type. -/
def documentType : Scanner Entities := do
  literal "<!DOCTYPE"
  someSpaces
  discard name
  spaces
  discard externalId
  spaces
  if ← optionalLiteral ">" then return []
  else
    literal "["
    subset ((← get).length + 1) []

/-- Takes all that stands before the root element, and returns the entities. -/
def prolog : Scanner Entities := do
  discard (optionalLiteral "\uFEFF")
  if ← startsWith "<?xml " then declaration
  let fuel := (← get).length + 1
  remarks fuel
  if ← startsWith "<!DOCTYPE" then
    let entities ← documentType
    remarks fuel
    return entities
  else return []

end Scanner

end RelaxSchema.Xml
