import RelaxSchema.Xml.Scanner

/-!
# Markup tokens

The content of an element as a sequence of tags and runs of character data. Comments, processing
instructions and CDATA sections hold no elements and are only checked. A text that is not
well-formed ends in a piece that says so: whoever stops reading before it may accept the text.
-/

namespace RelaxSchema.Xml

/-- What ends a start tag. -/
inductive TagEnd where
  /-- The mark of an element with content. -/
  | filled
  /-- The mark of an empty element. -/
  | empty
  /-- The end of the text, right behind the name or an attribute. -/
  | missing
  deriving DecidableEq, Repr

/-- A piece of content. -/
inductive Token where
  /-- A start tag with its attributes as they are written. -/
  | opening (name : QName) (attributes : List (QName × List Char)) (ending : TagEnd)
  /-- An end tag. -/
  | closing (name : QName)
  /-- Character data as it is written. -/
  | text (written : List Char)
  /-- A CDATA section. -/
  | cdata
  /-- A comment or a processing instruction. -/
  | remark
  /-- Something that is no piece of content; nothing follows it. -/
  | malformed
  deriving Repr

namespace Scanner

/-- Whether two hyphens stand side by side, or one at the end. -/
def hasDoubleHyphen : List Char → Bool
  | [] => false
  | ['-'] => true
  | '-' :: '-' :: _ => true
  | _ :: rest => hasDoubleHyphen rest

/-- Takes a comment. Two hyphens stand only at its end. -/
def comment : Scanner Unit := do
  literal "<!--"
  if hasDoubleHyphen (← upTo "-->") then failure

/-- Takes a processing instruction. An XML declaration is none. -/
def instruction : Scanner Unit := do
  if ← startsWith "<?xml " then failure
  literal "<?"
  discard name
  spaces
  discard (upTo "?>")

/-- Takes the rest of a start tag behind the name: the attributes, each after white space, and the
mark that ends the tag. The text may end instead, but not behind white space. -/
def tagRest : Nat → List (QName × List Char) → Scanner (List (QName × List Char) × TagEnd)
  | 0, _ => failure
  | fuel + 1, found => do
    if (← get).isEmpty then return (found.reverse, .missing)
    else
      let space := !(← takeWhile isSpace).isEmpty
      if ← optionalLiteral "/>" then return (found.reverse, .empty)
      else if ← optionalLiteral ">" then return (found.reverse, .filled)
      else if space then tagRest fuel ((← writtenAttribute) :: found)
      else failure

/-- Takes a start tag. -/
def startTag : Scanner Token := do
  literal "<"
  let name ← qualifiedName
  let (attributes, ending) ← tagRest ((← get).length + 1) []
  return .opening name attributes ending

/-- Takes an end tag. -/
def endTag : Scanner Token := do
  literal "</"
  let name ← qualifiedName
  spaces
  literal ">"
  return .closing name

/-- Whether the end mark of a CDATA section stands in the text. -/
def hasSectionEnd : List Char → Bool
  | [] => false
  | ']' :: ']' :: '>' :: _ => true
  | _ :: rest => hasSectionEnd rest

/-- Takes character data up to the next markup. -/
def characterData : Scanner Token := do
  let written ← takeWhile (· ≠ '<')
  if !written.all isChar || hasSectionEnd written then failure
  return .text written

/-- Takes a piece of content. -/
def token : Scanner Token := do
  if ← startsWith "<!--" then
    comment
    return .remark
  else if ← optionalLiteral "<![CDATA[" then
    discard (upTo "]]>")
    return .cdata
  else if ← startsWith "<?" then
    instruction
    return .remark
  else if ← startsWith "</" then endTag
  else if ← startsWith "<" then startTag
  else characterData

end Scanner

/-- The pieces of a text that has at most `fuel` of them, behind those found before, which are in
reverse. -/
def tokensWithin : Nat → List Token → List Char → List Token
  | _, found, [] => found.reverse
  | 0, found, _ :: _ => (.malformed :: found).reverse
  | fuel + 1, found, written =>
    match Scanner.token.run written with
    | some (token, rest) => tokensWithin fuel (token :: found) rest
    | none => (.malformed :: found).reverse

/-- The pieces of a text. Each takes a character at least, so there are no more than characters. -/
def tokens (written : List Char) : List Token := tokensWithin written.length [] written

end RelaxSchema.Xml
