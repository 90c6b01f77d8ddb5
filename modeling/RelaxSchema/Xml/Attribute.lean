import RelaxSchema.Xml.Prolog
import RelaxSchema.Catalogue

/-!
# Attributes and namespaces

Attribute values have their references expanded and their white space normalised. Namespace
declarations bind prefixes for the element and what is in it; the names of the other attributes are
expanded by them, and no two of one element may have the same expanded name.
-/

namespace RelaxSchema.Xml

/-! ### Entity expansion -/

/-- How deep entities may be nested in each other. -/
def maxEntityDepth : Nat := 10

/-- How many entities may be expanded within one. -/
def maxNestedEntities : Nat := 255

/-- The number of entities expanded so far within the outermost one, counting one more that is met
with `budget` levels of nesting left. Entities outside of any other are not counted. -/
def countEntity (budget used : Nat) : Option Nat :=
  if budget = maxEntityDepth then some used
  else if used < maxNestedEntities then some (used + 1)
  else none

/-- The count after an entity met with `budget` levels left is expanded. -/
def settleCount (budget used : Nat) : Nat := if budget = maxEntityDepth then 0 else used

/-- A value under normalisation: the characters so far in reverse, and the entities counted. -/
structure Normalised where
  /-- The characters in reverse. -/
  reversed : List Char
  /-- The entities expanded within the outermost one. -/
  used : Nat

/-- Normalises the characters of an attribute value behind those found; `expand` does the same with
the value of an entity. A literal line end or tab becomes a space, a carriage return before a line
feed vanishes. Characters that are referred to stay, unless the reference stands in an entity:
there they are treated as literal ones, and a less-than sign is refused. -/
def normaliseWith (nested : Bool) (expand : String → Normalised → Option Normalised) :
    Nat → List Char → Normalised → Option Normalised
  | _, [], found => some found
  | 0, _ :: _, _ => none
  | fuel + 1, '&' :: rest, found => do
    let (reference, rest) ← Scanner.reference.run rest
    match reference with
    | .character c =>
      if nested && c = '<' then none
      else
        -- Only a reference that stands in the document itself keeps white space as it is.
        let c := if nested && isSpace c then ' ' else c
        normaliseWith nested expand fuel rest { found with reversed := c :: found.reversed }
    | .entity name => normaliseWith nested expand fuel rest (← expand name found)
  | fuel + 1, c :: rest, found =>
    if c = '\r' && rest.head? = some '\n' then normaliseWith nested expand fuel rest found
    else
      let c := if isSpace c then ' ' else c
      normaliseWith nested expand fuel rest { found with reversed := c :: found.reversed }

/-- Normalises an attribute value that is met with `budget` levels of entity nesting left. -/
def normalise (entities : Entities) (nested : Bool) :
    Nat → List Char → Normalised → Option Normalised
  | 0, value, found => normaliseWith nested (fun _ _ => none) value.length value found
  | budget + 1, value, found =>
    let expand (name : String) (found : Normalised) : Option Normalised := do
      let value ← entities.lookup name
      let used ← countEntity (budget + 1) found.used
      let result ← normalise entities true budget value { found with used := used }
      some { result with used := settleCount (budget + 1) result.used }
    normaliseWith nested expand value.length value found

/-! ### Namespaces -/

/-- The name of a reserved namespace, given the parts of its path. -/
def reservedNamespace (path : List String) : String :=
  "/".intercalate (["http:", "", "www.w3.org"] ++ path)

/-- The namespace that the prefix `xml` is bound to. -/
def xmlNamespace : String := reservedNamespace ["XML", "1998", "namespace"]

/-- The namespace of namespace declarations. -/
def xmlnsNamespace : String := reservedNamespace ["2000", "xmlns", ""]

/-- The prefixes in scope and their namespaces, innermost first. The default has the empty
prefix. -/
abbrev Bindings := List (String × String)

/-- What attributes amount to that are read, but not yet given to an element. -/
structure AttributeList where
  /-- The namespace declarations. -/
  declared : Bindings := []
  /-- The other attributes with their values. -/
  plain : List (QName × String) := []
  /-- The entities expanded within the outermost one. -/
  used : Nat := 0

/-- Adds the declaration of a prefix. The prefix `xml` belongs to its namespace and to no other,
and no prefix is declared twice. -/
def AttributeList.declare (found : AttributeList) (qualifier value : String) :
    Option AttributeList :=
  if value = xmlnsNamespace || (qualifier = "xml") != (value = xmlNamespace) ||
      (found.declared.lookup qualifier).isSome then none
  else if value = xmlNamespace then some found
  else some { found with declared := found.declared ++ [(qualifier, value)] }

/-- Adds the declaration of the default namespace. -/
def AttributeList.declareDefault (found : AttributeList) (value : String) : Option AttributeList :=
  if value = xmlNamespace || value = xmlnsNamespace then none
  else some { found with declared := found.declared ++ [("", value)] }

/-- Reads one attribute. -/
def AttributeList.add (entities : Entities) (budget : Nat) (found : AttributeList)
    (pair : QName × List Char) : Option AttributeList := do
  let (name, written) := pair
  let result ← normalise entities (budget != maxEntityDepth) budget written ⟨[], found.used⟩
  let found := { found with used := result.used }
  let value := String.ofList result.reversed.reverse
  if name.qualifier = "xmlns" then found.declare name.localName value
  else if name.localName = "xmlns" then found.declareDefault value
  else some { found with plain := found.plain ++ [(name, value)] }

/-- The name of an attribute with the namespace in place of the prefix. -/
def expandedName (bindings : Bindings) (name : QName) : Option (Option String × String) :=
  if name.qualifier = "xml" then some (some xmlNamespace, name.localName)
  else if name.qualifier.isEmpty then some (none, name.localName)
  else (bindings.lookup name.qualifier).map fun value => (some value, name.localName)

/-- The attributes of an element by their local names, if every prefix is bound and no attribute is
repeated. -/
def attributesOf (bindings : Bindings) (plain : List (QName × String)) :
    Option (Catalogue String) := do
  let expanded ← plain.mapM fun (name, _) => expandedName bindings name
  if expanded.Nodup then
    some (.ofList (plain.map fun (name, value) => (name.localName, value)))
  else none

/-- Whether a name has the prefix of namespace declarations, which no element has. -/
def QName.isReserved (name : QName) : Bool := name.qualifier == "xmlns"

/-- Whether an element may have the name. -/
def elementNameAllowed (bindings : Bindings) (name : QName) : Bool :=
  name.qualifier.isEmpty ||
    (!name.isReserved && (bindings.lookup name.qualifier).isSome)

end RelaxSchema.Xml
