/-!
# Failures

Why a grammar, a compact schema or a document is refused. Every failure is a cause with the names
it is about; `Error.message` is the one place that holds the wording. Violations of a schema by a
document are no failures: they are collected, see `RelaxSchema.Violation`.
-/

namespace RelaxSchema

/-! ### Limited resources -/

/-- An amount that a set of limits bounds. -/
inductive Resource where
  /-- The bytes of one grammar file. -/
  | grammarSize
  /-- The number of include links between the entry grammar and a file. -/
  | includeDepth
  /-- The states of one deterministic automaton. -/
  | dfaStates
  /-- The number of open elements at one place of a document. -/
  | xmlDepth
  /-- The bytes of one document. -/
  | xmlSize
  deriving DecidableEq, Repr

/-- The sentence that reports `amount` of a resource where only `bound` is allowed. -/
def Resource.excess (resource : Resource) (amount bound : Nat) : String :=
  match resource with
  | .grammarSize => s!"grammar size {amount} bytes exceeds maximum {bound} bytes"
  | .includeDepth => s!"include depth {amount} exceeds maximum {bound}"
  | .dfaStates => s!"automaton state count {amount} exceeds maximum {bound}"
  | .xmlDepth => s!"XML depth {amount} exceeds maximum {bound}"
  | .xmlSize => s!"XML size {amount} bytes exceeds maximum {bound} bytes"

/-! ### Causes -/

/-- Why a grammar file is not found, or holds no grammar. -/
inductive ResolutionFault where
  /-- No candidate for the entry path is a file. -/
  | entryNotFound (href : String)
  /-- No candidate for an include's address is a file. -/
  | includeNotFound (href location : String)
  /-- An include names no address. -/
  | includeWithoutHref (location : String)
  /-- A file has no grammar element. -/
  | noGrammarElement (location : String)
  /-- A tree given for compilation has no grammar element. -/
  | grammarNotFound
  /-- A store has no file under the path. -/
  | noSuchFile (path : String)
  deriving DecidableEq, Repr

/-- The wording of a resolution failure. -/
def ResolutionFault.message : ResolutionFault → String
  | .entryNotFound href => s!"could not find grammar '{href}'"
  | .includeNotFound href location => s!"could not find '{href}' included from {location}"
  | .includeWithoutHref location => s!"<include> without href in {location}"
  | .noGrammarElement location => s!"no <grammar> element found in {location}"
  | .grammarNotFound => "<grammar> not found"
  | .noSuchFile path => s!"file does not exist: {path}"

/-- Why a grammar element lacks what its construct needs. -/
inductive GrammarFault where
  /-- An element pattern has no name. -/
  | elementWithoutName
  /-- A definition has no name. -/
  | defineWithoutName
  /-- A reference has no name. -/
  | refWithoutName
  /-- A type declaration lacks its name or its type. -/
  | elementTypeIncomplete
  /-- There is no start. -/
  | noStart
  /-- The start holds no reference. -/
  | startWithoutRef
  /-- The reference in the start has no name. -/
  | startRefWithoutName
  /-- The declared type is none of the known ones. -/
  | unknownType (type element : String)
  deriving DecidableEq, Repr

/-- The wording of a grammar failure. -/
def GrammarFault.message : GrammarFault → String
  | .elementWithoutName => "'name' is mandatory on <element>"
  | .defineWithoutName => "<define> without name"
  | .refWithoutName => "<ref> without name"
  | .elementTypeIncomplete => "attributes 'name' and 'type' are mandatory on <elementType>"
  | .noStart => "<grammar> must have a <start> element"
  | .startWithoutRef => "expecting one <ref> inside of <start>"
  | .startRefWithoutName => "<ref> inside of <start> must have a name"
  | .unknownType type element => s!"unknown type '{type}' for element <{element}>"

/-- Why compiled parts do not make a schema. -/
inductive SchemaFault where
  /-- An element has the empty name. -/
  | nameMissing
  /-- An element is given the expression of another one. -/
  | foreignExpression (element owner : String)
  /-- The start element is not among the elements. -/
  | startUndeclared (start : String)
  deriving DecidableEq, Repr

/-- The wording of a schema failure. -/
def SchemaFault.message : SchemaFault → String
  | .nameMissing => "'name' is mandatory"
  | .foreignExpression element owner => s!"expression of <{element}> belongs to <{owner}>"
  | .startUndeclared start => s!"start element <{start}> must be a valid element"

/-- Why JSON of the right outer shape is no compact schema. Refused values are kept as text. -/
inductive CompactFault where
  /-- A rank points past the literal table. -/
  | rankOutOfRange (rank : Nat)
  /-- A number that is no rank stands for a content. -/
  | invalidRank (number : String)
  /-- A value is neither a rank nor a pair of operator and payload. -/
  | invalidContent (value : String)
  /-- A list operator has a payload that is no list. -/
  | listExpected (value : String)
  /-- The operator is none of the known ones. -/
  | unknownOperator (operator : String)
  /-- The type code is none of the known ones. -/
  | unknownTypeCode (code : String)
  /-- A literal is missing from the table it is looked up in. -/
  | unregisteredLiteral (literal : String)
  deriving DecidableEq, Repr

/-- The wording of a failure of the compact format. -/
def CompactFault.message : CompactFault → String
  | .rankOutOfRange rank => s!"literal rank {rank} out of range"
  | .invalidRank number => s!"invalid literal rank {number}"
  | .invalidContent value => s!"invalid content {value}"
  | .listExpected value => s!"expected a list, found {value}"
  | .unknownOperator operator => s!"unknown operator '{operator}'"
  | .unknownTypeCode code => s!"unknown element type '{code}'"
  | .unregisteredLiteral literal => s!"unregistered literal '{literal}'"

/-- Why the text of a grammar file is no well-formed XML, and in which file. -/
structure SyntaxFault where
  /-- What is wrong. -/
  message : String
  /-- The file as it was looked up, if it is known. -/
  location : Option String
  deriving DecidableEq, Repr

/-- The wording of a syntax failure, followed by the location in parentheses. -/
def SyntaxFault.text (fault : SyntaxFault) : String :=
  match fault.location with
  | none => fault.message
  | some location =>
    let message := fault.message
    s!"{message} ({location})"

/-- Why a document is refused. -/
inductive MarkupFault where
  /-- The markup itself is malformed. -/
  | malformed
  /-- Character data holds an unknown reference or invalid bytes. -/
  | text
  /-- A CDATA section holds invalid bytes. -/
  | cdata
  /-- An element name holds invalid bytes. -/
  | elementName
  /-- An attribute is malformed or repeated. -/
  | attribute
  /-- An attribute name holds invalid bytes. -/
  | attributeName
  /-- An attribute value holds an unknown reference or invalid bytes. -/
  | attributeValue
  /-- The input ends within an element. -/
  | unfinished
  /-- There is no root element to validate. -/
  | noRoot
  deriving DecidableEq, Repr

/-- The wording of a document failure. -/
def MarkupFault.message : MarkupFault → String
  | .malformed => "Error parsing XML"
  | .text => "Failed to unescape text"
  | .cdata => "Invalid CDATA section"
  | .elementName => "Invalid element name"
  | .attribute => "Failed to parse attribute"
  | .attributeName => "Invalid attribute name"
  | .attributeValue => "Failed to unescape attribute value"
  | .unfinished => "unexpected end of document"
  | .noRoot => "document has no root element"

/-- Why a file cannot be read or written. -/
inductive FileFault where
  /-- There is nothing under the path. -/
  | missing
  /-- The path names a directory. -/
  | isDirectory
  /-- A part of the path that should be a directory is a file. -/
  | notDirectory
  /-- The file may not be opened. -/
  | denied
  /-- The content is no UTF-8 text. -/
  | notText
  /-- The store has not looked at the path yet. -/
  | unvisited (path : String)
  deriving DecidableEq, Repr

/-- The wording of a file failure, with the operating system's number where it has one. -/
def FileFault.message : FileFault → String
  | .missing => "No such file or directory (os error 2)"
  | .isDirectory => "Is a directory (os error 21)"
  | .notDirectory => "Not a directory (os error 20)"
  | .denied => "Permission denied (os error 13)"
  | .notText => "stream did not contain valid UTF-8"
  | .unvisited path => s!"{path} has not been read"

/-! ### Failures -/

/-- Why a request is refused. -/
inductive Error where
  /-- A grammar file is not found or holds no grammar. -/
  | resolution (fault : ResolutionFault)
  /-- A construct of the grammar is incomplete. -/
  | grammar (fault : GrammarFault)
  /-- A definition reaches itself through references. -/
  | cyclicReference (name : String)
  /-- A reference names no registered definition. -/
  | unknownDefinition (name : String)
  /-- A type is declared for an element that the grammar does not define. -/
  | unknownElement (name : String)
  /-- An interleave stands below the root of an element's content. -/
  | nestedInterleave (element : String)
  /-- The content holds a construct that is not supported. -/
  | unsupported (construct : String)
  /-- The compiled parts do not make a schema. -/
  | schema (fault : SchemaFault)
  /-- A compact schema has wrong values. -/
  | compact (fault : CompactFault)
  /-- A compact schema is no JSON, or JSON of another shape. -/
  | json
  /-- A grammar file is not well-formed. -/
  | malformedGrammar (fault : SyntaxFault)
  /-- A limit is exceeded. -/
  | limitExceeded (resource : Resource) (amount bound : Nat)
  /-- A file cannot be read. -/
  | file (fault : FileFault)
  /-- A document is refused. -/
  | markup (fault : MarkupFault)
  deriving DecidableEq, Repr

/-- The full wording of a failure. -/
def Error.message : Error → String
  | .resolution fault => "resolution error: " ++ fault.message
  | .grammar fault => "grammar error: " ++ fault.message
  | .cyclicReference name => s!"cyclic reference: definition '{name}' refers to itself"
  | .unknownDefinition name => s!"unknown definition '{name}'"
  | .unknownElement name => s!"unknown element '{name}' in elementType declaration"
  | .nestedInterleave element => s!"nested interleave blocks are not supported (in <{element}>)"
  | .unsupported construct => s!"unsupported grammar construct <{construct}>"
  | .schema fault => "schema error: " ++ fault.message
  | .compact fault => "serialization error: " ++ fault.message
  | .json => "JSON error: not a compact schema"
  | .malformedGrammar fault => "parse error: " ++ fault.text
  | .limitExceeded resource amount bound => "limit exceeded: " ++ resource.excess amount bound
  | .file fault => "I/O error: " ++ fault.message
  | .markup fault => "XML error: " ++ fault.message

end RelaxSchema
