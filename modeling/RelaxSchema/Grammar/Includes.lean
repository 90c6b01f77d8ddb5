import RelaxSchema.Limits
import RelaxSchema.Grammar.Forest
import RelaxSchema.Grammar.Location
import RelaxSchema.Xml.Reader

/-!
# Includes

Loading a grammar puts copies of the children of the included grammar element in the place of each
include below the grammar element. The included file is loaded in the same way first. The includes
are listed once and worked off one after the other in the forest of the document, so an include
inside another one is loaded too, but what it stands for is copied into what was taken away with the
outer one.
-/

namespace RelaxSchema

namespace Forest

/-- Puts a copy of a tree before a child of an element. -/
def plantBefore (forest : Forest) (parent reference : Nat) (tree : Tree) : Forest :=
  (forest.plant tree).insertBefore parent forest.size reference

/-- Puts copies of elements of another forest in the place of a child of an element. -/
def substitute (forest : Forest) (parent element : Nat) (other : Forest)
    (ids : List Nat) : Forest :=
  ((ids.map other.tree).foldl (fun forest tree => forest.plantBefore parent element tree)
    forest).detach element

end Forest

/-- What is needed to load grammars. -/
structure Loader where
  /-- The files. -/
  store : FileStore
  /-- The directories to search for included files. -/
  searchDirectories : List String := []
  /-- The limits on file size and include depth. -/
  limits : Limits := {}

namespace Loader

/-- The file that an address in an include at a location refers to. -/
def resolve (loader : Loader) (location : Location) (href : String) : Except Error Location :=
  match lookUp? loader.store href (some location.baseDirectory) loader.searchDirectories with
  | none => .error (.resolution (.includeNotFound href location.display))
  | some path => .ok (.file path)

/-- Parses the text at a location. -/
def parse (loader : Loader) (location : Location) : Except Error Tree := do
  let text ← location.text loader.store
  loader.limits.check .grammarSize text.utf8ByteSize
  Tree.parse text (some location.display)

/-- The forest of the file that an include refers to and its grammar element, where `load` loads a
grammar. -/
def included (loader : Loader) (load : Location → Except Error Forest) (location : Location)
    (href : Option String) : Except Error (Forest × Nat) :=
  match href with
  | none => .error (.resolution (.includeWithoutHref location.display))
  | some href => do
    let path ← loader.resolve location href
    let forest ← load path
    match forest.grammar? with
    | none => .error (.resolution (.noGrammarElement href))
    | some grammar => .ok (forest, grammar)

/-- Puts what an include stands for in its place. -/
def expandInclude (loader : Loader) (load : Location → Except Error Forest) (location : Location)
    (forest : Forest) (element : Nat) : Except Error Forest := do
  let (other, grammar) ← loader.included load location (forest.attribute? element "href")
  match forest.parent? element with
  | none => .ok forest
  | some parent => .ok (forest.substitute parent element other (other.children grammar))

/-- Loads a grammar with `budget` levels left, its own included. Without one, the file is one link
too far from the entry grammar. -/
def loadWithin (loader : Loader) : Nat → Location → Except Error Forest
  | 0, _ =>
    let bound := loader.limits.maxIncludeDepth
    .error (.limitExceeded .includeDepth (bound + 1) bound)
  | budget + 1, location => do
    let tree ← loader.parse location
    let forest := Forest.ofTree tree
    match forest.grammar? with
    | none => .error (.resolution (.noGrammarElement location.display))
    | some grammar =>
      (forest.findAll grammar "include").foldlM
        (loader.expandInclude (loader.loadWithin budget) location) forest

/-- Loads the grammar at a location with all its includes. -/
def load (loader : Loader) (location : Location) : Except Error Tree := do
  let forest ← loader.loadWithin (loader.limits.maxIncludeDepth + 1) location
  .ok (forest.tree Forest.root)

/-- Finds the entry grammar and loads it with all its includes. -/
def loadEntry (loader : Loader) (entry : String) : Except Error Tree :=
  match lookUp? loader.store entry none loader.searchDirectories with
  | none => .error (.resolution (.entryNotFound entry))
  | some path => loader.load (.file path)

end Loader

end RelaxSchema
