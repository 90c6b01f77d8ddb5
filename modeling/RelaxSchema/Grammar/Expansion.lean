import RelaxSchema.Error
import RelaxSchema.Grammar.Tree

/-!
# Expansion of references

A reference stands for the children of the definition it names, spliced in its place. An element
is a leaf: only its name is kept, and its own content is not entered. While a definition is being
expanded it is not available for further references, so a definition that reaches itself is found
out and the expansion ends.
-/

namespace RelaxSchema.Expansion

/-- The leaf that stands for a child element. -/
def leaf (name : String) : Tree := ⟨"element", .ofList [("name", name)], []⟩

mutual

/-- The nodes that stand for a node, where `resolve` gives those that stand for a reference. -/
def expand (resolve : String → Except Error (List Tree)) : Tree → Except Error (List Tree)
  | ⟨name, attributes, children⟩ =>
    match name with
    -- The content of an inner element belongs to its own definition.
    | "element" =>
      match attributes.find? "name" with
      | some element => .ok [leaf element]
      | none => .error (.grammar .elementWithoutName)
    | "ref" =>
      match attributes.find? "name" with
      | some target => resolve target
      | none => .error (.grammar .refWithoutName)
    | "empty" => .ok []
    | "notAllowed" => .ok []
    | other => do
      let children ← expandAll resolve children
      .ok [⟨other, attributes, children⟩]

/-- The nodes that stand for several nodes. -/
def expandAll (resolve : String → Except Error (List Tree)) : List Tree → Except Error (List Tree)
  | [] => .ok []
  | tree :: rest => do
    let first ← expand resolve tree
    let others ← expandAll resolve rest
    .ok (first ++ others)

end

/-- The definitions that are left while the one of a name is expanded. -/
def without (name : String) (available : List (String × List Tree)) :
    List (String × List Tree) :=
  available.filter fun definition => definition.1 ≠ name

theorem length_without_lt {name : String} {body : List Tree} :
    ∀ {available : List (String × List Tree)}, available.lookup name = some body →
      (without name available).length < available.length
  | [], found => by simp at found
  | (other, otherBody) :: rest, found => by
    by_cases same : name = other
    · subst same
      have := List.length_filter_le (fun definition : String × List Tree =>
        definition.1 ≠ name) rest
      simp [without] at this ⊢
      omega
    · have : (name == other) = false := by simpa using same
      rw [List.lookup_cons, this] at found
      have := length_without_lt found
      have differs : other ≠ name := fun e => same e.symm
      simp [without, differs] at this ⊢
      omega

/-- The nodes that stand for a reference, where only some definitions are available. -/
def resolve (registered : List String) (available : List (String × List Tree)) (name : String) :
    Except Error (List Tree) :=
  match _found : available.lookup name with
  | some body => expandAll (fun target => resolve registered (without name available) target) body
  | none =>
    if name ∈ registered then .error (.cyclicReference name)
    else .error (.unknownDefinition name)
termination_by available.length
decreasing_by exact length_without_lt _found

/-- The nodes that stand for a node of an element's content, where all definitions are available. -/
def expandBlock (bodies : Catalogue (List Tree)) (block : Tree) : Except Error (List Tree) :=
  expand (resolve bodies.names bodies.entries) block

end RelaxSchema.Expansion
