import RelaxSchema.Error
import RelaxSchema.Content.Model
import RelaxSchema.Grammar.Tree

/-!
# Content models of a grammar

Reads the expanded content of an element as a content model. Several blocks side by side are a
sequence.
-/

namespace RelaxSchema.Tree

/-- Blocks side by side: a single one as it is, any other number as a sequence. -/
def sideBySide : List Model → Model
  | [block] => block
  | blocks => .sequence blocks

mutual

/-- The model of a block. An attribute and a block that holds nothing have none. -/
def blockModel : Tree → Except Error (List Model)
  | ⟨name, attributes, children⟩ =>
    match name with
    | "attribute" => .ok []
    | "empty" => .ok []
    | "notAllowed" => .ok []
    | "element" =>
      match attributes.find? "name" with
      | none => .error (.grammar .elementWithoutName)
      | some element => .ok [.token element]
    | "text" => .ok [.token textToken]
    | "group" => (fun blocks => [.sequence blocks]) <$> blockModels children
    | "choice" => (fun blocks => [.choice blocks]) <$> blockModels children
    | "interleave" => (fun blocks => [.interleave blocks]) <$> blockModels children
    | "optional" => (fun blocks => [.optional (sideBySide blocks)]) <$> blockModels children
    | "oneOrMore" => (fun blocks => [.plus (sideBySide blocks)]) <$> blockModels children
    | "zeroOrMore" => (fun blocks => [.kleene (sideBySide blocks)]) <$> blockModels children
    | other => .error (.unsupported other)

/-- The models of several blocks. -/
def blockModels : List Tree → Except Error (List Model)
  | [] => .ok []
  | tree :: rest => do
    let first ← blockModel tree
    let others ← blockModels rest
    .ok (first ++ others)

end

/-- The content model of an element whose content consists of some blocks. -/
def contentModel (blocks : List Tree) : Except Error Model := sideBySide <$> blockModels blocks

end RelaxSchema.Tree
