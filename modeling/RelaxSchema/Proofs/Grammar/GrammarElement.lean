import Mathlib
import RelaxSchema.Grammar.Tree

/-!
# The grammar element

The grammar element of a tree is the first one of that name in document order. A tree in which its
children are others has it in the same place (`Tree.grammar?_setGrammar`).
-/

namespace RelaxSchema

open List

namespace Tree

theorem grammar?_eq_find? (tree : Tree) :
    tree.grammar? = tree.preorder.find? fun node => node.name = "grammar" := by
  rw [grammar?, preorder_eq]
  split
  · rename_i hname
    rw [find?_cons_of_pos (by simpa using hname)]
  · rename_i hname
    rw [find?_cons_of_neg (by simpa using hname), find?]

theorem mentions_eq_isSome_find? (tree : Tree) (name : String) :
    tree.mentions name = (tree.preorder.find? fun node => node.name = name).isSome := by
  rw [mentions, isSome_find?]

/-! ### Other children -/

mutual

/-- A tree with other children of its grammar element. -/
def setGrammar (children : List Tree) : Tree → Tree
  | ⟨name, attributes, below⟩ =>
    if name = "grammar" then ⟨name, attributes, children⟩
    else ⟨name, attributes, setGrammarAll children below⟩

/-- Trees with other children of the first grammar element at or below them. -/
def setGrammarAll (children : List Tree) : List Tree → List Tree
  | [] => []
  | tree :: rest =>
    if tree.mentions "grammar" then setGrammar children tree :: rest
    else tree :: setGrammarAll children rest

end

mutual

/-- The first grammar element has the other children afterwards. -/
theorem find?_preorder_setGrammar (children : List Tree) : ∀ tree : Tree,
    (tree.setGrammar children).preorder.find? (fun node => node.name = "grammar") =
      (tree.preorder.find? fun node => node.name = "grammar").map fun grammar =>
        { grammar with children := children }
  | ⟨name, attributes, below⟩ => by
    have hbelow := find?_preorderAll_setGrammarAll children below
    rw [setGrammar, preorder]
    by_cases hname : name = "grammar"
    · rw [if_pos hname, preorder, find?_cons_of_pos (by simpa using hname),
        find?_cons_of_pos (by simpa using hname), Option.map_some]
    · rw [if_neg hname, preorder, find?_cons_of_neg (by simpa using hname),
        find?_cons_of_neg (by simpa using hname), hbelow]

/-- The first grammar element at or below some trees has the other children afterwards. -/
theorem find?_preorderAll_setGrammarAll (children : List Tree) : ∀ trees : List Tree,
    (preorderAll (setGrammarAll children trees)).find? (fun node => node.name = "grammar") =
      ((preorderAll trees).find? fun node => node.name = "grammar").map fun grammar =>
        { grammar with children := children }
  | [] => rfl
  | tree :: rest => by
    have htree := find?_preorder_setGrammar children tree
    have hrest := find?_preorderAll_setGrammarAll children rest
    rw [setGrammarAll, mentions_eq_isSome_find?, preorderAll]
    cases hfound : tree.preorder.find? fun node => node.name = "grammar" with
    | none =>
      rw [if_neg (by simp), preorderAll, find?_append, find?_append, hfound, hrest, Option.none_or,
        Option.none_or]
    | some grammar =>
      rw [if_pos (by simp), preorderAll, find?_append, find?_append, htree, hfound, Option.map_some,
        Option.some_or, Option.some_or, Option.map_some]

end

theorem grammar?_setGrammar (children : List Tree) (tree : Tree) :
    (tree.setGrammar children).grammar? =
      tree.grammar?.map fun grammar => { grammar with children := children } := by
  rw [grammar?_eq_find?, grammar?_eq_find?, find?_preorder_setGrammar]

end Tree

end RelaxSchema
