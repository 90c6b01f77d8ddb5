import RelaxSchema.Proofs.Grammar.Definitions

/-!
# Removed elements and references

What is left of a grammar when the elements and references of some names are removed. The nodes are
listed with those above them (`Tree.trailsAll`), and such a listing says all about the trees.

* `Definitions.eq_of_labelTrails_eq`: trees with the same listing are the same;
* `Definitions.eq_strip_iff`: what is left are the nodes that are not removed and stand below none
  that is, in the same order and below the same nodes;
* `Definitions.strip_eq_foldl`: the names may be removed one after the other;
* `Definitions.not_isRemoved_of_mem_strip`: none of the nodes that are left is one to be removed.
-/

namespace RelaxSchema

open List RelaxSchema.Tree

/-! ### Nodes with those above them -/

namespace Tree

mutual

/-- A tree and the nodes below it in document order, each after the nodes above it. -/
def trails : Tree → List (List Tree)
  | ⟨name, attributes, children⟩ =>
    [⟨name, attributes, children⟩] :: (trailsAll children).map (⟨name, attributes, children⟩ :: ·)

/-- Several trees and the nodes below them in document order, each after the nodes above it. -/
def trailsAll : List Tree → List (List Tree)
  | [] => []
  | tree :: rest => trails tree ++ trailsAll rest

end

theorem trails_eq (tree : Tree) :
    tree.trails = [tree] :: (trailsAll tree.children).map (tree :: ·) := by
  cases tree
  rfl

end Tree

namespace Definitions

/-- Nodes after those above them, without what is below them. -/
def labelTrails (trails : List (List Tree)) : List (List (String × Catalogue String)) :=
  trails.map (List.map label)

theorem labelTrails_append (before after : List (List Tree)) :
    labelTrails (before ++ after) = labelTrails before ++ labelTrails after :=
  map_append

theorem labelTrails_below (tree : Tree) (trails : List (List Tree)) :
    labelTrails ([tree] :: trails.map (tree :: ·)) =
      [label tree] :: (labelTrails trails).map (label tree :: ·) := by
  simp [labelTrails, Function.comp_def]

theorem labelTrails_cons (tree : Tree) (rest : List Tree) : labelTrails (trailsAll (tree :: rest)) =
    [label tree] :: ((labelTrails (trailsAll tree.children)).map (label tree :: ·) ++
      labelTrails (trailsAll rest)) := by
  rw [trailsAll, labelTrails_append, trails_eq, labelTrails_below, cons_append]

theorem ne_nil_of_mem_labelTrails {trees : List Tree} {trail : List (String × Catalogue String)}
    (h : trail ∈ labelTrails (trailsAll trees)) : trail ≠ [] := by
  induction trees with
  | nil => simp [labelTrails, trailsAll] at h
  | cons tree rest ih =>
    rw [labelTrails_cons, mem_cons, mem_append, mem_map] at h
    rcases h with rfl | ⟨inner, -, rfl⟩ | h
    · simp
    · simp
    · exact ih h

/-- The nodes below the first tree are listed up to the next node with none above it. -/
theorem takeWhile_labelTrails (top : String × Catalogue String) (children rest : List Tree) :
    ((labelTrails (trailsAll children)).map (top :: ·) ++ labelTrails (trailsAll rest)).takeWhile
      (fun trail => 1 < trail.length) = (labelTrails (trailsAll children)).map (top :: ·) := by
  have hbelow : ∀ trail ∈ (labelTrails (trailsAll children)).map (top :: ·),
      decide (1 < trail.length) = true := by
    intro trail htrail
    obtain ⟨inner, hinner, rfl⟩ := mem_map.mp htrail
    have hpos := length_pos_of_ne_nil (ne_nil_of_mem_labelTrails hinner)
    rw [length_cons, decide_eq_true_iff]
    omega
  have hnext : (labelTrails (trailsAll rest)).takeWhile (fun trail => 1 < trail.length) = [] := by
    cases rest with
    | nil => rfl
    | cons tree rest => rw [labelTrails_cons, takeWhile_cons_of_neg (by simp)]
  rw [takeWhile_append_of_pos hbelow, hnext, append_nil]

/-- **The listing determines the trees.** -/
theorem eq_of_labelTrails_eq : ∀ {trees others : List Tree},
    labelTrails (trailsAll trees) = labelTrails (trailsAll others) → trees = others
  | [], [], _ => rfl
  | [], tree :: rest, h => by simp [labelTrails, trailsAll, trails_eq] at h
  | tree :: rest, [], h => by simp [labelTrails, trailsAll, trails_eq] at h
  | ⟨name, attributes, children⟩ :: rest, ⟨name', attributes', children'⟩ :: rest', h => by
    rw [labelTrails_cons, labelTrails_cons, cons.injEq, cons.injEq] at h
    obtain ⟨⟨hlabel, -⟩, h⟩ := h
    obtain ⟨hname, hattributes⟩ : name = name' ∧ attributes = attributes' := Prod.mk.inj hlabel
    rw [hlabel] at h
    have hbelow := congrArg (takeWhile fun trail => decide (1 < trail.length)) h
    rw [takeWhile_labelTrails, takeWhile_labelTrails] at hbelow
    have hchildren : children = children' :=
      eq_of_labelTrails_eq (map_injective_iff.mpr cons_injective hbelow)
    have hrest : rest = rest' := eq_of_labelTrails_eq (append_cancel_left (hbelow ▸ h))
    rw [hname, hattributes, hchildren, hrest]

/-! ### What is left -/

/-- Whether neither a node nor one of those above it is an element or a reference with one of the
names. -/
def isKept (names : List String) (trail : List Tree) : Bool := trail.all fun node =>
    !isRemoved names node

section Strip

variable {names : List String}

theorem filter_isKept_trails_of_isRemoved {tree : Tree} (h : isRemoved names tree = true) :
    tree.trails.filter (isKept names) = [] := by
  rw [filter_eq_nil_iff, trails_eq]
  simp [isKept, h]

theorem filter_isKept_trails {tree : Tree} (h : isRemoved names tree = false) :
    tree.trails.filter (isKept names) =
      [tree] :: ((trailsAll tree.children).filter (isKept names)).map (tree :: ·) := by
  have hcomp : isKept names ∘ (tree :: ·) = isKept names := by
    funext trail
    simp [isKept, h]
  rw [trails_eq, filter_cons_of_pos (by simp [isKept, h]), filter_map, hcomp]

mutual

theorem labelTrails_stripTree : ∀ tree : Tree, isRemoved names tree = false →
    labelTrails (stripTree names tree).trails = labelTrails (tree.trails.filter (isKept names))
  | ⟨name, attributes, children⟩, h => by
    rw [filter_isKept_trails h, stripTree, trails_eq, labelTrails_below, labelTrails_below,
      labelTrails_strip children]
    rfl

/-- **What is left of some trees** are the nodes that are not removed and stand below none that is,
in their order and below the same nodes. -/
theorem labelTrails_strip : ∀ trees : List Tree,
    labelTrails (trailsAll (strip names trees)) =
      labelTrails ((trailsAll trees).filter (isKept names))
  | [] => rfl
  | tree :: rest => by
    have hrest := labelTrails_strip rest
    rw [strip, trailsAll, filter_append]
    cases hremoved : isRemoved names tree with
    | true => rw [if_pos rfl, filter_isKept_trails_of_isRemoved hremoved, nil_append, hrest]
    | false =>
      rw [if_neg Bool.false_ne_true, trailsAll, labelTrails_append, labelTrails_append,
        labelTrails_stripTree tree hremoved, hrest]

end

/-- **Only what is left of some trees** has these nodes. -/
theorem eq_strip_iff {trees left : List Tree} : left = strip names trees ↔
    labelTrails (trailsAll left) = labelTrails ((trailsAll trees).filter (isKept names)) := by
  rw [← labelTrails_strip trees]
  exact ⟨fun h => h ▸ rfl, eq_of_labelTrails_eq⟩

/-- A node keeps its name and its attributes. -/
theorem isRemoved_stripTree (names others : List String) (tree : Tree) :
    isRemoved others (stripTree names tree) = isRemoved others tree := by
  cases tree
  rfl

mutual

theorem stripTree_cons (name : String) : ∀ tree : Tree,
    stripTree (name :: names) tree = stripTree names (stripTree [name] tree)
  | ⟨other, attributes, children⟩ => by
    rw [stripTree, stripTree, stripTree, strip_cons name children]

theorem strip_cons (name : String) : ∀ trees : List Tree,
    strip (name :: names) trees = strip names (strip [name] trees)
  | [] => rfl
  | tree :: rest => by
    have hremoved : isRemoved (name :: names) tree =
        (isRemoved [name] tree || isRemoved names tree) := by
      cases hname : tree.attribute? "name" <;> simp [isRemoved, hname, Bool.and_or_distrib_left]
    rw [strip, strip, hremoved, stripTree_cons name tree, strip_cons name rest]
    cases isRemoved [name] tree with
    | true => rfl
    | false => simp [strip, isRemoved_stripTree]

end

/-- **The names may be removed one after the other**, each from what is left of the trees. -/
theorem strip_eq_foldl (names : List String) (trees : List Tree) :
    strip names trees = names.foldl (fun left name => strip [name] left) trees := by
  induction names generalizing trees with
  | nil => rw [strip_nil, foldl_nil]
  | cons name rest ih => rw [strip_cons, ih, foldl_cons]

mutual

theorem not_isRemoved_of_mem_stripTree : ∀ (tree : Tree) {node : Tree},
    node ∈ (stripTree names tree).descendants → isRemoved names node = false
  | ⟨_, _, children⟩, _, hnode => not_isRemoved_of_mem_strip children hnode

/-- Nothing is left that is to be removed. -/
theorem not_isRemoved_of_mem_strip : ∀ (trees : List Tree) {node : Tree},
    node ∈ preorderAll (strip names trees) → isRemoved names node = false
  | [], _, hnode => absurd hnode not_mem_nil
  | tree :: rest, node, hnode => by
    rw [strip] at hnode
    split at hnode
    · exact not_isRemoved_of_mem_strip rest hnode
    · rename_i hkept
      rw [preorderAll, mem_append, preorder_eq, mem_cons] at hnode
      rcases hnode with (rfl | hnode) | hnode
      · rw [isRemoved_stripTree, Bool.eq_false_iff]
        exact hkept
      · exact not_isRemoved_of_mem_stripTree tree hnode
      · exact not_isRemoved_of_mem_strip rest hnode

end

end Strip

end Definitions

end RelaxSchema
