import RelaxSchema.Proofs.Grammar.Languages
import RelaxSchema.Proofs.Grammar.NormalNodes
import RelaxSchema.Proofs.Grammar.References

/-!
# Groups in definitions

What it means for the content of elements that the body of a definition is put in a group. Where a
reference is replaced, the blocks that it stands for are then in a group as well (`Regrouped`).

* `Expansion.Inlines.regrouped`: content is regrouped if the body of a definition is put in a group;
* `NormalForm.Regrouped.sameWords`: regrouped content stands for the same words.

This is so unless the reference stands where its blocks are not read one after the other: they may
be spliced among the alternatives of a choice or among interleaved blocks, or they may be all that a
repetition holds, which is then left out or loses its wrapper. `isTight` says what may not hold the
reference.
-/

namespace RelaxSchema

open List RelaxSchema.Tree RelaxSchema.NormalForm

namespace Expansion

/-! ### References among children -/

/-- A reference to a definition stands among some trees, or among those that a reference there leads
to. -/
inductive Splices (bodies : Catalogue (List Tree)) (name : String) : List Tree → Prop
  /-- A reference to the definition. -/
  | here {trees : List Tree} {tree : Tree} : tree ∈ trees → IsRefTo name tree →
      Splices bodies name trees
  /-- A reference to another definition with a reference among its trees. -/
  | through {trees body : List Tree} {tree : Tree} {target : String} : tree ∈ trees →
      IsRefTo target tree → bodies.find? target = some body → Splices bodies name body →
      Splices bodies name trees

/-- Whether it makes a difference in a node of this name that some blocks in it are in a group. -/
def isTight (run : List Tree) (name : String) : Bool :=
  name = "choice" || name = "interleave" || (isRepetition name && (normalise run).isEmpty) ||
    (isSkippable name && isBareText run)

/-- No tight node that is met holds a reference to a definition that becomes `run`. -/
def IsLoose (bodies : Catalogue (List Tree)) (name : String) (run trees : List Tree) : Prop :=
  ∀ node, Meets bodies trees node → isTight run node.name = true →
    ¬ Splices bodies name node.children

theorem IsLoose.of_cons {bodies : Catalogue (List Tree)} {name : String} {run rest : List Tree}
    {tree : Tree} (h : IsLoose bodies name run (tree :: rest)) : IsLoose bodies name run rest :=
  fun node hnode => h node (meets_cons_iff.mpr (.inr (.inr (.inr hnode))))

/-- Blocks with groups around a run of them, where the run may be spliced among the outermost ones
or not. -/
inductive Regrouped (run : List Tree) : Bool → List Tree → List Tree → Prop
  /-- No blocks. -/
  | nil {spliced : Bool} : Regrouped run spliced [] []
  /-- A block with groups in it. -/
  | cons {spliced : Bool} {tree : Tree} {children rest rest' : List Tree} :
      Regrouped run (!isTight run tree.name) tree.children children →
        Regrouped run spliced rest rest' →
      Regrouped run spliced (tree :: rest) (⟨tree.name, tree.attributes, children⟩ :: rest')
  /-- A group around the run, or around the first blocks of it. -/
  | group {front back rest rest' : List Tree} : Regrouped run true run (front ++ back) →
      Regrouped run true rest rest' →
      Regrouped run true (run ++ rest) (.plain "group" front :: (back ++ rest'))

/-- Definitions with a group around the first trees of one body. -/
structure AreGrouped (bodies bodies' : Catalogue (List Tree)) (name : String)
    (front back : List Tree) : Prop where
  /-- The body without the group. -/
  find?_eq : bodies.find? name = some (front ++ back)
  /-- The body with the group. -/
  find?_group : bodies'.find? name = some (.plain "group" front :: back)
  /-- The others are the same. -/
  find?_other : ∀ other, other ≠ name → bodies'.find? other = bodies.find? other

section Inlining

variable {bodies bodies' : Catalogue (List Tree)} {name : String} {front back run : List Tree}

theorem Regrouped.append {spliced : Bool} {before before' after after' : List Tree}
    (h : Regrouped run spliced before before') (h' : Regrouped run spliced after after') :
    Regrouped run spliced (before ++ after) (before' ++ after') := by
  induction h with
  | nil => exact h'
  | cons hchildren _ _ ih => exact .cons hchildren (ih h')
  | @group front back rest rest' hrun _ _ ih =>
    rw [append_assoc, cons_append, append_assoc]
    exact .group hrun (ih h')

theorem Inlines.append {before after blocks others : List Tree} (h : Inlines bodies before blocks)
    (h' : Inlines bodies after others) : Inlines bodies (before ++ after) (blocks ++ others) := by
  induction h with
  | nil => exact h'
  | element hname hattribute _ ih => exact .element hname hattribute ih
  | ref href hbody hinlined _ _ ih =>
    rw [append_assoc]
    exact .ref href hbody hinlined ih
  | dropped hdropped _ ih => exact .dropped hdropped ih
  | kept hleaf hchildren _ _ ih => exact .kept hleaf hchildren ih

/-- What a group in front of some trees becomes. -/
theorem Inlines.exists_of_group {inlined : List Tree}
    (h : Inlines bodies (.plain "group" front :: back) inlined) : ∃ blocks others,
      inlined = .plain "group" blocks :: others ∧ Inlines bodies front blocks ∧
        Inlines bodies back others := by
  obtain ⟨blocks, others, hblocks, hothers, hinlined⟩ := h.of_kept rfl
  exact ⟨blocks, others, hinlined, hblocks, hothers⟩

theorem Splices.cons {tree : Tree} {trees : List Tree} (h : Splices bodies name trees) :
    Splices bodies name (tree :: trees) := by
  cases h with
  | here hmem href => exact .here (mem_cons_of_mem _ hmem) href
  | through hmem href hbody hrefs => exact .through (mem_cons_of_mem _ hmem) href hbody hrefs

/-- **Content is regrouped if the body of a definition is put in a group**, and no tight node holds
a reference to the definition. -/
theorem Inlines.regrouped (hgrouped : AreGrouped bodies bodies' name front back)
    (hrun : ∀ inlined, Inlines bodies (front ++ back) inlined → inlined = run)
    {trees blocks blocks' : List Tree} {spliced : Bool} (h : Inlines bodies trees blocks)
    (h' : Inlines bodies' trees blocks')
    (hloose : Inlines bodies (front ++ back) run → IsLoose bodies name run trees)
    (hspliced : Inlines bodies (front ++ back) run → spliced = false →
      ¬ Splices bodies name trees) : Regrouped run spliced blocks blocks' := by
  induction h generalizing blocks' spliced with
  | nil =>
    cases h'
    exact .nil
  | @element tree element rest blocks hname hattribute _ ih =>
    obtain ⟨element', others, hattribute', hrest, rfl⟩ := h'.of_element hname
    obtain rfl := Option.some.inj (hattribute.symm.trans hattribute')
    exact .cons .nil (ih hrest (fun hbody => (hloose hbody).of_cons) fun hbody hfalse =>
      mt .cons (hspliced hbody hfalse))
  | @ref tree target body inlined rest blocks href hbody hinlined _ ihbody ih =>
    obtain ⟨body', inlined', others, hbody', hinlined', hrest, rfl⟩ := h'.of_ref href
    have hothers := ih hrest (fun hfound => (hloose hfound).of_cons) fun hfound hfalse =>
      mt .cons (hspliced hfound hfalse)
    have hlooseBody : Inlines bodies (front ++ back) run → IsLoose bodies name run body :=
      fun hfound node hnode => hloose hfound node (meets_cons_iff.mpr
        (.inr (.inr (.inl ⟨target, body, href, hbody, hnode⟩))))
    by_cases hname : target = name
    · -- The definition itself: what it becomes is spliced here, in a group.
      subst hname
      obtain rfl := Option.some.inj (hgrouped.find?_eq.symm.trans hbody)
      obtain rfl := Option.some.inj (hgrouped.find?_group.symm.trans hbody')
      obtain rfl := hrun inlined hinlined
      have htrue : spliced = true := by
        by_contra hfalse
        exact hspliced hinlined (Bool.eq_false_of_not_eq_true hfalse) (.here mem_cons_self href)
      subst htrue
      obtain ⟨first, second, rfl, hfront, hback⟩ := hinlined'.exists_of_group
      rw [cons_append]
      refine .group (ihbody (hfront.append hback) hlooseBody ?_) hothers
      exact fun _ htrue => absurd htrue.symm Bool.false_ne_true
    · -- Another definition, whose blocks are spliced among these.
      rw [hgrouped.find?_other target hname, hbody] at hbody'
      obtain rfl := Option.some.inj hbody'
      refine .append (ihbody hinlined' hlooseBody fun hfound hfalse hrefs => ?_) hothers
      exact hspliced hfound hfalse (.through mem_cons_self href hbody hrefs)
  | dropped hdropped _ ih =>
    exact ih (h'.of_dropped hdropped) (fun hbody => (hloose hbody).of_cons) fun hbody hfalse =>
      mt .cons (hspliced hbody hfalse)
  | @kept tree children rest blocks hleaf _ _ ihchildren ih =>
    obtain ⟨children', others, hchildren, hrest, rfl⟩ := h'.of_kept hleaf
    refine .cons (ihchildren hchildren (fun hbody node hnode => ?_) fun hbody hfalse => ?_)
      (ih hrest (fun hbody => (hloose hbody).of_cons) fun hbody hfalse =>
        mt .cons (hspliced hbody hfalse))
    · exact hloose hbody node (meets_cons_iff.mpr (.inr (.inl ⟨hleaf, hnode⟩)))
    · exact hloose hbody tree (meets_cons_iff.mpr (.inl rfl)) (by simpa using hfalse)

end Inlining

section Attributes

variable {run : List Tree} {spliced : Bool} {trees trees' : List Tree}

/-- A group hides nothing. -/
theorem Regrouped.any_mentions {name : String} (hname : name ≠ "group")
    (h : Regrouped run spliced trees trees') :
    (trees.any fun tree => tree.mentions name) = trees'.any fun tree => tree.mentions name := by
  induction h with
  | nil => rfl
  | @cons _ tree children _ _ _ _ ihchildren ih =>
    rw [any_cons, any_cons, ih, mentions_eq, ihchildren,
      mentions_eq ⟨tree.name, tree.attributes, children⟩]
  | @group front back rest rest' _ _ ihrun ih =>
    have hgroup : (plain "group" front).mentions name = front.any fun tree =>
        tree.mentions name := by
      rw [mentions_eq, plain, decide_eq_false (Ne.symm hname), Bool.false_or]
    rw [any_append, ihrun, ih, any_cons, any_append, any_append, hgroup, Bool.or_assoc]

/-- The blocks without attributes are regrouped, if there is none in the run. -/
theorem Regrouped.filter_attributes (h : Regrouped run spliced trees trees')
    (hrun : ∀ block ∈ run, block.mentions "attribute" = false) :
    Regrouped run spliced (trees.filter fun block => !block.mentions "attribute")
      (trees'.filter fun block => !block.mentions "attribute") := by
  have hkept : ∀ {blocks : List Tree},
    (blocks.any fun block => block.mentions "attribute") = false →
      (blocks.filter fun block => !block.mentions "attribute") = blocks := by
    intro blocks hnone
    refine filter_eq_self.mpr fun block hblock => ?_
    rw [Bool.eq_false_of_not_eq_true (any_eq_false.mp hnone block hblock)]
    rfl
  induction h with
  | nil => exact .nil
  | @cons _ tree children rest rest' hchildren _ _ ih =>
    have hsame : tree.mentions "attribute" =
        (⟨tree.name, tree.attributes, children⟩ : Tree).mentions "attribute" := by
      rw [mentions_eq, hchildren.any_mentions (by decide),
        mentions_eq ⟨tree.name, tree.attributes, children⟩]
    cases hmentions : tree.mentions "attribute" with
    | true =>
      rw [filter_cons_of_neg (by simp [hmentions]),
        filter_cons_of_neg (by simp [← hsame, hmentions])]
      exact ih
    | false =>
      rw [filter_cons_of_pos (by simp [hmentions]),
        filter_cons_of_pos (by simp [← hsame, hmentions])]
      exact .cons hchildren ih
  | @group front back rest rest' hregrouped _ _ ih =>
    have hnone : (run.any fun block => block.mentions "attribute") = false := by
      rw [any_eq_false]
      exact fun block hblock => by simp [hrun block hblock]
    have hnone' := (hregrouped.any_mentions (by decide)).symm.trans hnone
    rw [any_append, Bool.or_eq_false_iff] at hnone'
    obtain ⟨hfront, hback⟩ := hnone'
    have hgroup : (plain "group" front).mentions "attribute" = false := by
      rw [mentions_eq, plain, hfront]
      rfl
    rw [filter_append, hkept hnone, filter_cons_of_pos (by simp [hgroup]),
      filter_append, hkept hback]
    exact .group hregrouped ih

end Attributes

end Expansion

namespace NormalForm

/-! ### Blocks that stand for the same words -/

/-- Nodes that stand for the same words, read one after the other. -/
structure SameWords (trees trees' : List Tree) : Prop where
  /-- The words are the same. -/
  sequenceLanguage_eq : sequenceLanguage trees = sequenceLanguage trees'
  /-- So are the interleaves in the nodes. -/
  interleavesAll_eq : interleavesAll trees = interleavesAll trees'

/-- Nodes that stand for the same words, block by block. -/
structure SameBlocks (trees trees' : List Tree) : Prop where
  /-- The words of the blocks are the same. -/
  languages_eq : languages trees = languages trees'
  /-- So are the interleaves in the nodes. -/
  interleavesAll_eq : interleavesAll trees = interleavesAll trees'
  /-- If there is no node, there is none on the other side. -/
  eq_nil_iff : trees = [] ↔ trees' = []

/-- Nodes of the same name of which the same is left. -/
def SameBranch (tree tree' : Tree) : Prop :=
  tree.name = tree'.name ∧ SameBlocks (normalise [tree]) (normalise [tree'])

section Same

variable {trees trees' rest rest' : List Tree}

theorem SameWords.trans {trees'' : List Tree} (h : SameWords trees trees')
    (h' : SameWords trees' trees'') : SameWords trees trees'' :=
  ⟨h.1.trans h'.1, h.2.trans h'.2⟩

theorem SameWords.append (h : SameWords trees trees') (h' : SameWords rest rest') :
    SameWords (trees ++ rest) (trees' ++ rest') := by
  refine ⟨?_, ?_⟩
  · rw [sequenceLanguage_append, sequenceLanguage_append, h.1, h'.1]
  · rw [interleavesAll_append, interleavesAll_append, h.2, h'.2]

/-- A group stands for what is in it. -/
theorem sameWords_group (attributes : Catalogue String) (trees : List Tree) :
    SameWords trees [⟨"group", attributes, trees⟩] := by
  have hname : (⟨"group", attributes, trees⟩ : Tree).name = "group" := rfl
  refine ⟨?_, ?_⟩
  · rw [sequenceLanguage, sequenceLanguage, languages_singleton, blockLanguages_group hname,
      List.prod_singleton]
    rfl
  · rw [interleavesAll_singleton, interleaves_group hname]

theorem SameBlocks.sameWords (h : SameBlocks trees trees') : SameWords trees trees' :=
  ⟨congrArg List.prod h.1, h.2⟩

theorem SameBlocks.append (h : SameBlocks trees trees') (h' : SameBlocks rest rest') :
    SameBlocks (trees ++ rest) (trees' ++ rest') := by
  refine ⟨?_, ?_, ?_⟩
  · rw [languages_append, languages_append, h.1, h'.1]
  · rw [interleavesAll_append, interleavesAll_append, h.2, h'.2]
  · rw [append_eq_nil_iff, append_eq_nil_iff, h.3, h'.3]

theorem sameBlocks_nil : SameBlocks [] [] := ⟨rfl, rfl, Iff.rfl⟩

/-- Nodes of the same name with children that stand for the same. -/
theorem SameWords.sameBlocks {name : String} {attributes : Catalogue String}
    (h : SameWords trees trees')
    (hsame : name = "choice" ∨ name = "interleave" → languages trees = languages trees') :
    SameBlocks [⟨name, attributes, trees⟩] [⟨name, attributes, trees'⟩] := by
  refine ⟨?_, ?_, by simp⟩
  · rw [languages_singleton, languages_singleton, blockLanguages_congr h.1 hsame]
  · rw [interleavesAll_singleton, interleavesAll_singleton, interleaves_congr h.2 hsame]

/-- What is left of each is left of all. -/
theorem sameBlocks_of_forall₂ (h : Forall₂ SameBranch trees trees') :
    SameBlocks (normalise trees) (normalise trees') := by
  induction h with
  | nil => exact sameBlocks_nil
  | @cons first first' rest rest' hfirst _ ih =>
    rw [normalise_cons first rest, normalise_cons first' rest']
    exact hfirst.2.append ih

end Same

/-! ### What groups do to the normal form -/

section Regrouped

open Expansion

/-- What two lists of nodes have in common that are regrouped. -/
structure Agree (run : List Tree) (spliced : Bool) (trees trees' : List Tree) : Prop where
  /-- What is left of them stands for the same words. -/
  sameWords : SameWords (normalise trees) (normalise trees')
  /-- The blocks are the same as well, if the run is not among them. -/
  sameBlocks : spliced = false → SameBlocks (normalise trees) (normalise trees')
  /-- So are the branches. -/
  branches : spliced = false → Forall₂ SameBranch (branchesAll trees) (branchesAll trees')
  /-- Both hold nodes, if there are any in the run. -/
  eq_nil_iff : (spliced = true → run ≠ []) → (trees = [] ↔ trees' = [])
  /-- Something is left of both, if something is left of the run. -/
  normalise_eq_nil_iff : (spliced = true → normalise run ≠ []) →
    (normalise trees = [] ↔ normalise trees' = [])
  /-- Both or neither are a single text, if the run is none. -/
  isBareText_eq : (spliced = true → normalise run ≠ [] ∧ isBareText run = false) →
    isBareText trees = isBareText trees'

variable {run : List Tree} {spliced : Bool} {trees trees' : List Tree}

theorem map_name_of_forall₂ (h : Forall₂ SameBranch trees trees') :
    trees.map Tree.name = trees'.map Tree.name := by
  induction h with
  | nil => rfl
  | cons hfirst _ ih => rw [map_cons, map_cons, hfirst.1, ih]

theorem ne_nil_of_normalise_ne_nil (h : normalise trees ≠ []) : trees ≠ [] := by
  rintro rfl
  exact h rfl

/-- A repetition is kept or left out alike, and so is the wrapper of a text. -/
theorem Agree.repetition {name : String} {attributes : Catalogue String}
    {before children : List Tree} (h : Agree run (!isTight run name) before children)
    (hrepetition : isRepetition name = true) :
    SameBlocks (normalise [⟨name, attributes, before⟩])
      (normalise [⟨name, attributes, children⟩]) := by
  -- What is not tight is neither left out because of the run nor loses its wrapper because of it.
  have hleft : (!isTight run name) = true → normalise run ≠ [] := by
    intro hloose hnil
    simp [isTight, hrepetition, hnil] at hloose
  have hbare : isSkippable name = true → isBareText before = isBareText children := by
    intro hskippable
    refine h.isBareText_eq fun hloose => ⟨hleft hloose, ?_⟩
    by_contra htext
    simp [isTight, hskippable, htext] at hloose
  by_cases htext : isSkippable name = true ∧ isBareText before = true
  · obtain ⟨hskippable, htext⟩ := htext
    obtain ⟨text, hnormal, hname⟩ := @normalise_text ⟨name, attributes, before⟩ hskippable htext
    obtain ⟨text', hnormal', hname'⟩ := @normalise_text ⟨name, attributes, children⟩ hskippable
      ((hbare hskippable).symm.trans htext)
    rw [hnormal, hnormal']
    refine ⟨?_, ?_, by simp⟩
    · rw [languages_singleton, languages_singleton, blockLanguages_text hname,
        blockLanguages_text hname']
    · rw [interleavesAll_singleton, interleavesAll_singleton, interleaves_text hname,
        interleaves_text hname']
  · have hnone : isSkippable name = true → isBareText before = false := fun hskippable =>
      Bool.eq_false_of_not_eq_true fun hbefore => htext ⟨hskippable, hbefore⟩
    have hkept := @normalise_repetition ⟨name, attributes, before⟩ hrepetition hnone
    have hkept' := @normalise_repetition ⟨name, attributes, children⟩ hrepetition
      fun hskippable => (hbare hskippable).symm.trans (hnone hskippable)
    have hempty := h.normalise_eq_nil_iff hleft
    rw [hkept, hkept']
    by_cases hnil : normalise before = []
    · rw [hnil, hempty.mp hnil]
      exact sameBlocks_nil
    · rw [if_neg (by simpa using hnil), if_neg (by simpa using mt hempty.mpr hnil)]
      refine h.sameWords.sameBlocks fun hname => ?_
      rcases hname with rfl | rfl <;> simp [isRepetition, isSkippable] at hrepetition

/-- **A node with regrouped children** has branches of which the same is left. -/
theorem Agree.node {tree : Tree} {children : List Tree}
    (h : Agree run (!isTight run tree.name) tree.children children) :
    Forall₂ SameBranch (NormalForm.branches tree)
        (NormalForm.branches ⟨tree.name, tree.attributes, children⟩) ∧
      SameBlocks (normalise [tree]) (normalise [⟨tree.name, tree.attributes, children⟩]) := by
  obtain ⟨name, attributes, before⟩ := tree
  -- If the node is tight, nothing is spliced among its children.
  have htight : ∀ {P : Prop}, (isTight run name = true → P) → (!isTight run name) = false → P :=
    fun himp hfalse => himp (by simpa using hfalse)
  by_cases hchoice : name = "choice"
  · subst hchoice
    have hbranches := h.branches rfl
    have hall : Forall₂ SameBranch (NormalForm.branches ⟨"choice", attributes, before⟩)
        (NormalForm.branches ⟨"choice", attributes, children⟩) := by
      rw [branches_choice rfl, branches_choice rfl]
      exact hbranches
    refine ⟨hall, ?_⟩
    -- A choice of one branch becomes the branch, and any other one keeps what is left of its
    -- branches.
    by_cases hlength : (NormalForm.branches ⟨"choice", attributes, before⟩).length = 1
    · obtain ⟨branch, hbranch⟩ := length_eq_one_iff.mp hlength
      rw [hbranch] at hall
      obtain ⟨branch', _, hsame, hnil, hbranch'⟩ := forall₂_cons_left_iff.mp hall
      obtain rfl := forall₂_nil_left_iff.mp hnil
      rw [normalise_of_single rfl hbranch, normalise_of_single rfl hbranch']
      exact hsame.2
    · have hlength' := hall.length_eq ▸ hlength
      rw [normalise_choice rfl hlength, normalise_choice rfl hlength']
      have hleft := sameBlocks_of_forall₂ hall
      exact hleft.sameWords.sameBlocks fun _ => hleft.languages_eq
  · have hnode : SameBlocks (normalise [⟨name, attributes, before⟩])
        (normalise [⟨name, attributes, children⟩]) := by
      cases hrepetition : isRepetition name with
      | false =>
        have hkept := @normalise_kept ⟨name, attributes, before⟩ hchoice hrepetition
        have hkept' := @normalise_kept ⟨name, attributes, children⟩ hchoice hrepetition
        rw [hkept, hkept']
        refine h.sameWords.sameBlocks fun hname => (h.sameBlocks ?_).languages_eq
        rcases hname with rfl | rfl
        · exact absurd rfl hchoice
        · rfl
      | true => exact h.repetition hrepetition
    refine ⟨?_, hnode⟩
    rw [branches_other hchoice, branches_other hchoice]
    exact .cons ⟨rfl, hnode⟩ .nil

/-- **Regrouped nodes agree.** -/
theorem Regrouped.agree (h : Regrouped run spliced trees trees') :
    Agree run spliced trees trees' := by
  induction h with
  | nil =>
    exact ⟨sameBlocks_nil.sameWords, fun _ => sameBlocks_nil, fun _ => .nil, fun _ => Iff.rfl,
      fun _ => Iff.rfl, fun _ => rfl⟩
  | @cons _ tree children rest rest' _ _ ihchildren ih =>
    obtain ⟨hbranches, hnode⟩ := ihchildren.node
    have hnames : (NormalForm.branches tree).map Tree.name =
        (NormalForm.branches ⟨tree.name, tree.attributes, children⟩).map Tree.name :=
      map_name_of_forall₂ hbranches
    refine ⟨?_, fun hfalse => ?_, fun hfalse => ?_, fun _ => by simp, fun hleft => ?_,
      fun hbare => ?_⟩
    · rw [normalise_cons, normalise_cons _ rest']
      exact hnode.sameWords.append ih.sameWords
    · rw [normalise_cons, normalise_cons _ rest']
      exact hnode.append (ih.sameBlocks hfalse)
    · exact rel_append hbranches (ih.branches hfalse)
    · rw [normalise_cons, normalise_cons _ rest', append_eq_nil_iff, append_eq_nil_iff,
        hnode.eq_nil_iff, ih.normalise_eq_nil_iff hleft]
    · have hrest := ih.eq_nil_iff fun htrue => ne_nil_of_normalise_ne_nil (hbare htrue).1
      have hempty : rest.isEmpty = rest'.isEmpty := by
        rw [Bool.eq_iff_iff, List.isEmpty_iff, List.isEmpty_iff, hrest]
      rw [isBareText_cons, isBareText_cons, hnames, hempty]
  | @group front back rest rest' _ _ ihrun ih =>
    have hname : (plain "group" front).name ≠ "choice" := by simp [plain]
    have hgroup : normalise (plain "group" front :: (back ++ rest')) =
        [⟨"group", .empty, normalise front⟩] ++ (normalise back ++ normalise rest') := by
      have hkept := @normalise_kept (plain "group" front) hname rfl
      rw [normalise_cons, hkept, normalise_append]
      rfl
    have hwords : SameWords (normalise run)
        ([⟨"group", .empty, normalise front⟩] ++ normalise back) := by
      refine ihrun.sameWords.trans ?_
      rw [normalise_append]
      exact (sameWords_group .empty (normalise front)).append ⟨rfl, rfl⟩
    refine ⟨?_, fun htrue => absurd htrue.symm Bool.false_ne_true,
      fun htrue => absurd htrue.symm Bool.false_ne_true, fun hrun => ?_, fun hleft => ?_,
      fun hbare => ?_⟩
    · rw [normalise_append, hgroup, ← append_assoc]
      exact hwords.append ih.sameWords
    · simp [hrun rfl]
    · rw [normalise_append, hgroup]
      simp [hleft rfl]
    · -- A group is no text, and neither is the run.
      obtain ⟨hleft, htext⟩ := hbare rfl
      obtain ⟨first, others, rfl⟩ := exists_cons_of_ne_nil (ne_nil_of_normalise_ne_nil hleft)
      have hgroup : isBareText (plain "group" front :: (back ++ rest')) = false := by
        rw [isBareText_cons, branches_other hname]
        simp [plain]
      rw [hgroup, cons_append, isBareText_cons]
      cases others with
      | nil =>
        rw [isBareText_cons, isEmpty_nil, Bool.true_and] at htext
        rw [htext, Bool.and_false]
      | cons _ _ => rfl

/-- **Regrouped blocks stand for the same words** in their normal form. -/
theorem Regrouped.sameWords (h : Regrouped run spliced trees trees') :
    SameWords (normalise trees) (normalise trees') :=
  (Regrouped.agree h).sameWords

end Regrouped

end NormalForm

end RelaxSchema
