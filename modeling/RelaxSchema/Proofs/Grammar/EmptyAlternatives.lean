import RelaxSchema.Proofs.Grammar.Normality
import RelaxSchema.Proofs.Grammar.Preservation

/-!
# Optional content and empty alternatives

An empty alternative of a choice is no block, so a choice of a block and of nothing becomes a choice
of one. Here content with optional blocks is compared with content that has choices of one in their
place (`Narrowed`).

* `NormalForm.Narrowed.narrows`: the second content has no other words, and has all words of the
  first one if nothing may stand in the places of the choices anyway;
* `NormalForm.Narrowed.languages_eq`: in the latter case both have the same blocks;
* `NormalForm.Narrowed.exists_interleave`: an interleave that is all the content stays one.

The alternatives of a choice are spliced into a choice around it, so nodes are compared by their
branches.
-/

namespace RelaxSchema.NormalForm

open Computability List RelaxSchema.Tree

/-! ### Content with choices in the place of what is optional -/

/-- The place of each child of a node. What stands beside others is needed, whatever is around all
of them. -/
def Place.below (place : Place) (name : String) (count : Nat) : Place :=
  if name = "choice" then place
  else if count ≠ 1 then .exact
  else if name = "group" then place
  else if isRepetition name = true then place.inside name
  else .exact

/-- `Narrowed idle place trees trees'` says that some optional blocks of the first trees, each of
which stands in the place, are a choice of the block alone in the second ones. If `idle` is true,
nothing may stand in the place of each such block anyway, and no text loses a wrapper because of
it. -/
inductive Narrowed (idle : Bool) : Place → List Tree → List Tree → Prop
  /-- No trees. -/
  | nil {place : Place} : Narrowed idle place [] []
  /-- A node with such blocks below it. -/
  | cons {place : Place} {name : String} {attributes : Catalogue String}
      {children children' rest rest' : List Tree} :
      (idle = true → isSkippable name = true → isBareText children' = isBareText children) →
      Narrowed idle (place.below name children.length) children children' →
        Narrowed idle place rest rest' →
      Narrowed idle place (⟨name, attributes, children⟩ :: rest)
        (⟨name, attributes, children'⟩ :: rest')
  /-- An optional block. -/
  | choice {place : Place} {attributes attributes' : Catalogue String} {block block' : Tree}
      {rest rest' : List Tree} : normalise (branches block) ≠ [] →
      (idle = true → place ≠ .exact ∨ isBareText [block] = true ∨ [] ∈ normalLanguage [block']) →
      Narrowed idle place [block] [block'] → Narrowed idle place rest rest' →
      Narrowed idle place (⟨"optional", attributes, [block]⟩ :: rest)
        (⟨"choice", attributes', [block']⟩ :: rest')

/-! ### What is left of a node -/

/-- Nothing is left of a node exactly if nothing is left of its only branch. -/
theorem normalise_singleton_eq_nil_iff (tree : Tree) :
    normalise [tree] = [] ↔ (branches tree).length = 1 ∧ normalise (branches tree) = [] := by
  by_cases hname : tree.name = "choice"
  · by_cases hlength : (branches tree).length = 1
    · obtain ⟨branch, hbranches⟩ := length_eq_one_iff.mp hlength
      rw [normalise_of_single hname hbranches, hbranches]
      simp
    · rw [normalise_choice hname hlength]
      simp [hlength]
  · rw [branches_other hname]
    simp

/-- Nothing is left of a node that is no choice exactly if it is a repetition in which nothing is
left. -/
theorem normalise_eq_nil_iff_of_ne {tree : Tree} (hname : tree.name ≠ "choice") :
    normalise [tree] = [] ↔ isRepetition tree.name = true ∧ normalise tree.children = [] := by
  by_cases hrepetition : isRepetition tree.name = true
  · by_cases hbare : isSkippable tree.name = true ∧ isBareText tree.children = true
    · rw [normalise_unwrapped hbare.1 hbare.2]
      exact (and_iff_right hrepetition).symm
    · rw [normalise_repetition hrepetition fun hskippable =>
        Bool.eq_false_iff.mpr fun htext => hbare ⟨hskippable, htext⟩]
      simp [hrepetition]
  · rw [normalise_kept hname (Bool.eq_false_iff.mpr hrepetition)]
    simp [hrepetition]

/-- Branches of which something is left in both cases, or nothing is left and they are as many. -/
structure LeftAlike (trees trees' : List Tree) : Prop where
  /-- Something is left of both or of neither. -/
  eq_nil_iff : normalise trees = [] ↔ normalise trees' = []
  /-- If nothing is left, they are as many. -/
  length_eq : normalise trees = [] → trees.length = trees'.length
  /-- A single text is one in both cases. -/
  names_eq : trees.map Tree.name = ["text"] → trees'.map Tree.name = ["text"]

section LeftAlike

variable {trees trees' rest rest' : List Tree} {tree tree' : Tree}

theorem LeftAlike.nil : LeftAlike [] [] := ⟨Iff.rfl, fun _ => rfl, id⟩

theorem LeftAlike.eq_nil (h : LeftAlike trees trees') (hnil : trees = []) : trees' = [] := by
  subst hnil
  exact length_eq_zero_iff.mp (h.length_eq rfl).symm

theorem LeftAlike.append (h : LeftAlike trees trees') (h' : LeftAlike rest rest') :
    LeftAlike (trees ++ rest) (trees' ++ rest') := by
  refine ⟨?_, ?_, ?_⟩
  · rw [normalise_append, normalise_append, append_eq_nil_iff, append_eq_nil_iff,
      h.eq_nil_iff, h'.eq_nil_iff]
  · rw [normalise_append, append_eq_nil_iff, length_append, length_append]
    exact fun hnil => by rw [h.length_eq hnil.1, h'.length_eq hnil.2]
  · rw [map_append, map_append, append_eq_singleton_iff, append_eq_singleton_iff]
    rintro (⟨hnil, hnames⟩ | ⟨hnames, hnil⟩)
    · exact .inl ⟨by rw [h.eq_nil (map_eq_nil_iff.mp hnil), map_nil], h'.names_eq hnames⟩
    · exact .inr ⟨h.names_eq hnames, by rw [h'.eq_nil (map_eq_nil_iff.mp hnil), map_nil]⟩

/-- Nodes with such branches: something is left of both or of neither. -/
theorem LeftAlike.normalise_iff (h : LeftAlike (branches tree) (branches tree')) :
    normalise [tree] = [] ↔ normalise [tree'] = [] := by
  rw [normalise_singleton_eq_nil_iff, normalise_singleton_eq_nil_iff, ← h.eq_nil_iff]
  exact and_congr_left fun hnil => by rw [h.length_eq hnil]

theorem normalise_ne_nil_of_branches (h : normalise (branches tree) ≠ []) : normalise [tree] ≠ [] :=
  fun hnil => h ((normalise_singleton_eq_nil_iff tree).mp hnil).2

theorem normalise_iff_of_forall₂
    (h : Forall₂ (fun tree tree' => LeftAlike (branches tree) (branches tree')) trees trees') :
    normalise trees = [] ↔ normalise trees' = [] := by
  induction h with
  | nil => exact Iff.rfl
  | @cons tree tree' rest rest' hfirst _ ih =>
    rw [normalise_cons, normalise_cons tree', append_eq_nil_iff, append_eq_nil_iff,
      hfirst.normalise_iff, ih]

theorem leftAlike_branchesAll
    (h : Forall₂ (fun tree tree' => LeftAlike (branches tree) (branches tree')) trees trees') :
    LeftAlike (branchesAll trees) (branchesAll trees') := by
  induction h with
  | nil => exact .nil
  | cons hfirst _ ih => exact hfirst.append ih

/-- A single text is one in both cases. -/
theorem isBareText_of_forall₂
    (h : Forall₂ (fun tree tree' => LeftAlike (branches tree) (branches tree')) trees trees')
    (hbare : isBareText trees = true) : isBareText trees' = true := by
  cases h with
  | nil => exact hbare
  | @cons tree tree' rest rest' hfirst hrest =>
    rw [isBareText_cons, Bool.and_eq_true, decide_eq_true_iff, List.isEmpty_iff] at hbare ⊢
    obtain ⟨rfl, hnames⟩ := hbare
    exact ⟨forall₂_nil_left_iff.mp hrest, hfirst.names_eq hnames⟩

end LeftAlike

section Narrowed

variable {idle : Bool} {place : Place} {trees trees' : List Tree}

/-- The branches of a choice of one block are those of the block. -/
theorem branches_choice_singleton (attributes : Catalogue String) (block : Tree) :
    branches ⟨"choice", attributes, [block]⟩ = branches block := by
  rw [branches_choice rfl]
  exact append_nil _

/-- An optional block is left if something is left of the block. -/
theorem normalise_optional_ne_nil {block : Tree} (h : normalise (branches block) ≠ [])
    (attributes : Catalogue String) : normalise [⟨"optional", attributes, [block]⟩] ≠ [] := by
  have hiff := @normalise_eq_nil_iff_of_ne ⟨"optional", attributes, [block]⟩ (by simp)
  exact fun hnil => normalise_ne_nil_of_branches h (hiff.mp hnil).2

/-- **Something is left in both cases or in neither.** -/
theorem Narrowed.leftAlike (h : Narrowed idle place trees trees') :
    Forall₂ (fun tree tree' => LeftAlike (branches tree) (branches tree')) trees trees' := by
  induction h with
  | nil => exact .nil
  | @cons place name attributes children children' rest rest' _ _ _ ihchildren ih =>
    refine .cons ?_ ih
    by_cases hname : name = "choice"
    · subst hname
      rw [branches_choice rfl, branches_choice rfl]
      exact leftAlike_branchesAll ihchildren
    · rw [@branches_other ⟨name, attributes, children⟩ hname,
        @branches_other ⟨name, attributes, children'⟩ hname]
      refine ⟨?_, fun _ => rfl, id⟩
      rw [@normalise_eq_nil_iff_of_ne ⟨name, attributes, children⟩ hname,
        @normalise_eq_nil_iff_of_ne ⟨name, attributes, children'⟩ hname]
      exact and_congr_right' (normalise_iff_of_forall₂ ihchildren)
  | @choice place attributes attributes' block block' rest rest' hleft _ _ _ ihblock ih =>
    refine .cons ?_ ih
    obtain ⟨hblock, -⟩ := forall₂_cons.mp ihblock
    have hleft' : normalise (branches block') ≠ [] := mt hblock.eq_nil_iff.mpr hleft
    rw [branches_choice_singleton,
      @branches_other ⟨"optional", attributes, [block]⟩ (by simp)]
    have hoptional := normalise_optional_ne_nil hleft attributes
    exact ⟨iff_of_false hoptional hleft', fun hnil => absurd hnil hoptional, fun hnames =>
      by simp at hnames⟩

/-- The trees compare one by one. -/
theorem Narrowed.forall₂ (h : Narrowed idle place trees trees') :
    Forall₂ (fun tree tree' => Narrowed idle place [tree] [tree']) trees trees' := by
  induction h with
  | nil => exact .nil
  | cons hkept hchildren _ _ ih => exact .cons (.cons hkept hchildren .nil) ih
  | choice hleft hidle hblock _ _ ih => exact .cons (.choice hleft hidle hblock .nil) ih

theorem Narrowed.append {others others' : List Tree} (h : Narrowed idle place trees trees')
    (h' : Narrowed idle place others others') :
    Narrowed idle place (trees ++ others) (trees' ++ others') := by
  induction h with
  | nil => exact h'
  | cons hkept hchildren _ _ ih => exact .cons hkept hchildren (ih h')
  | choice hleft hidle hblock _ _ ih => exact .choice hleft hidle hblock (ih h')

/-- The choices hide nothing. -/
theorem Narrowed.any_mentions {name : String} (hoptional : name ≠ "optional")
    (hchoice : name ≠ "choice") (h : Narrowed idle place trees trees') :
    (trees.any fun tree => tree.mentions name) = trees'.any fun tree => tree.mentions name := by
  induction h with
  | nil => rfl
  | @cons _ label attributes _ children' _ _ _ _ _ ihchildren ih =>
    rw [any_cons, any_cons, ih, mentions_eq, ihchildren, mentions_eq ⟨label, attributes, children'⟩]
  | @choice _ attributes attributes' block block' _ _ _ _ _ _ ihblock ih =>
    rw [any_cons, any_cons, ih, mentions_eq, mentions_eq ⟨"choice", attributes', [block']⟩, ihblock,
      decide_eq_false (Ne.symm hoptional), decide_eq_false (Ne.symm hchoice)]

/-- The blocks without attributes compare. -/
theorem Narrowed.filter_attributes (h : Narrowed idle place trees trees') :
    Narrowed idle place (trees.filter fun block => !block.mentions "attribute")
      (trees'.filter fun block => !block.mentions "attribute") := by
  have hall := h.forall₂
  clear h
  induction hall with
  | nil => exact .nil
  | @cons tree tree' rest rest' hfirst _ ih =>
    have hsame : tree.mentions "attribute" = tree'.mentions "attribute" := by
      simpa using hfirst.any_mentions (by decide : "attribute" ≠ "optional") (by decide)
    cases hmentions : tree.mentions "attribute" with
    | true =>
      rw [filter_cons_of_neg (by simp [hmentions]),
        filter_cons_of_neg (by simp [← hsame, hmentions])]
      exact ih
    | false =>
      rw [filter_cons_of_pos (by simp [hmentions]),
        filter_cons_of_pos (by simp [← hsame, hmentions])]
      exact hfirst.append ih

end Narrowed

/-! ### Languages -/

/-- The second language is not larger. If `idle` is true, it lacks nothing that is not allowed in
the place anyway. -/
structure Narrows (idle : Bool) (place : Place) (language language' : Language String) : Prop where
  /-- No word is added. -/
  le : language' ≤ language
  /-- No word is lost, as far as the place is concerned. -/
  le_close : idle = true → language ≤ place.close language'

section Narrows

variable {idle : Bool} {place : Place} {language language' other other' : Language String}

theorem Narrows.refl (language : Language String) : Narrows idle place language language :=
  ⟨le_refl _, fun _ => place.le_close language⟩

theorem Narrows.weaken (h : Narrows idle .exact language language') :
    Narrows idle place language language' :=
  ⟨h.le, fun hidle => (h.le_close hidle).trans (place.le_close language')⟩

theorem Narrows.eq (h : Narrows true .exact language language') : language = language' :=
  le_antisymm (h.le_close rfl) h.le

theorem Narrows.add (h : Narrows idle place language language')
    (h' : Narrows idle place other other') :
    Narrows idle place (language + other) (language' + other') := by
  refine ⟨add_le_add h.le h'.le, fun hidle => add_le ?_ ?_⟩
  · exact (h.le_close hidle).trans (Place.close_mono (le_add_right (le_refl _)))
  · exact (h'.le_close hidle).trans (Place.close_mono (le_add_left (le_refl _)))

theorem Narrows.mul (h : Narrows idle .exact language language')
    (h' : Narrows idle .exact other other') :
    Narrows idle .exact (language * other) (language' * other') :=
  ⟨mul_le_mul' h.le h'.le, fun hidle => mul_le_mul' (h.le_close hidle) (h'.le_close hidle)⟩

theorem Narrows.repetition {name : String} (hname : isRepetition name = true)
    (h : Narrows idle (place.inside name) language language') :
    Narrows idle place (repetitionLanguage name language) (repetitionLanguage name language') := by
  refine ⟨repetitionLanguage_mono name h.le, fun hidle => ?_⟩
  rcases isRepetition_iff.mp hname with rfl | rfl | rfl
  · exact optional_le (h.le_close hidle)
  · exact zeroOrMore_le (h.le_close hidle)
  · exact oneOrMore_le (h.le_close hidle)

/-- Blocks one after the other, each of which is needed. -/
theorem narrows_sequence {trees trees' : List Tree}
    (h : Forall₂ (fun tree tree' =>
      Narrows idle .exact (normalLanguage [tree]) (normalLanguage [tree']))
      trees trees') : Narrows idle .exact (normalLanguage trees) (normalLanguage trees') := by
  induction h with
  | nil => exact .refl _
  | @cons tree tree' rest rest' hfirst _ ih =>
    rw [normalLanguage_cons, normalLanguage_cons tree']
    exact hfirst.mul ih

/-- Blocks in a node: one alone stands in the place of all of them. -/
theorem narrows_children {inner : Place} {children children' : List Tree}
    (h : Forall₂ (fun tree tree' =>
      Narrows idle place (normalLanguage [tree]) (normalLanguage [tree'])) children children')
    (hone : children.length = 1 → place = inner) (hmore : children.length ≠ 1 → place = .exact) :
    Narrows idle inner (normalLanguage children) (normalLanguage children') := by
  by_cases hlength : children.length = 1
  · obtain rfl := hone hlength
    obtain ⟨child, rfl⟩ := length_eq_one_iff.mp hlength
    obtain ⟨child', _, hchild, hnil, rfl⟩ := forall₂_cons_left_iff.mp h
    obtain rfl := forall₂_nil_left_iff.mp hnil
    exact hchild
  · obtain rfl := hmore hlength
    exact (narrows_sequence h).weaken

end Narrows

/-- The words of the blocks that are left of some branches. -/
def leftWords (trees : List Tree) : Language String := (languages (normalise trees)).sum

theorem leftWords_append (before after : List Tree) :
    leftWords (before ++ after) = leftWords before + leftWords after := by
  rw [leftWords, normalise_append, languages_append, List.sum_append]
  rfl

/-- The words of what is left of a node are those of its branches. -/
theorem IsContent.normalLanguage_eq {tree : Tree} (h : IsContent tree) : normalLanguage [tree] =
    if normalise (branches tree) = [] then 1 else leftWords (branches tree) := by
  by_cases hname : tree.name = "choice"
  · rw [normalLanguage_choice h hname, leftWords, sum_languages_normalise]
  · rw [branches_other hname]
    split
    · rename_i hnil
      exact normalLanguage_of_nil hnil
    · rename_i hleft
      exact (h.leftLanguage_eq hleft).symm

/-- A single text is a word of its own. -/
theorem normalLanguage_of_isBareText {trees : List Tree} (h : isBareText trees = true) :
    normalLanguage trees = {[textToken]} := by
  have hwrapped : normalise [.plain "optional" trees] = normalise trees := normalise_unwrapped rfl h
  rw [normalLanguage, ← hwrapped]
  exact @normalLanguage_text (.plain "optional" trees) rfl h

section Content

variable {idle : Bool} {place : Place} {tree tree' : Tree}

/-- Content as its branches compare. -/
structure NarrowsTo (idle : Bool) (place : Place) (tree tree' : Tree) : Prop where
  /-- The second node is content too. -/
  isContent : IsContent tree'
  /-- Something is left of both or of neither. -/
  leftAlike : LeftAlike (branches tree) (branches tree')
  /-- The branches compare. -/
  narrows : Narrows idle place (leftWords (branches tree)) (leftWords (branches tree'))

/-- The nodes compare as their branches do. -/
theorem NarrowsTo.language (h : NarrowsTo idle place tree tree') (hcontent : IsContent tree) :
    Narrows idle place (normalLanguage [tree]) (normalLanguage [tree']) := by
  rw [hcontent.normalLanguage_eq, h.isContent.normalLanguage_eq]
  by_cases hnil : normalise (branches tree) = []
  · rw [if_pos hnil, if_pos (h.leftAlike.eq_nil_iff.mp hnil)]
    exact .refl _
  · rw [if_neg hnil, if_neg (mt h.leftAlike.eq_nil_iff.mpr hnil)]
    exact h.narrows

/-- The branches compare as the nodes do. -/
theorem narrowsTo_of_language (hcontent : IsContent tree) (hcontent' : IsContent tree')
    (hleft : LeftAlike (branches tree) (branches tree'))
    (h : Narrows idle place (normalLanguage [tree]) (normalLanguage [tree'])) :
    NarrowsTo idle place tree tree' := by
  refine ⟨hcontent', hleft, ?_⟩
  rw [hcontent.normalLanguage_eq, hcontent'.normalLanguage_eq] at h
  by_cases hnil : normalise (branches tree) = []
  · have hnil' := hleft.eq_nil_iff.mp hnil
    rw [leftWords, leftWords, hnil, hnil']
    exact .refl _
  · rwa [if_neg hnil, if_neg (mt hleft.eq_nil_iff.mpr hnil)] at h

theorem leftWords_branchesAll {trees trees' : List Tree}
    (h : Forall₂ (NarrowsTo idle place) trees trees') :
    Narrows idle place (leftWords (branchesAll trees)) (leftWords (branchesAll trees')) := by
  induction h with
  | nil => exact .refl _
  | cons hfirst _ ih =>
    rw [branchesAll, branchesAll, leftWords_append, leftWords_append]
    exact hfirst.narrows.add ih

/-- A repetition with children that compare. -/
theorem narrows_repetition {name : String} {attributes : Catalogue String}
    {children children' : List Tree} (hname : isRepetition name = true)
    (hbare : isBareText children = true → isBareText children' = true)
    (hkept : idle = true → isSkippable name = true → isBareText children' = isBareText children)
    (h : Narrows idle (place.inside name) (normalLanguage children) (normalLanguage children')) :
    Narrows idle place (normalLanguage [⟨name, attributes, children⟩])
      (normalLanguage [⟨name, attributes, children'⟩]) := by
  by_cases htext : isSkippable name = true ∧ isBareText children = true
  · obtain ⟨hskippable, htext⟩ := htext
    rw [@normalLanguage_text ⟨name, attributes, children⟩ hskippable htext,
      @normalLanguage_text ⟨name, attributes, children'⟩ hskippable (hbare htext)]
    exact .refl _
  · have hrepeated := @normalLanguage_repetition ⟨name, attributes, children⟩ hname
        fun hskippable =>
      Bool.eq_false_iff.mpr fun hbefore => htext ⟨hskippable, hbefore⟩
    rw [hrepeated]
    by_cases htext' : isSkippable name = true ∧ isBareText children' = true
    · -- Only the second node loses its wrapper, so some of these blocks are not idle.
      obtain ⟨hskippable, htext'⟩ := htext'
      rw [@normalLanguage_text ⟨name, attributes, children'⟩ hskippable htext',
        ← normalLanguage_of_isBareText htext']
      refine ⟨h.le.trans (le_repetitionLanguage name), fun hidle => ?_⟩
      exact absurd ⟨hskippable, (hkept hidle hskippable).symm.trans htext'⟩ htext
    · have hrepeated' := @normalLanguage_repetition ⟨name, attributes, children'⟩ hname
        fun hskippable => Bool.eq_false_iff.mpr fun hafter => htext' ⟨hskippable, hafter⟩
      rw [hrepeated']
      exact h.repetition hname

/-- An optional block, and the block alone. -/
theorem narrows_optional {attributes : Catalogue String} {block block' : Tree}
    (hcontent : IsContent block)
    (hidle : idle = true → place ≠ .exact ∨ isBareText [block] = true ∨
      [] ∈ normalLanguage [block']) (h : NarrowsTo idle place block block') :
    Narrows idle place (normalLanguage [⟨"optional", attributes, [block]⟩])
      (normalLanguage [block']) := by
  have hblock := h.language hcontent
  by_cases hbare : isBareText [block] = true
  · have hbare' := isBareText_of_forall₂ (.cons h.leftAlike .nil) hbare
    rw [@normalLanguage_text ⟨"optional", attributes, [block]⟩ rfl hbare,
      normalLanguage_of_isBareText hbare']
    exact .refl _
  · have hrepeated := @normalLanguage_repetition ⟨"optional", attributes, [block]⟩ rfl
      fun _ => Bool.eq_false_iff.mpr hbare
    rw [hrepeated]
    refine ⟨hblock.le.trans (le_repetitionLanguage "optional"), fun hidles => ?_⟩
    refine add_le (hblock.le_close hidles) ?_
    rcases hidle hidles with hplace | htext | hempty
    · exact Place.one_le_close hplace _
    · exact absurd htext hbare
    · refine le_trans ?_ (place.le_close _)
      rintro word rfl
      exact hempty

/-- What an element or a text holds does not matter. -/
theorem normalLanguage_leaf_congr {name : String} (h : name = "element" ∨ name = "text")
    (attributes : Catalogue String) (children children' : List Tree) :
    normalLanguage [⟨name, attributes, children⟩] =
      normalLanguage [⟨name, attributes, children'⟩] := by
  have hleaf := @normalLanguage_leaf ⟨name, attributes, children⟩ h
  have hleaf' := @normalLanguage_leaf ⟨name, attributes, children'⟩ h
  rw [hleaf, hleaf']
  rcases h with rfl | rfl <;> rfl

/-- A group or a repetition with children that compare. -/
theorem narrows_composite {name : String} {attributes : Catalogue String}
    {children children' : List Tree} (hname : name = "group" ∨ isRepetition name = true)
    (hkept : idle = true → isSkippable name = true → isBareText children' = isBareText children)
    (hbare : isBareText children = true → isBareText children' = true)
    (h : Forall₂ (fun tree tree' => Narrows idle (place.below name children.length)
      (normalLanguage [tree]) (normalLanguage [tree'])) children children') :
    Narrows idle place (normalLanguage [⟨name, attributes, children⟩])
      (normalLanguage [⟨name, attributes, children'⟩]) := by
  have hchoice : name ≠ "choice" := by
    rintro rfl
    simp [isRepetition, isSkippable] at hname
  have hmore : children.length ≠ 1 → place.below name children.length = .exact := fun hlength => by
    rw [Place.below, if_neg hchoice, if_pos hlength]
  rcases hname with rfl | hrepetition
  · have hgroup := @normalLanguage_group ⟨"group", attributes, children⟩ rfl
    have hgroup' := @normalLanguage_group ⟨"group", attributes, children'⟩ rfl
    rw [hgroup, hgroup']
    exact narrows_children h (fun hlength => by rw [hlength]; rfl) hmore
  · refine narrows_repetition hrepetition hbare hkept (narrows_children h (fun hlength => ?_) hmore)
    have hgroup : name ≠ "group" := by
      rintro rfl
      simp [isRepetition, isSkippable] at hrepetition
    rw [Place.below, if_neg hchoice, if_neg (not_not.mpr hlength), if_neg hgroup,
      if_pos hrepetition]

/-- A node with children that compare. -/
theorem narrowsTo_node {name : String} {attributes : Catalogue String}
    {children children' : List Tree} (hcontent : IsContent ⟨name, attributes, children⟩)
    (hkept : idle = true → isSkippable name = true → isBareText children' = isBareText children)
    (hleft : LeftAlike (branches ⟨name, attributes, children⟩)
      (branches ⟨name, attributes, children'⟩))
    (h : (∀ child ∈ children, IsContent child) →
      Forall₂ (NarrowsTo idle (place.below name children.length)) children children') :
    NarrowsTo idle place ⟨name, attributes, children⟩ ⟨name, attributes, children'⟩ := by
  by_cases hatom : name = "element" ∨ name = "text"
  · have hcontent' : IsContent ⟨name, attributes, children'⟩ := by
      cases hcontent with
      | element hname hattribute => exact .element hname hattribute
      | text hname => exact .text hname
      | composite hcomposite =>
        rcases hatom with rfl | rfl
        · exact absurd hcomposite not_isComposite_element
        · exact absurd hcomposite not_isComposite_text
    refine narrowsTo_of_language hcontent hcontent' hleft ?_
    rw [normalLanguage_leaf_congr hatom attributes children children']
    exact .refl _
  · obtain ⟨helement, htext⟩ := not_or.mp hatom
    have hchildren : ∀ child ∈ children, IsContent child :=
      hcontent.forall_children ⟨helement, htext⟩
    have hcomposite : IsComposite name := by
      cases hcontent with
      | element hname _ => exact absurd hname helement
      | text hname => exact absurd hname htext
      | composite hcomposite _ => exact hcomposite
    have hall := h hchildren
    have hcontent' : IsContent ⟨name, attributes, children'⟩ := by
      refine .composite hcomposite fun child' hchild' => ?_
      obtain ⟨child, -, hchild⟩ := exists_right_of_forall₂ hall.flip hchild'
      exact hchild.isContent
    rcases or_left_comm.mp hcomposite with rfl | hname
    · refine ⟨hcontent', hleft, ?_⟩
      rw [branches_choice rfl, branches_choice rfl]
      exact leftWords_branchesAll hall
    · refine narrowsTo_of_language hcontent hcontent' hleft (narrows_composite hname hkept ?_ ?_)
      · exact isBareText_of_forall₂ (hall.imp fun _ _ hchild => hchild.leftAlike)
      · exact ((forall₂_and_left _ _).mpr ⟨hchildren, hall⟩).imp fun _ _ hchild =>
          hchild.2.language hchild.1

/-- **Content with choices in the place of what is optional** has no other words, and has all of
them as far as its place is concerned if the choices are idle. -/
theorem Narrowed.narrows {trees trees' : List Tree} (h : Narrowed idle place trees trees')
    (hcontent : ∀ tree ∈ trees, IsContent tree) : Forall₂ (NarrowsTo idle place) trees trees' := by
  induction h with
  | nil => exact .nil
  | @cons place name attributes children children' rest rest' hkept hchildren hrest ihchildren ih =>
    obtain ⟨htree, hothers⟩ := forall_mem_cons.mp hcontent
    refine .cons ?_ (ih hothers)
    obtain ⟨hleft, -⟩ :=
      forall₂_cons.mp (@Narrowed.cons _ _ _ attributes _ _ _ _ hkept hchildren hrest).leftAlike
    exact narrowsTo_node htree hkept hleft ihchildren
  | @choice place attributes attributes' block block' rest rest' hleft hidle hblock
      hrest ihblock ih =>
    obtain ⟨htree, hothers⟩ := forall_mem_cons.mp hcontent
    refine .cons ?_ (ih hothers)
    have hinner : ∀ child ∈ [block], IsContent child :=
      htree.forall_children (ne_of_isRepetition rfl)
    obtain ⟨hto, -⟩ := forall₂_cons.mp (ihblock hinner)
    obtain ⟨halike, -⟩ := forall₂_cons.mp
      (@Narrowed.choice _ _ attributes attributes' _ _ _ _ hleft hidle hblock hrest).leftAlike
    have hchoice : IsContent ⟨"choice", attributes', [block']⟩ :=
      .composite (.inr (.inl rfl)) (forall_mem_singleton.mpr hto.isContent)
    refine narrowsTo_of_language htree hchoice halike ?_
    rw [hchoice.normalLanguage_eq, branches_choice_singleton, ← hto.isContent.normalLanguage_eq]
    exact narrows_optional (hinner block (mem_singleton_self block)) hidle hto

section Lists

variable {trees trees' : List Tree}

theorem Narrowed.forall_content (h : Narrowed idle place trees trees')
    (hcontent : ∀ tree ∈ trees, IsContent tree) : ∀ tree' ∈ trees', IsContent tree' := by
  intro tree' htree'
  obtain ⟨tree, -, htree⟩ := exists_right_of_forall₂ (h.narrows hcontent).flip htree'
  exact htree.isContent

/-- The nodes compare one by one. -/
theorem Narrowed.forall₂_language (h : Narrowed idle place trees trees')
    (hcontent : ∀ tree ∈ trees, IsContent tree) : Forall₂ (fun tree tree' => IsContent tree ∧
      NarrowsTo idle place tree tree' ∧
        Narrows idle place (normalLanguage [tree]) (normalLanguage [tree'])) trees trees' :=
  ((forall₂_and_left _ _).mpr ⟨hcontent, h.narrows hcontent⟩).imp fun _ _ htree =>
    ⟨htree.1, htree.2, htree.2.language htree.1⟩

/-- **Content where all is needed**: no word is added, and none is lost if the choices are idle. -/
theorem Narrowed.normalLanguage_narrows (h : Narrowed idle .exact trees trees')
    (hcontent : ∀ tree ∈ trees, IsContent tree) :
    Narrows idle .exact (normalLanguage trees) (normalLanguage trees') :=
  narrows_sequence ((h.forall₂_language hcontent).imp fun _ _ htree => htree.2.2)

/-- The block that is left of a node, if any. -/
theorem IsContent.languages_normalise (h : IsContent tree) :
    languages (normalise [tree]) = if normalise [tree] = [] then []
      else [normalLanguage [tree]] := by
  rcases h.isLeft with hnil | ⟨normal, hnormal, hcontent⟩
  · rw [hnil, if_pos rfl]
    rfl
  · obtain ⟨language, hlanguage⟩ := hcontent.exists_blockLanguages
    rw [normalLanguage, hnormal, if_neg (cons_ne_nil _ _),
      sequenceLanguage_of_blockLanguages hlanguage, languages_singleton, hlanguage]

/-- **Content with idle choices has the same blocks.** -/
theorem Narrowed.languages_eq (h : Narrowed true .exact trees trees')
    (hcontent : ∀ tree ∈ trees, IsContent tree) :
    languages (normalise trees) = languages (normalise trees') := by
  have hall := h.forall₂_language hcontent
  clear h hcontent
  induction hall with
  | nil => rfl
  | @cons tree tree' rest rest' hfirst _ ih =>
    obtain ⟨hcontent, hto, hlanguage⟩ := hfirst
    rw [normalise_cons, normalise_cons tree', languages_append, languages_append, ih,
      hcontent.languages_normalise, hto.isContent.languages_normalise, hlanguage.eq]
    simp only [hto.leftAlike.normalise_iff]

end Lists

end Content

/-! ### Unordered content -/

section Interleave

variable {idle : Bool} {place : Place} {trees trees' : List Tree}

/-- A node becomes an interleave if that is its only branch. -/
theorem exists_branch_of_interleave {tree node : Tree} (h : normalise [tree] = [node])
    (hname : node.name = "interleave") :
    ∃ branch, branches tree = [branch] ∧ branch.name = "interleave" ∧
      node = ⟨"interleave", branch.attributes, normalise branch.children⟩ := by
  revert h
  refine branches_induction
    (P := fun tree => normalise [tree] = [node] → ∃ branch, branches tree = [branch] ∧
    branch.name = "interleave" ∧ node = ⟨"interleave", branch.attributes,
      normalise branch.children⟩) (fun tree hchoice _ h => ?_) (fun tree hchoice ih h => ?_) tree
  · by_cases hrepetition : isRepetition tree.name = true
    · -- A repetition becomes a text or a repetition.
      by_cases hbare : isSkippable tree.name = true ∧ isBareText tree.children = true
      · obtain ⟨text, htext, htextName⟩ := normalise_text hbare.1 hbare.2
        obtain ⟨rfl, -⟩ := cons.inj (htext.symm.trans h)
        simp [hname] at htextName
      · rw [normalise_repetition hrepetition fun hskippable =>
          Bool.eq_false_iff.mpr fun htext => hbare ⟨hskippable, htext⟩] at h
        split at h
        · cases h
        · obtain ⟨rfl, -⟩ := cons.inj h
          rw [show tree.name = "interleave" from hname] at hrepetition
          simp [isRepetition, isSkippable] at hrepetition
    · rw [normalise_kept hchoice (Bool.eq_false_iff.mpr hrepetition)] at h
      obtain ⟨rfl, -⟩ := cons.inj h
      refine ⟨tree, branches_other hchoice, hname, ?_⟩
      rw [show tree.name = "interleave" from hname]
  · by_cases hlength : (branches tree).length = 1
    · obtain ⟨branch, hbranches⟩ := length_eq_one_iff.mp hlength
      have hbranch : branch ∈ branches tree := hbranches ▸ mem_singleton_self branch
      obtain ⟨inner, hinner, hrest⟩ := ih branch hbranch (normalise_of_single hchoice hbranches ▸ h)
      rw [branches_other (name_ne_of_mem_branches hbranch)] at hinner
      obtain ⟨rfl, -⟩ := cons.inj hinner
      exact ⟨branch, hbranches, hrest⟩
    · rw [normalise_choice hchoice hlength] at h
      obtain ⟨rfl, -⟩ := cons.inj h
      simp at hname

/-- The only branch is kept, as it is no choice. -/
theorem normalise_of_branches {tree branch : Tree} (h : branches tree = [branch]) :
    normalise [tree] = normalise [branch] := by
  by_cases hname : tree.name = "choice"
  · exact normalise_of_single hname h
  · obtain ⟨rfl, -⟩ := cons.inj ((branches_other hname).symm.trans h)
    rfl

/-- An interleave that is the only branch stays one, as it is not optional. -/
theorem Narrowed.exists_branch (h : Narrowed idle place trees trees') {branch : Tree}
    (hbranches : branchesAll trees = [branch]) (hname : branch.name = "interleave") : ∃ children',
      branchesAll trees' = [⟨"interleave", branch.attributes, children'⟩] ∧
        Narrowed idle .exact branch.children children' := by
  induction h with
  | nil => cases hbranches
  | @cons place name attributes children children' rest rest' _ hchildren hrest ihchildren ih =>
    have hrestAlike := leftAlike_branchesAll hrest.leftAlike
    rw [branchesAll, append_eq_singleton_iff] at hbranches
    rcases hbranches with ⟨hnil, hbranches⟩ | ⟨hbranches, hnil⟩
    · -- The branch stands behind choices of nothing.
      obtain ⟨grandchildren, hbranches', hnarrowed⟩ := ih hbranches
      by_cases hchoice : name = "choice"
      · subst hchoice
        rw [branches_choice rfl] at hnil
        have hnone := (leftAlike_branchesAll hchildren.leftAlike).eq_nil hnil
        exact ⟨grandchildren,
          by rw [branchesAll, branches_choice rfl, hnone, hbranches', nil_append], hnarrowed⟩
      · cases (@branches_other ⟨name, attributes, children⟩ hchoice).symm.trans hnil
    · by_cases hchoice : name = "choice"
      · subst hchoice
        rw [branches_choice rfl] at hbranches
        obtain ⟨grandchildren, hbranches', hnarrowed⟩ := ihchildren hbranches
        refine ⟨grandchildren, ?_, hnarrowed⟩
        rw [branchesAll, branches_choice rfl, hbranches', hrestAlike.eq_nil hnil, append_nil]
      · obtain ⟨rfl, -⟩ :=
          cons.inj ((@branches_other ⟨name, attributes, children⟩ hchoice).symm.trans
          hbranches)
        obtain rfl : name = "interleave" := hname
        refine ⟨children', ?_, ?_⟩
        · rw [branchesAll, branches_other (by simp), hrestAlike.eq_nil hnil, append_nil]
        · have hbelow : place.below "interleave" children.length = .exact := by
            simp [Place.below, isRepetition, isSkippable]
          exact hbelow ▸ hchildren
  | choice _ _ _ hrest _ ih =>
    rw [branchesAll, branches_other (by simp), append_eq_singleton_iff] at hbranches
    rcases hbranches with ⟨hnil, -⟩ | ⟨hbranches, -⟩
    · cases hnil
    · obtain ⟨rfl, -⟩ := cons.inj hbranches
      simp at hname

/-- **An interleave that is all the content stays one.** -/
theorem Narrowed.exists_interleave (h : Narrowed idle place trees trees') {node : Tree}
    (hnode : normalise trees = [node]) (hname : node.name = "interleave") : ∃ children children',
      node.children = normalise children ∧
        normalise trees' = [⟨"interleave", node.attributes, normalise children'⟩] ∧
          Narrowed idle .exact children children' := by
  have hall := h.forall₂
  clear h
  induction hall with
  | nil => cases hnode
  | @cons tree tree' rest rest' hfirst hrest ih =>
    have hvanish : normalise rest = [] ↔ normalise rest' = [] := by
      refine normalise_iff_of_forall₂ (hrest.imp fun _ _ hpair => ?_)
      obtain ⟨halike, -⟩ := forall₂_cons.mp hpair.leftAlike
      exact halike
    obtain ⟨halike, -⟩ := forall₂_cons.mp hfirst.leftAlike
    rw [normalise_cons, append_eq_singleton_iff] at hnode
    rw [normalise_cons tree']
    rcases hnode with ⟨hnil, hnode⟩ | ⟨hnode, hnil⟩
    · obtain ⟨children, children', hchildren, hnode', hnarrowed⟩ := ih hnode
      exact ⟨children, children', hchildren,
        by rw [halike.normalise_iff.mp hnil, hnode', nil_append], hnarrowed⟩
    · obtain ⟨branch, hbranches, hbranch, rfl⟩ := exists_branch_of_interleave hnode hname
      have hall : branchesAll [tree] = [branch] := by rw [branchesAll, branchesAll,
        hbranches, append_nil]
      obtain ⟨children', hbranches', hnarrowed⟩ := hfirst.exists_branch hall hbranch
      rw [branchesAll, branchesAll, append_nil] at hbranches'
      refine ⟨branch.children, children', rfl, ?_, hnarrowed⟩
      rw [hvanish.mp hnil, append_nil, normalise_of_branches hbranches',
        normalise_kept (by simp) (by simp [isRepetition, isSkippable])]

end Interleave

end RelaxSchema.NormalForm
