import RelaxSchema.Proofs.Grammar.Languages
import RelaxSchema.Proofs.Grammar.NormalNodes
import RelaxSchema.Proofs.Grammar.Patterns

/-!
# Content and its normal form

Content is made of elements, text, groups, choices and repetitions (`NormalForm.IsContent`). Its
normal form is content too, with a language for each kind of node:

* `NormalForm.IsContent.normal_le`: the normal form has no other words than the content;
* `NormalForm.IsContent.exists_contentModel`: content has a content model.

A choice is described by its branches. The only word they do not account for is the empty one of a
choice of nothing among them, hence `NormalForm.hasGap`.
-/

namespace RelaxSchema.NormalForm

open Computability RelaxSchema.Tree

/-! ### Content -/

/-- Content made of elements, text, groups, choices and repetitions. -/
inductive IsContent : Tree → Prop
  /-- An element. -/
  | element {tree : Tree} {name : String} : tree.name = "element" →
      tree.attribute? "name" = some name → IsContent tree
  /-- Character data. -/
  | text {tree : Tree} : tree.name = "text" → IsContent tree
  /-- A group, a choice or a repetition of content. -/
  | composite {tree : Tree} : IsComposite tree.name → (∀ child ∈ tree.children, IsContent child) →
      IsContent tree

mutual

/-- Whether a node is a choice of nothing, or a choice that has one among its alternatives. -/
def hasGap : Tree → Bool
  | ⟨name, _, children⟩ => name = "choice" && (children.isEmpty || anyHasGap children)

/-- Whether one of some nodes has a gap. -/
def anyHasGap : List Tree → Bool
  | [] => false
  | tree :: rest => hasGap tree || anyHasGap rest

end

/-! ### Repetitions -/

section Repetitions

variable {language other : Language String}

theorem le_mul_kstar (language : Language String) : language ≤ language * language∗ := by
  calc language = language * 1 := (mul_one language).symm
    _ ≤ language * language∗ := mul_le_mul' (le_refl _) one_le_kstar

theorem repetitionLanguage_mono (name : String) (h : language ≤ other) :
    repetitionLanguage name language ≤ repetitionLanguage name other := by
  unfold repetitionLanguage
  split_ifs
  · exact add_le_add_left h 1
  · exact kstar_mono h
  · exact mul_le_mul' h (kstar_mono h)

theorem le_repetitionLanguage (name : String) : language ≤ repetitionLanguage name language := by
  unfold repetitionLanguage
  split_ifs
  · exact le_add_right (le_refl _)
  · exact le_kstar
  · exact le_mul_kstar language

theorem repetitionLanguage_one (name : String) : repetitionLanguage name 1 = 1 := by
  unfold repetitionLanguage
  split_ifs
  · exact add_idem 1
  · exact kstar_one
  · rw [kstar_one, mul_one]

end Repetitions

/-! ### The languages of content -/

theorem IsContent.forall_branches {tree : Tree} (h : IsContent tree) :
    ∀ branch ∈ branches tree, IsContent branch := by
  induction h with
  | element hname hattribute =>
    rw [branches_other (by rw [hname]; decide)]
    exact List.forall_mem_singleton.mpr (.element hname hattribute)
  | text hname =>
    rw [branches_other (by rw [hname]; decide)]
    exact List.forall_mem_singleton.mpr (.text hname)
  | @composite tree hcomposite hchildren ih =>
    by_cases hname : tree.name = "choice"
    · rw [branches_choice hname, branchesAll_eq_flatMap]
      intro branch hbranch
      obtain ⟨child, hchild, hbranch⟩ := List.mem_flatMap.mp hbranch
      exact ih child hchild branch hbranch
    · rw [branches_other hname]
      exact List.forall_mem_singleton.mpr (.composite hcomposite hchildren)

theorem IsContent.forall_children {tree : Tree} (h : IsContent tree)
    (hname : tree.name ≠ "element" ∧ tree.name ≠ "text") :
    ∀ child ∈ tree.children, IsContent child := by
  cases h with
  | element helement => exact absurd helement hname.1
  | text htext => exact absurd htext hname.2
  | composite _ hchildren => exact hchildren

theorem ne_of_isRepetition {name : String} (h : isRepetition name = true) :
    name ≠ "element" ∧ name ≠ "text" := by
  rcases isRepetition_iff.mp h with rfl | rfl | rfl <;> decide

theorem IsContent.exists_blockLanguages {tree : Tree} (h : IsContent tree) :
    ∃ language, blockLanguages tree = [language] := by
  cases h with
  | element hname hattribute => exact ⟨_, blockLanguages_element hname hattribute⟩
  | text hname => exact ⟨_, blockLanguages_text hname⟩
  | composite hcomposite =>
    rcases hcomposite with hname | hname | hname
    · exact ⟨_, blockLanguages_group hname⟩
    · exact ⟨_, blockLanguages_choice hname⟩
    · exact ⟨_, blockLanguages_repetition hname⟩

theorem sequenceLanguage_of_blockLanguages {tree : Tree} {language : Language String}
    (h : blockLanguages tree = [language]) : sequenceLanguage [tree] = language := by
  rw [sequenceLanguage, languages_singleton, h, List.prod_singleton]

theorem languages_of_content {trees : List Tree} (h : ∀ tree ∈ trees, IsContent tree) :
    languages trees = trees.map fun tree => sequenceLanguage [tree] := by
  induction trees with
  | nil => rfl
  | cons tree rest ih =>
    obtain ⟨htree, hrest⟩ := List.forall_mem_cons.mp h
    obtain ⟨language, hlanguage⟩ := htree.exists_blockLanguages
    rw [languages, ih hrest, List.map_cons, hlanguage, sequenceLanguage_of_blockLanguages hlanguage]
    rfl

/-- The empty word, if there is a gap. -/
def gapLanguage (gap : Bool) : Language String := if gap then 1 else 0

theorem gapLanguage_or (first second : Bool) :
    gapLanguage (first || second) = gapLanguage first + gapLanguage second := by
  cases first <;> cases second <;> simp [gapLanguage]

mutual

/-- A choice stands for what its branches stand for, and for nothing if there is a gap. -/
theorem sequenceLanguage_branches : ∀ tree : Tree, IsContent tree → sequenceLanguage [tree] =
    ((branches tree).map fun branch => sequenceLanguage [branch]).sum + gapLanguage (hasGap tree)
  | ⟨name, attributes, children⟩, h => by
    by_cases hname : name = "choice"
    · subst hname
      have hchildren : ∀ child ∈ children, IsContent child := by
        have hnames : "choice" ≠ "element" ∧ "choice" ≠ "text" := by decide
        exact h.forall_children hnames
      have hsum := sum_sequenceLanguage_branches children hchildren
      rw [sequenceLanguage_of_blockLanguages (blockLanguages_choice rfl),
        branches_choice rfl, hasGap]
      show alternation (languages children) = _
      rw [languages_of_content hchildren]
      cases children with
      | nil => simp [alternation, branchesAll, gapLanguage]
      | cons child rest => simpa [alternation] using hsum
    · rw [branches_other hname, hasGap]
      simp [hname, gapLanguage]

theorem sum_sequenceLanguage_branches : ∀ trees : List Tree, (∀ tree ∈ trees, IsContent tree) →
    (trees.map fun tree => sequenceLanguage [tree]).sum =
      ((branchesAll trees).map fun branch => sequenceLanguage [branch]).sum +
        gapLanguage (anyHasGap trees)
  | [], _ => by simp [branchesAll, anyHasGap, gapLanguage]
  | tree :: rest, h => by
    obtain ⟨htree, hrest⟩ := List.forall_mem_cons.mp h
    rw [List.map_cons, List.sum_cons, sequenceLanguage_branches tree htree,
      sum_sequenceLanguage_branches rest hrest, branchesAll, List.map_append, List.sum_append,
      anyHasGap, gapLanguage_or, add_add_add_comm]

end

/-! ### Normal forms of content -/

/-- Content, or nothing. -/
def IsLeft (trees : List Tree) : Prop := trees = [] ∨ ∃ tree, trees = [tree] ∧ IsContent tree

theorem forall_content_of_isLeft {trees : List Tree}
    (h : ∀ tree ∈ trees, IsLeft (normalise [tree])) :
    ∀ normal ∈ normalise trees, IsContent normal := by
  rw [normalise_eq_flatMap]
  intro normal hnormal
  obtain ⟨tree, htree, hnormal⟩ := List.mem_flatMap.mp hnormal
  rcases h tree htree with hnil | ⟨only, honly, hcontent⟩
  · simp [hnil] at hnormal
  · rw [honly, List.mem_singleton] at hnormal
    exact hnormal ▸ hcontent

/-- The normal form of content is content, and at most one node for each. -/
theorem IsContent.isLeft {tree : Tree} (h : IsContent tree) : IsLeft (normalise [tree]) := by
  revert h
  refine branches_induction (P := fun tree => IsContent tree → IsLeft (normalise [tree]))
    (fun tree hother ih h => ?_) (fun tree hname ih h => ?_) tree
  · cases h with
    | element hname hattribute =>
      have hrepetition : isRepetition tree.name = false := by rw [hname]; rfl
      exact Or.inr ⟨_, normalise_kept hother hrepetition, .element hname hattribute⟩
    | text hname =>
      have hrepetition : isRepetition tree.name = false := by rw [hname]; rfl
      exact Or.inr ⟨_, normalise_kept hother hrepetition, .text hname⟩
    | composite hcomposite hchildren =>
      have hnormal : ∀ normal ∈ normalise tree.children, IsContent normal :=
        forall_content_of_isLeft fun child hchild => ih child hchild (hchildren child hchild)
      rcases hcomposite with hname | hname | hrepetition
      · have hkept : isRepetition tree.name = false := by rw [hname]; rfl
        exact Or.inr ⟨_, normalise_kept hother hkept, .composite (Or.inl hname) hnormal⟩
      · exact absurd hname hother
      · by_cases hbare : isSkippable tree.name = true ∧ isBareText tree.children = true
        · obtain ⟨text, htext, hname⟩ := normalise_text hbare.1 hbare.2
          exact Or.inr ⟨text, htext, .text hname⟩
        · have hkept := normalise_repetition hrepetition fun hskippable =>
            Bool.eq_false_iff.mpr fun htext => hbare ⟨hskippable, htext⟩
          rw [hkept]
          split
          · exact Or.inl rfl
          · exact Or.inr ⟨_, rfl, .composite (Or.inr (Or.inr hrepetition)) hnormal⟩
  · -- A choice of a single branch becomes what that becomes.
    by_cases hlength : (branches tree).length = 1
    · obtain ⟨branch, hbranches⟩ := List.length_eq_one_iff.mp hlength
      have hbranch : branch ∈ branches tree := hbranches ▸ List.mem_singleton_self branch
      rw [normalise_of_single hname hbranches]
      exact ih branch hbranch (h.forall_branches branch hbranch)
    · have hnormal : ∀ normal ∈ normalise (branches tree), IsContent normal :=
        forall_content_of_isLeft fun branch hbranch =>
          ih branch hbranch (h.forall_branches branch hbranch)
      exact Or.inr ⟨_, normalise_choice hname hlength, .composite (Or.inr (Or.inl rfl)) hnormal⟩

theorem forall_content_normalise {trees : List Tree} (h : ∀ tree ∈ trees, IsContent tree) :
    ∀ normal ∈ normalise trees, IsContent normal :=
  forall_content_of_isLeft fun tree htree => (h tree htree).isLeft

/-- What is left of the branches is left of the node. -/
theorem forall_content_branches {tree : Tree} (h : ∀ normal ∈ normalise [tree], IsContent normal) :
    ∀ branch ∈ branches tree, ∀ normal ∈ normalise [branch], IsContent normal := by
  by_cases hname : tree.name = "choice"
  · by_cases hlength : (branches tree).length = 1
    · obtain ⟨branch, hbranches⟩ := List.length_eq_one_iff.mp hlength
      rw [hbranches, List.forall_mem_singleton, ← normalise_of_single hname hbranches]
      exact h
    · rw [normalise_choice hname hlength, List.forall_mem_singleton] at h
      have hnames : "choice" ≠ "element" ∧ "choice" ≠ "text" := by decide
      have hnormal : ∀ normal ∈ normalise (branches tree), IsContent normal :=
        h.forall_children hnames
      intro branch hbranch normal hmem
      refine hnormal normal ?_
      rw [normalise_eq_flatMap]
      exact List.mem_flatMap.mpr ⟨branch, hbranch, hmem⟩
  · rw [branches_other hname]
    exact List.forall_mem_singleton.mpr h

mutual

theorem isContent_of_branches : ∀ tree : Tree,
    (∀ branch ∈ branches tree, ∀ normal ∈ normalise [branch], IsContent normal) → IsContent tree
  | ⟨name, attributes, children⟩, h => by
    by_cases hname : name = "choice"
    · subst hname
      rw [branches_choice rfl] at h
      exact .composite (Or.inr (Or.inl rfl)) (isContent_of_branchesAll children h)
    · rw [branches_other hname, List.forall_mem_singleton] at h
      have hchildren : (∀ normal ∈ normalise children, IsContent normal) →
          ∀ child ∈ children, IsContent child := by
        refine fun hnormal => isContent_of_branchesAll children fun branch hbranch => ?_
        rw [branchesAll_eq_flatMap, List.mem_flatMap] at hbranch
        obtain ⟨child, hchild, hbranch⟩ := hbranch
        refine forall_content_branches (fun normal hmem => hnormal normal ?_) branch hbranch
        rw [normalise_eq_flatMap]
        exact List.mem_flatMap.mpr ⟨child, hchild, hmem⟩
      by_cases hrepetition : isRepetition name = true
      · refine .composite (Or.inr (Or.inr hrepetition)) (hchildren ?_)
        by_cases hbare : isSkippable name = true ∧ isBareText children = true
        · have hunwrapped := @normalise_unwrapped ⟨name, attributes, children⟩ hbare.1 hbare.2
          rwa [hunwrapped] at h
        · have hkept := @normalise_repetition ⟨name, attributes, children⟩ hrepetition
            fun hskippable => Bool.eq_false_iff.mpr fun htext => hbare ⟨hskippable, htext⟩
          rw [hkept] at h
          split at h
          · rename_i hnil
            rw [List.isEmpty_iff.mp hnil]
            exact fun normal hnormal => absurd hnormal List.not_mem_nil
          · exact (List.forall_mem_singleton.mp h).forall_children (ne_of_isRepetition hrepetition)
      · have hkept :=
          @normalise_kept ⟨name, attributes, children⟩ hname (Bool.eq_false_iff.mpr hrepetition)
        rw [hkept, List.forall_mem_singleton] at h
        cases h with
        | element hname hattribute => exact .element hname hattribute
        | text hname => exact .text hname
        | composite hcomposite hnormal => exact .composite hcomposite (hchildren hnormal)

theorem isContent_of_branchesAll : ∀ trees : List Tree,
    (∀ branch ∈ branchesAll trees, ∀ normal ∈ normalise [branch], IsContent normal) →
      ∀ tree ∈ trees, IsContent tree
  | [], _ => fun _ htree => absurd htree List.not_mem_nil
  | tree :: rest, h => by
    obtain ⟨htree, hrest⟩ := List.forall_mem_append.mp h
    exact List.forall_mem_cons.mpr ⟨isContent_of_branches tree htree,
      isContent_of_branchesAll rest hrest⟩

end

/-- **The normal form is content exactly if it is one of content.** -/
theorem forall_content_normalise_iff {trees : List Tree} :
    (∀ normal ∈ normalise trees, IsContent normal) ↔ ∀ tree ∈ trees, IsContent tree := by
  refine ⟨fun h tree htree =>
    isContent_of_branches tree (forall_content_branches fun normal hnormal => ?_),
    forall_content_normalise⟩
  refine h normal ?_
  rw [normalise_eq_flatMap]
  exact List.mem_flatMap.mpr ⟨tree, htree, hnormal⟩

/-- The words of the normal form of some blocks. -/
def normalLanguage (trees : List Tree) : Language String := sequenceLanguage (normalise trees)

theorem normalLanguage_cons (tree : Tree) (rest : List Tree) :
    normalLanguage (tree :: rest) = normalLanguage [tree] * normalLanguage rest := by
  rw [normalLanguage, normalise_cons, sequenceLanguage_append]
  rfl

theorem normalLanguage_of_nil {trees : List Tree} (h : normalise trees = []) :
    normalLanguage trees = 1 := by
  rw [normalLanguage, h, sequenceLanguage_nil]

theorem normalLanguage_leaf {tree : Tree} (h : tree.name = "element" ∨ tree.name = "text") :
    normalLanguage [tree] = sequenceLanguage [tree] := by
  have hchoice : tree.name ≠ "choice" := by rcases h with h | h <;> rw [h] <;> decide
  have hrepetition : isRepetition tree.name = false := by rcases h with h | h <;> rw [h] <;> rfl
  rw [normalLanguage, normalise_kept hchoice hrepetition]
  obtain ⟨_, attributes, children⟩ := tree
  obtain rfl | rfl := h <;> rfl

theorem normalLanguage_group {tree : Tree} (h : tree.name = "group") :
    normalLanguage [tree] = normalLanguage tree.children := by
  have hchoice : tree.name ≠ "choice" := by rw [h]; decide
  have hrepetition : isRepetition tree.name = false := by rw [h]; rfl
  rw [normalLanguage, normalise_kept hchoice hrepetition]
  exact sequenceLanguage_of_blockLanguages (blockLanguages_group h)

theorem normalLanguage_text {tree : Tree} (hskippable : isSkippable tree.name = true)
    (hbare : isBareText tree.children = true) : normalLanguage [tree] = {[textToken]} := by
  obtain ⟨text, htext, hname⟩ := normalise_text hskippable hbare
  rw [normalLanguage, htext]
  exact sequenceLanguage_of_blockLanguages (blockLanguages_text hname)

/-- A repetition of nothing stands for nothing, so it does not matter whether it is left out. -/
theorem normalLanguage_repetition {tree : Tree} (hrepetition : isRepetition tree.name = true)
    (hbare : isSkippable tree.name = true → isBareText tree.children = false) :
    normalLanguage [tree] = repetitionLanguage tree.name (normalLanguage tree.children) := by
  rw [normalLanguage, normalise_repetition hrepetition hbare]
  split
  · rename_i hnil
    rw [normalLanguage_of_nil (List.isEmpty_iff.mp hnil), repetitionLanguage_one]
    rfl
  · exact sequenceLanguage_of_blockLanguages (blockLanguages_repetition hrepetition)

/-- What is left of a branch in a choice: nothing at all, if nothing is left of it. -/
def leftLanguage (branch : Tree) : Language String := (languages (normalise [branch])).sum

theorem leftLanguage_of_nil {branch : Tree} (h : normalise [branch] = []) :
    leftLanguage branch = 0 := by
  rw [leftLanguage, h]
  rfl

theorem IsContent.leftLanguage_eq {branch : Tree} (h : IsContent branch)
    (hleft : normalise [branch] ≠ []) : leftLanguage branch = normalLanguage [branch] := by
  rcases h.isLeft with hnil | ⟨normal, hnormal, hcontent⟩
  · exact absurd hnil hleft
  · obtain ⟨language, hlanguage⟩ := hcontent.exists_blockLanguages
    rw [leftLanguage, normalLanguage, hnormal, sequenceLanguage_of_blockLanguages hlanguage,
      languages_singleton, hlanguage, List.sum_singleton]

theorem sum_languages_normalise (trees : List Tree) :
    (languages (normalise trees)).sum = (trees.map leftLanguage).sum := by
  induction trees with
  | nil => rfl
  | cons tree rest ih =>
    rw [normalise_cons, languages_append, List.sum_append, ih, List.map_cons, List.sum_cons]
    rfl

/-- A choice stands for what is left of its branches, and for nothing if nothing is left of any. -/
theorem normalLanguage_choice {tree : Tree} (h : IsContent tree) (hname : tree.name = "choice") :
    normalLanguage [tree] = if normalise (branches tree) = [] then 1
      else ((branches tree).map leftLanguage).sum := by
  by_cases hlength : (branches tree).length = 1
  · obtain ⟨branch, hbranches⟩ := List.length_eq_one_iff.mp hlength
    have hbranch : branch ∈ branches tree := hbranches ▸ List.mem_singleton_self branch
    have hsingle : normalLanguage [tree] = normalLanguage [branch] := by
      rw [normalLanguage, normalise_of_single hname hbranches]
      rfl
    rw [hsingle, hbranches, List.map_singleton, List.sum_singleton]
    split
    · rename_i hnil
      exact normalLanguage_of_nil hnil
    · rename_i hleft
      exact ((h.forall_branches branch hbranch).leftLanguage_eq hleft).symm
  · have hlanguage : normalLanguage [tree] =
        alternation (languages (normalise (branches tree))) := by
      rw [normalLanguage, normalise_choice hname hlength]
      exact sequenceLanguage_of_blockLanguages (blockLanguages_choice rfl)
    have hempty : (languages (normalise (branches tree))).isEmpty =
        (normalise (branches tree)).isEmpty := by
      rw [languages_of_content (forall_content_normalise h.forall_branches), List.isEmpty_map]
    rw [hlanguage, alternation, hempty, sum_languages_normalise]
    simp only [List.isEmpty_iff]

/-- Content of which nothing is left stands for nothing. -/
theorem IsContent.sequenceLanguage_eq_one {tree : Tree} (h : IsContent tree)
    (hnil : normalise [tree] = []) : sequenceLanguage [tree] = 1 := by
  revert h hnil
  refine branches_induction (P := fun tree => IsContent tree → normalise [tree] = [] →
    sequenceLanguage [tree] = 1) (fun tree hother ih h hnil => ?_)
      (fun tree hname ih h hnil => ?_) tree
  · have hrepetition : isRepetition tree.name = true := by
      by_contra hkept
      rw [normalise_kept hother (Bool.eq_false_iff.mpr hkept)] at hnil
      simp at hnil
    have hbare : isSkippable tree.name = true → isBareText tree.children = false := by
      intro hskippable
      by_contra htext
      obtain ⟨text, htext, -⟩ := normalise_text hskippable (Bool.not_eq_false _ ▸ htext)
      simp [htext] at hnil
    have hchildren := h.forall_children (ne_of_isRepetition hrepetition)
    have hempty : normalise tree.children = [] := by
      rw [normalise_repetition hrepetition hbare] at hnil
      by_contra hsome
      rw [if_neg (by simpa using hsome)] at hnil
      simp at hnil
    have hone : sequenceLanguage tree.children = 1 := by
      have heach : ∀ child ∈ tree.children, sequenceLanguage [child] = 1 := fun child hchild =>
        ih child hchild (hchildren child hchild) (normalise_eq_nil_iff.mp hempty child hchild)
      rw [sequenceLanguage, languages_of_content hchildren]
      exact List.prod_eq_one (List.forall_mem_map.mpr heach)
    rw [sequenceLanguage_of_blockLanguages (blockLanguages_repetition hrepetition), hone,
      repetitionLanguage_one]
  · -- A choice is only left out if it has a single branch, of which nothing is left.
    have hlength : (branches tree).length = 1 := by
      by_contra hlength
      rw [normalise_choice hname hlength] at hnil
      simp at hnil
    obtain ⟨branch, hbranches⟩ := List.length_eq_one_iff.mp hlength
    have hbranch : branch ∈ branches tree := hbranches ▸ List.mem_singleton_self branch
    rw [normalise_of_single hname hbranches] at hnil
    have hone := ih branch hbranch (h.forall_branches branch hbranch) hnil
    rw [sequenceLanguage_branches tree h, hbranches, List.map_singleton, List.sum_singleton, hone]
    cases hasGap tree <;> simp [gapLanguage]

/-- A text alone stands for itself, and for nothing if there is a gap. -/
theorem sequenceLanguage_of_isBareText {trees : List Tree} (h : ∀ tree ∈ trees, IsContent tree)
    (hbare : isBareText trees = true) :
    ∃ gap, sequenceLanguage trees = {[textToken]} + gapLanguage gap := by
  unfold isBareText at hbare
  split at hbare
  · rename_i tree
    obtain ⟨text, hbranches, hname⟩ := List.map_eq_singleton_iff.mp (of_decide_eq_true hbare)
    refine ⟨hasGap tree, ?_⟩
    rw [sequenceLanguage_branches tree (h tree (List.mem_singleton_self tree)), hbranches,
      List.map_singleton, List.sum_singleton,
      sequenceLanguage_of_blockLanguages (blockLanguages_text hname)]
  · simp at hbare

/-! ### No words are added -/

theorem gapLanguage_le_one (gap : Bool) : gapLanguage gap ≤ 1 := by
  cases gap <;> simp [gapLanguage]

theorem hasGap_of_branches_eq_nil : ∀ tree : Tree, branches tree = [] → hasGap tree = true
  | ⟨name, attributes, children⟩, h => by
    by_cases hname : name = "choice"
    · rw [branches, if_pos hname] at h
      rw [hasGap]
      cases children with
      | nil => simp [hname]
      | cons child rest =>
        rw [branchesAll, List.append_eq_nil_iff] at h
        simp [hname, anyHasGap, hasGap_of_branches_eq_nil child h.1]
    · rw [branches, if_neg hname] at h
      simp at h

/-- A choice of which nothing is left allows nothing. -/
theorem IsContent.one_le_of_branches {tree : Tree} (h : IsContent tree)
    (hnil : normalise (branches tree) = []) : 1 ≤ sequenceLanguage [tree] := by
  rw [sequenceLanguage_branches tree h]
  cases hbranches : branches tree with
  | nil =>
    rw [hasGap_of_branches_eq_nil tree hbranches]
    exact le_add_left (le_refl _)
  | cons branch rest =>
    have hbranch : branch ∈ branches tree := hbranches ▸ List.mem_cons_self
    have hone := (h.forall_branches branch hbranch).sequenceLanguage_eq_one
      (normalise_eq_nil_iff.mp hnil branch hbranch)
    rw [List.map_cons, List.sum_cons, hone]
    exact le_add_right (le_add_right (le_refl _))

theorem leftLanguage_le {branch : Tree} (h : IsContent branch)
    (hle : normalLanguage [branch] ≤ sequenceLanguage [branch]) :
    leftLanguage branch ≤ sequenceLanguage [branch] := by
  by_cases hleft : normalise [branch] = []
  · rw [leftLanguage_of_nil hleft]
    exact bot_le
  · rw [h.leftLanguage_eq hleft]
    exact hle

theorem normal_le_of_forall {trees : List Tree}
    (h : ∀ tree ∈ trees, normalLanguage [tree] ≤ sequenceLanguage [tree]) :
    normalLanguage trees ≤ sequenceLanguage trees := by
  induction trees with
  | nil => exact le_refl _
  | cons tree rest ih =>
    obtain ⟨htree, hrest⟩ := List.forall_mem_cons.mp h
    rw [normalLanguage_cons, sequenceLanguage_cons]
    exact mul_le_mul' htree (ih hrest)

/-- **The normal form has no other words.** -/
theorem IsContent.normal_le {tree : Tree} (h : IsContent tree) :
    normalLanguage [tree] ≤ sequenceLanguage [tree] := by
  revert h
  refine branches_induction (P := fun tree => IsContent tree →
    normalLanguage [tree] ≤ sequenceLanguage [tree])
    (fun tree hother ih h => ?_) (fun tree hname ih h => ?_) tree
  · cases h with
    | element hname => rw [normalLanguage_leaf (Or.inl hname)]
    | text hname => rw [normalLanguage_leaf (Or.inr hname)]
    | composite hcomposite hchildren =>
      have hle : normalLanguage tree.children ≤ sequenceLanguage tree.children :=
        normal_le_of_forall fun child hchild => ih child hchild (hchildren child hchild)
      rcases hcomposite with hname | hname | hrepetition
      · rw [normalLanguage_group hname,
          sequenceLanguage_of_blockLanguages (blockLanguages_group hname)]
        exact hle
      · exact absurd hname hother
      · rw [sequenceLanguage_of_blockLanguages (blockLanguages_repetition hrepetition)]
        by_cases hbare : isSkippable tree.name = true ∧ isBareText tree.children = true
        · obtain ⟨gap, hgap⟩ := sequenceLanguage_of_isBareText hchildren hbare.2
          rw [normalLanguage_text hbare.1 hbare.2, hgap]
          exact (le_add_right (le_refl _)).trans (le_repetitionLanguage _)
        · have hkept : isSkippable tree.name = true → isBareText tree.children = false :=
            fun hskippable => Bool.eq_false_iff.mpr fun htext => hbare ⟨hskippable, htext⟩
          rw [normalLanguage_repetition hrepetition hkept]
          exact repetitionLanguage_mono _ hle
  · rw [normalLanguage_choice h hname]
    split
    · rename_i hnil
      exact h.one_le_of_branches hnil
    · rw [sequenceLanguage_branches tree h]
      refine le_add_right (List.sum_le_sum fun branch hbranch => ?_)
      have hbranch' := h.forall_branches branch hbranch
      exact leftLanguage_le hbranch' (ih branch hbranch hbranch')

/-! ### Content models -/

theorem exists_blockModels {trees : List Tree}
    (h : ∀ tree ∈ trees, ∃ models, blockModel tree = .ok models) :
    ∃ models, blockModels trees = .ok models := by
  induction trees with
  | nil => exact ⟨[], rfl⟩
  | cons tree rest ih =>
    obtain ⟨htree, hrest⟩ := List.forall_mem_cons.mp h
    obtain ⟨first, hfirst⟩ := htree
    obtain ⟨others, hothers⟩ := ih hrest
    exact ⟨first ++ others,
      bind_eq_ok_iff.mpr ⟨first, hfirst, bind_eq_ok_iff.mpr ⟨others, hothers, rfl⟩⟩⟩

theorem IsContent.exists_blockModel {tree : Tree} (h : IsContent tree) :
    ∃ models, blockModel tree = .ok models := by
  induction h with
  | @element tree name hname hattribute =>
    obtain ⟨_, attributes, children⟩ := tree
    obtain rfl := hname
    have hfound : attributes.find? "name" = some name := hattribute
    exact ⟨[.token name], by rw [blockModel, hfound]⟩
  | @text tree hname =>
    obtain ⟨_, attributes, children⟩ := tree
    obtain rfl := hname
    exact ⟨[.token textToken], by rw [blockModel]⟩
  | @composite tree hcomposite _ ih =>
    obtain ⟨models, hmodels⟩ := exists_blockModels ih
    obtain ⟨name, attributes, children⟩ := tree
    have hchildren : blockModels children = .ok models := hmodels
    rcases isComposite_iff.mp hcomposite with rfl | rfl | rfl | rfl | rfl <;>
      rw [blockModel, hchildren] <;> exact ⟨_, rfl⟩

theorem IsContent.exists_contentModel {trees : List Tree} (h : ∀ tree ∈ trees, IsContent tree) :
    ∃ model, contentModel trees = .ok model := by
  obtain ⟨models, hmodels⟩ := exists_blockModels fun tree htree => (h tree htree).exists_blockModel
  exact ⟨sideBySide models, map_eq_ok_iff.mpr ⟨models, hmodels, rfl⟩⟩

theorem IsContent.interleaves_eq {tree : Tree} (h : IsContent tree) : interleaves tree = [] := by
  induction h with
  | @element tree name hname _ =>
    obtain ⟨_, attributes, children⟩ := tree
    obtain rfl := hname
    rfl
  | text hname => exact interleaves_text hname
  | @composite tree hcomposite _ ih =>
    have hchildren : interleavesAll tree.children = [] := by
      rw [interleavesAll_eq_flatMap, List.flatMap_eq_nil_iff]
      exact ih
    obtain ⟨name, attributes, children⟩ := tree
    rcases isComposite_iff.mp hcomposite with rfl | rfl | rfl | rfl | rfl <;> exact hchildren

theorem interleavesAll_of_content {trees : List Tree} (h : ∀ tree ∈ trees, IsContent tree) :
    interleavesAll trees = [] := by
  rw [interleavesAll_eq_flatMap, List.flatMap_eq_nil_iff]
  exact fun tree htree => (h tree htree).interleaves_eq

/-- The names of the nodes that are no block. -/
def blankNames : List String := ["attribute", "empty", "notAllowed"]

mutual

/-- What has a model without interleaves, and no nodes in it that are no block, is content. -/
theorem isContent_of_blockModel : ∀ (tree : Tree) {models : List Model},
    (∀ node ∈ tree.preorder, node.name ∉ blankNames) → blockModel tree = .ok models →
      interleaves tree = [] → IsContent tree
  | ⟨name, attributes, children⟩, models, hnames, hmodel, hnone => by
    obtain ⟨hname, hbelow⟩ := List.forall_mem_cons.mp (hnames :)
    unfold blockModel at hmodel
    split at hmodel
    · simp [blankNames] at hname
    · simp [blankNames] at hname
    · simp [blankNames] at hname
    · split at hmodel
      · cases hmodel
      · rename_i element hattribute
        exact .element rfl hattribute
    · exact .text rfl
    all_goals first
      | obtain ⟨blocks, hblocks, -⟩ := map_eq_ok_iff.mp hmodel
        refine .composite (isComposite_iff.mpr ?_)
          (isContent_of_blockModels children hbelow hblocks hnone)
        simp
      | cases hnone
      | cases hmodel

theorem isContent_of_blockModels : ∀ (trees : List Tree) {models : List Model},
    (∀ node ∈ preorderAll trees, node.name ∉ blankNames) → blockModels trees = .ok models →
      interleavesAll trees = [] → ∀ tree ∈ trees, IsContent tree
  | [], _, _, _, _ => fun _ htree => absurd htree List.not_mem_nil
  | tree :: rest, models, hnames, hmodels, hnone => by
    obtain ⟨hfirst, hrest⟩ := List.forall_mem_append.mp (hnames :)
    obtain ⟨first, hmodel, hmodels⟩ := bind_eq_ok_iff.mp hmodels
    obtain ⟨others, hothers, -⟩ := bind_eq_ok_iff.mp hmodels
    obtain ⟨hnoneFirst, hnoneRest⟩ := List.append_eq_nil_iff.mp (hnone :)
    exact List.forall_mem_cons.mpr ⟨isContent_of_blockModel tree hfirst hmodel hnoneFirst,
      isContent_of_blockModels rest hrest hothers hnoneRest⟩

end

end RelaxSchema.NormalForm
