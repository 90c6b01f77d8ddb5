import RelaxSchema.Proofs.Grammar.Content

/-!
# What the normal form keeps

The normal form of content is taken to be content with the same words. Two of its passes are right
only in some places: a text that loses its wrapper can no longer be absent, or be repeated, and
where nothing is left of one alternative of a choice the choice no longer allows nothing.

* `NormalForm.contentModel_normalise`: no words are added, and none are lost if content is
  `Lossless`, which says where the two passes do no harm.

A `Place` says what the surroundings of a block allow anyway, as a closure on languages, and blocks
are compared up to this closure (`Same`): what is lost in a place is allowed there. Each kind of
node passes a place on to its children, so the comparison is an induction over `Lossless`.
-/

namespace RelaxSchema.NormalForm

open Computability RelaxSchema.Tree

/-! ### Places -/

/-- What the surroundings of a block allow in its place. -/
inductive Place where
  /-- Only the block. -/
  | exact
  /-- The block, or nothing. -/
  | optional
  /-- The block any number of times. -/
  | repeated
  deriving DecidableEq

/-- What is allowed in a place where a block stands. -/
def Place.close : Place → Language String → Language String
  | exact, language => language
  | optional, language => language + 1
  | repeated, language => language∗

/-- The place of what stands in a repetition, by the name of its node. -/
def Place.inside : Place → String → Place
  | repeated, _ => repeated
  | exact, name => if name = "optional" then optional else if name = "zeroOrMore"
      then repeated else exact
  | optional, name => if name = "optional" then optional else repeated

/-- `Lossless place trees` says that the blocks lose nothing in their normal form that is not
allowed in their place anyway. -/
inductive Lossless : Place → List Tree → Prop
  /-- No block. -/
  | nil {place : Place} : Lossless place []
  /-- Blocks side by side; none may rely on the surroundings of the others. -/
  | sequence {place : Place} {first : Tree} {rest : List Tree} : Lossless .exact [first] →
      Lossless .exact rest → Lossless place (first :: rest)
  /-- Nothing is left of the first block. -/
  | skipFirst {place : Place} {first : Tree} {rest : List Tree} : normalise [first] = [] →
      Lossless place rest → Lossless place (first :: rest)
  /-- Nothing is left of the other blocks. -/
  | skipRest {place : Place} {first : Tree} {rest : List Tree} : normalise rest = [] →
      Lossless place [first] → Lossless place (first :: rest)
  /-- An element or a text. -/
  | leaf {place : Place} {tree : Tree} : tree.name = "element" ∨ tree.name = "text" →
      Lossless place [tree]
  /-- A group. -/
  | group {place : Place} {tree : Tree} : tree.name = "group" → Lossless place tree.children →
      Lossless place [tree]
  /-- A choice. It may lose an alternative only together with all others, or where nothing may
  stand. -/
  | choice {place : Place} {tree : Tree} : tree.name = "choice" →
      (∀ branch ∈ branches tree, Lossless place [branch]) →
      (place ≠ .exact ∨ (hasGap tree = false ∧ ∀ branch ∈ branches tree, normalise [branch] ≠ []) ∨
        ∀ branch ∈ branches tree, normalise [branch] = []) →
      Lossless place [tree]
  /-- A text that is optional, where nothing may stand anyway. -/
  | optionalText {place : Place} {tree : Tree} : tree.name = "optional" →
      isBareText tree.children = true → place ≠ .exact → Lossless place [tree]
  /-- A text that is repeated, in something else that is repeated. -/
  | repeatedText {tree : Tree} : tree.name = "zeroOrMore" → isBareText tree.children = true →
      Lossless .repeated [tree]
  /-- A repetition that is kept as it is. -/
  | repetition {place : Place} {tree : Tree} : isRepetition tree.name = true →
      (isSkippable tree.name = true → isBareText tree.children = false) →
      Lossless (place.inside tree.name) tree.children → Lossless place [tree]
  /-- Blocks whose normal form may be nothing. -/
  | nullable {trees : List Tree} {normal : Model} : contentModel (normalise trees) = .ok normal →
      [] ∈ normal.language → Lossless .optional trees → Lossless .exact trees

section Places

variable {place : Place} {language other : Language String}

theorem Place.le_close (place : Place) (language : Language String) :
    language ≤ place.close language := by
  cases place with
  | exact => exact le_refl _
  | optional => exact le_add_right (le_refl _)
  | repeated => exact le_kstar

theorem Place.close_mono (h : language ≤ other) : place.close language ≤ place.close other := by
  cases place with
  | exact => exact h
  | optional => exact add_le_add_left h 1
  | repeated => exact kstar_mono h

theorem Place.close_le (h : language ≤ place.close other) :
    place.close language ≤ place.close other := by
  cases place with
  | exact => exact h
  | optional => exact add_le h (le_add_left (le_refl _))
  | repeated =>
    have hstar := kstar_mono h
    rwa [Place.close, kstar_idem] at hstar

theorem Place.one_le_close (h : place ≠ .exact) (language : Language String) :
    1 ≤ place.close language := by
  cases place with
  | exact => exact absurd rfl h
  | optional => exact le_add_left (le_refl _)
  | repeated => exact one_le_kstar

/-- Languages that are the same as far as a place is concerned. -/
def Same (place : Place) (first second : Language String) : Prop :=
  first ≤ place.close second ∧ second ≤ place.close first

theorem Same.refl (place : Place) (language : Language String) : Same place language language :=
  ⟨place.le_close language, place.le_close language⟩

theorem Same.symm (h : Same place language other) : Same place other language := ⟨h.2, h.1⟩

theorem Same.trans {third : Language String} (h : Same place language other)
    (h' : Same place other third) : Same place language third :=
  ⟨h.1.trans (Place.close_le h'.1), h'.2.trans (Place.close_le h.2)⟩

theorem Same.eq (h : Same .exact language other) : language = other := le_antisymm h.1 h.2

theorem Same.add {language' other' : Language String} (h : Same place language other)
    (h' : Same place language' other') : Same place (language + language') (other + other') := by
  have hadd : ∀ {a b c d : Language String}, a ≤ place.close c → b ≤ place.close d →
      a + b ≤ place.close (c + d) := fun hac hbd =>
    add_le (hac.trans (Place.close_mono (le_add_right (le_refl _))))
      (hbd.trans (Place.close_mono (le_add_left (le_refl _))))
  exact ⟨hadd h.1 h'.1, hadd h.2 h'.2⟩

/-- Where nothing may stand anyway, the empty word does not matter. -/
theorem Same.add_one (hplace : place ≠ .exact) (language : Language String) :
    Same place language (language + 1) :=
  ⟨(place.le_close language).trans (Place.close_mono (le_add_right (le_refl _))),
    add_le (place.le_close language) (Place.one_le_close hplace language)⟩

/-- What is repeated does not exceed what may be repeated anyway. -/
theorem mul_kstar_le_of_le_kstar (h : language ≤ other∗) : language * language∗ ≤ other∗ := by
  calc language * language∗ ≤ other∗ * other∗∗ := mul_le_mul' h (kstar_mono h)
    _ = other∗ := by rw [kstar_idem, kstar_mul_kstar]

theorem optional_le (h : language ≤ (place.inside "optional").close other) :
    language + 1 ≤ place.close (other + 1) := by
  have hone : 1 ≤ place.close (other + 1) :=
    (le_add_left (le_refl _)).trans (place.le_close (other + 1))
  refine add_le ?_ hone
  cases place with
  | exact => exact h
  | optional => exact h.trans (le_add_right (le_refl _))
  | repeated => exact h.trans (kstar_mono (le_add_right (le_refl _)))

theorem zeroOrMore_le (h : language ≤ (place.inside "zeroOrMore").close other) :
    language∗ ≤ place.close other∗ := by
  have hstar : language ≤ other∗ := by
    cases place <;> exact h
  have hle : language∗ ≤ other∗ := by
    have hmono := kstar_mono hstar
    rwa [kstar_idem] at hmono
  exact hle.trans (place.le_close other∗)

theorem oneOrMore_le (h : language ≤ (place.inside "oneOrMore").close other) :
    language * language∗ ≤ place.close (other * other∗) := by
  cases place with
  | exact => exact mul_le_mul' h (kstar_mono h)
  | optional =>
    have hstar : language ≤ other∗ := h
    show language * language∗ ≤ other * other∗ + 1
    rw [add_comm, one_add_mul_kstar]
    exact mul_kstar_le_of_le_kstar hstar
  | repeated =>
    have hstar : language ≤ other∗ := h
    exact (mul_kstar_le_of_le_kstar hstar).trans (kstar_mono (le_mul_kstar other))

/-- A repetition is the same if what is repeated is so in its place. -/
theorem Same.repetition {name : String} (hname : isRepetition name = true)
    (h : Same (place.inside name) language other) :
    Same place (repetitionLanguage name language) (repetitionLanguage name other) := by
  rcases isRepetition_iff.mp hname with rfl | rfl | rfl
  · exact ⟨optional_le h.1, optional_le h.2⟩
  · exact ⟨zeroOrMore_le h.1, zeroOrMore_le h.2⟩
  · exact ⟨oneOrMore_le h.1, oneOrMore_le h.2⟩

end Places
/-! ### No words are lost -/

theorem sum_map_le_one {trees : List Tree} {f : Tree → Language String}
    (h : ∀ tree ∈ trees, f tree = 1) : (trees.map f).sum ≤ 1 := by
  induction trees with
  | nil => exact bot_le
  | cons tree rest ih =>
    obtain ⟨htree, hrest⟩ := List.forall_mem_cons.mp h
    exact add_le htree.le (ih hrest)

section Branches

variable {place : Place} {trees : List Tree}

/-- If something is left of each branch, the branches are the same as what is left of them. -/
theorem Same.sum_left (hcontent : ∀ tree ∈ trees, IsContent tree)
    (hleft : ∀ tree ∈ trees, normalise [tree] ≠ [])
    (h : ∀ tree ∈ trees, Same place (normalLanguage [tree]) (sequenceLanguage [tree])) :
    Same place (trees.map leftLanguage).sum
      (trees.map fun tree => sequenceLanguage [tree]).sum := by
  induction trees with
  | nil => exact .refl _ _
  | cons tree rest ih =>
    obtain ⟨htree, hrest⟩ := List.forall_mem_cons.mp h
    obtain ⟨hfirst, hothers⟩ := List.forall_mem_cons.mp hcontent
    obtain ⟨hleft, hlefts⟩ := List.forall_mem_cons.mp hleft
    rw [List.map_cons, List.sum_cons, List.map_cons, List.sum_cons, hfirst.leftLanguage_eq hleft]
    exact htree.add (ih hothers hlefts hrest)

/-- Together with nothing, the branches are the same as what is left of them in any case. -/
theorem Same.sum_left_add_one (hcontent : ∀ tree ∈ trees, IsContent tree)
    (h : ∀ tree ∈ trees, Same place (normalLanguage [tree]) (sequenceLanguage [tree])) :
    Same place ((trees.map leftLanguage).sum + 1)
      ((trees.map fun tree => sequenceLanguage [tree]).sum + 1) := by
  induction trees with
  | nil => exact .refl _ _
  | cons tree rest ih =>
    obtain ⟨htree, hrest⟩ := List.forall_mem_cons.mp h
    obtain ⟨hfirst, hothers⟩ := List.forall_mem_cons.mp hcontent
    have hsame := ih hothers hrest
    rw [List.map_cons, List.sum_cons, List.map_cons, List.sum_cons, add_assoc, add_assoc]
    by_cases hleft : normalise [tree] = []
    · -- The branch stood for nothing, which is there anyway.
      rw [leftLanguage_of_nil hleft, hfirst.sequenceLanguage_eq_one hleft, zero_add, add_left_comm,
        add_idem]
      exact hsame
    · rw [hfirst.leftLanguage_eq hleft]
      exact htree.add hsame

/-- A choice is the same as its normal form if it loses no alternative, or loses all of them, or
stands where nothing may stand anyway. -/
theorem Same.choice {tree : Tree} (hcontent : IsContent tree) (hname : tree.name = "choice")
    (h : ∀ branch ∈ branches tree, Same place (normalLanguage [branch]) (sequenceLanguage [branch]))
    (hloss : place ≠ .exact ∨
      (hasGap tree = false ∧ ∀ branch ∈ branches tree, normalise [branch] ≠ []) ∨
      ∀ branch ∈ branches tree, normalise [branch] = []) :
    Same place (normalLanguage [tree]) (sequenceLanguage [tree]) := by
  have hbranches := hcontent.forall_branches
  rw [normalLanguage_choice hcontent hname]
  split
  · rename_i hnil
    -- Nothing is left, and there was nothing else before.
    have hone : ∀ branch ∈ branches tree, sequenceLanguage [branch] = 1 := fun branch hbranch =>
      (hbranches branch hbranch).sequenceLanguage_eq_one
        (normalise_eq_nil_iff.mp hnil branch hbranch)
    have hle : sequenceLanguage [tree] ≤ 1 := by
      rw [sequenceLanguage_branches tree hcontent]
      exact add_le (sum_map_le_one hone) (gapLanguage_le_one _)
    rw [le_antisymm hle (hcontent.one_le_of_branches hnil)]
    exact .refl _ _
  · rename_i hsome
    rw [sequenceLanguage_branches tree hcontent]
    rcases hloss with hplace | ⟨hgap, hleft⟩ | hall
    · -- Nothing may stand here, so it does not matter which branches are left out.
      have hsum := (Same.add_one hplace _).trans (Same.sum_left_add_one hbranches h)
      cases hgap : hasGap tree with
      | false =>
        rw [gapLanguage, if_neg (by simp), add_zero]
        exact hsum.trans (Same.add_one hplace _).symm
      | true => exact hsum
    · rw [hgap, gapLanguage, if_neg (by simp), add_zero]
      exact Same.sum_left hbranches hleft h
    · exact absurd (normalise_eq_nil_iff.mpr hall) hsome

end Branches

/-- A text that loses its wrapper is the same where what it loses is allowed anyway. -/
theorem Same.text {place : Place} {name : String} {gap : Bool} (hplace : place ≠ .exact)
    (hname : name = "optional" ∨ (name = "zeroOrMore" ∧ place = .repeated)) :
    Same place {[textToken]}
      (repetitionLanguage name ({[textToken]} + gapLanguage gap)) := by
  refine ⟨?_, ?_⟩
  · exact ((le_add_right (le_refl _)).trans (le_repetitionLanguage name)).trans (place.le_close _)
  · have htext : ({[textToken]} : Language String) + gapLanguage gap ≤ place.close {[textToken]} :=
      add_le (place.le_close _) ((gapLanguage_le_one gap).trans (Place.one_le_close hplace _))
    rcases hname with rfl | ⟨rfl, rfl⟩
    · exact add_le htext (Place.one_le_close hplace _)
    · exact Place.close_le htext

theorem Same.textNode {place : Place} {tree : Tree} (hcontent : IsContent tree)
    (hbare : isBareText tree.children = true) (hplace : place ≠ .exact)
    (hname : tree.name = "optional" ∨ (tree.name = "zeroOrMore" ∧ place = .repeated)) :
    Same place (normalLanguage [tree]) (sequenceLanguage [tree]) := by
  have hskippable : isSkippable tree.name = true := by
    rcases hname with hname | ⟨hname, -⟩ <;> rw [hname] <;> rfl
  have hrepetition : isRepetition tree.name = true := by
    rw [isRepetition, hskippable, Bool.true_or]
  have hchildren := hcontent.forall_children (ne_of_isRepetition hrepetition)
  obtain ⟨gap, hgap⟩ := sequenceLanguage_of_isBareText hchildren hbare
  rw [normalLanguage_text hskippable hbare,
    sequenceLanguage_of_blockLanguages (blockLanguages_repetition hrepetition), hgap]
  exact Same.text hplace hname

/-- **Lossless content is the same as its normal form**, as far as its place is concerned. -/
theorem Lossless.same {place : Place} {trees : List Tree} (h : Lossless place trees)
    (hcontent : ∀ tree ∈ trees, IsContent tree) :
    Same place (normalLanguage trees) (sequenceLanguage trees) := by
  induction h with
  | nil => exact .refl _ _
  | @sequence place first rest _ _ ihfirst ihrest =>
    obtain ⟨hfirst, hrest⟩ := List.forall_mem_cons.mp hcontent
    rw [normalLanguage_cons, sequenceLanguage_cons,
      (ihfirst (List.forall_mem_singleton.mpr hfirst)).eq, (ihrest hrest).eq]
    exact .refl _ _
  | @skipFirst place first rest hnil _ ih =>
    obtain ⟨hfirst, hrest⟩ := List.forall_mem_cons.mp hcontent
    rw [normalLanguage_cons, sequenceLanguage_cons, normalLanguage_of_nil hnil,
      hfirst.sequenceLanguage_eq_one hnil, one_mul, one_mul]
    exact ih hrest
  | @skipRest place first rest hnil _ ih =>
    obtain ⟨hfirst, hrest⟩ := List.forall_mem_cons.mp hcontent
    have hone : sequenceLanguage rest = 1 := by
      rw [sequenceLanguage, languages_of_content hrest]
      exact List.prod_eq_one (List.forall_mem_map.mpr fun tree htree =>
        (hrest tree htree).sequenceLanguage_eq_one (normalise_eq_nil_iff.mp hnil tree htree))
    rw [normalLanguage_cons, sequenceLanguage_cons, normalLanguage_of_nil hnil, hone,
      mul_one, mul_one]
    exact ih (List.forall_mem_singleton.mpr hfirst)
  | leaf hname =>
    rw [normalLanguage_leaf hname]
    exact .refl _ _
  | @group place tree hname _ ih =>
    rw [normalLanguage_group hname, sequenceLanguage_of_blockLanguages (blockLanguages_group hname)]
    exact ih ((List.forall_mem_singleton.mp hcontent).forall_children (by rw [hname]; decide))
  | @choice place tree hname _ hloss ih =>
    have htree := List.forall_mem_singleton.mp hcontent
    exact Same.choice htree hname (fun branch hbranch => ih branch hbranch
      (List.forall_mem_singleton.mpr (htree.forall_branches branch hbranch))) hloss
  | @optionalText place tree hname hbare hplace =>
    exact Same.textNode (List.forall_mem_singleton.mp hcontent) hbare hplace (Or.inl hname)
  | @repeatedText tree hname hbare =>
    exact Same.textNode (List.forall_mem_singleton.mp hcontent) hbare (by decide)
      (Or.inr ⟨hname, rfl⟩)
  | @repetition place tree hrepetition hbare _ ih =>
    have htree := List.forall_mem_singleton.mp hcontent
    rw [normalLanguage_repetition hrepetition hbare,
      sequenceLanguage_of_blockLanguages (blockLanguages_repetition hrepetition)]
    exact (ih (htree.forall_children (ne_of_isRepetition hrepetition))).repetition hrepetition
  | @nullable trees normal hmodel hempty _ ih =>
    rw [language_of_contentModel hmodel] at hempty
    have hone : 1 ≤ normalLanguage trees := by
      rintro word rfl
      exact hempty
    refine ⟨normal_le_of_forall fun tree htree => (hcontent tree htree).normal_le, ?_⟩
    exact (ih hcontent).2.trans (add_le (le_refl _) hone)

/-! ### Content models -/

/-- **Normal forms keep the words of lossless content, and add none to any content.** Where content
holds text, whether it may be empty is left open. -/
theorem contentModel_normalise {blocks : List Tree} (h : ∀ block ∈ blocks, IsContent block) :
    ∃ model normal, contentModel blocks = .ok model ∧ contentModel (normalise blocks) = .ok normal ∧
      normal.language ≤ model.language ∧
      (Lossless (if blocks.any fun block => block.mentions "text" then .optional else .exact)
        blocks →
        ∀ word, (word = [] → ∀ block ∈ blocks, block.mentions "text" = false) →
          (word ∈ model.language ↔ word ∈ normal.language)) := by
  obtain ⟨model, hmodel⟩ := IsContent.exists_contentModel h
  obtain ⟨normal, hnormal⟩ := IsContent.exists_contentModel (forall_content_normalise h)
  refine ⟨model, normal, hmodel, hnormal, ?_, fun hlossless word hword => ?_⟩
  · rw [language_of_contentModel hmodel, language_of_contentModel hnormal]
    exact normal_le_of_forall fun tree htree => (h tree htree).normal_le
  · have hsame := hlossless.same h
    rw [language_of_contentModel hmodel, language_of_contentModel hnormal]
    cases htext : blocks.any fun block => block.mentions "text" with
    | false =>
      rw [htext, if_neg (by simp)] at hsame
      rw [← hsame.eq]
      rfl
    | true =>
      rw [htext, if_pos rfl] at hsame
      have hne : word ≠ [] := by
        intro hnil
        obtain ⟨block, hblock, hmentions⟩ := List.any_eq_true.mp htext
        exact absurd (hword hnil block hblock) (by rw [hmentions]; simp)
      constructor
      · intro hmem
        exact (hsame.2 hmem).resolve_right hne
      · intro hmem
        exact (hsame.1 hmem).resolve_right hne

/-- A repetition of text and elements, some of it in wrappers that the normal form leaves out. -/
theorem contentModel_normalise_mixed :
    let item : Tree := ⟨"element", .ofList [("name", "a")], []⟩
    let wrapped : Tree := .plain "choice" [.plain "optional" [.plain "text" []],
      .plain "choice" [item]]
    let blocks : List Tree := [.plain "zeroOrMore" [wrapped],
      .plain "optional" [.plain "oneOrMore" []]]
    ∃ model normal, contentModel blocks = .ok model ∧ contentModel (normalise blocks) = .ok normal ∧
      (["a", textToken] ∈ model.language ↔ ["a", textToken] ∈ normal.language) := by
  intro item wrapped blocks
  have hitem : IsContent item := .element rfl rfl
  have hchoice : IsContent (.plain "choice" [item]) :=
    .composite (Or.inr (Or.inl rfl)) (List.forall_mem_singleton.mpr hitem)
  have hoptional : IsContent (.plain "optional" [.plain "text" []]) :=
    .composite (Or.inr (Or.inr rfl)) (List.forall_mem_singleton.mpr (.text rfl))
  have hwrapped : IsContent wrapped := .composite (Or.inr (Or.inl rfl))
    (List.forall_mem_cons.mpr ⟨hoptional, List.forall_mem_singleton.mpr hchoice⟩)
  have hempty : IsContent (.plain "oneOrMore" []) :=
    .composite (Or.inr (Or.inr rfl)) fun child hchild => absurd hchild List.not_mem_nil
  have hcontent : ∀ block ∈ blocks, IsContent block := List.forall_mem_cons.mpr
    ⟨.composite (Or.inr (Or.inr rfl)) (List.forall_mem_singleton.mpr hwrapped),
      List.forall_mem_singleton.mpr
        (.composite (Or.inr (Or.inr rfl)) (List.forall_mem_singleton.mpr hempty))⟩
  have hlossless : Lossless .optional blocks := by
    refine .skipRest rfl (.repetition rfl (fun _ => rfl) ?_)
    refine .choice rfl (List.forall_mem_cons.mpr ⟨?_, List.forall_mem_singleton.mpr ?_⟩)
      (Or.inl (by decide))
    · exact .optionalText rfl rfl (by decide)
    · exact .leaf (Or.inl rfl)
  obtain ⟨model, normal, hmodel, hnormal, -, hiff⟩ := contentModel_normalise hcontent
  exact ⟨model, normal, hmodel, hnormal, hiff hlossless _ (by simp)⟩

/-- **Other content loses words**: a choice that also allows nothing, a text in front of something
that is required, and a text that may be repeated. -/
theorem contentModel_normalise_not_iff :
    let Keeps (blocks : List Tree) : Prop := (∀ block ∈ blocks, IsContent block) →
      ∃ model normal, contentModel blocks = .ok model ∧
        contentModel (normalise blocks) = .ok normal ∧
        ∀ word, (word = [] → ∀ block ∈ blocks, block.mentions "text" = false) →
          (word ∈ model.language ↔ word ∈ normal.language)
    let item : Tree := ⟨"element", .ofList [("name", "a")], []⟩
    ¬ Keeps [.plain "choice" [item, .plain "optional" []]] ∧
      ¬ Keeps [.plain "optional" [.plain "text" []], item] ∧
      ¬ Keeps [.plain "zeroOrMore" [.plain "text" []]] := by
  intro Keeps item
  have hitem : IsContent item := .element rfl rfl
  have hwrapped : ∀ name, isRepetition name = true → IsContent (.plain name [.plain "text" []]) :=
    fun name hname => .composite (Or.inr (Or.inr hname)) (List.forall_mem_singleton.mpr (.text rfl))
  refine ⟨fun hkeeps => ?_, fun hkeeps => ?_, fun hkeeps => ?_⟩
  · have hempty : IsContent (.plain "optional" []) :=
      .composite (Or.inr (Or.inr rfl)) fun child hchild => absurd hchild List.not_mem_nil
    have hcontent : IsContent (.plain "choice" [item, .plain "optional" []]) :=
      .composite (Or.inr (Or.inl rfl))
        (List.forall_mem_cons.mpr ⟨hitem, List.forall_mem_singleton.mpr hempty⟩)
    obtain ⟨model, normal, hmodel, hnormal, hiff⟩ := hkeeps (List.forall_mem_singleton.mpr hcontent)
    obtain rfl : Model.choice [.token "a", .optional (.sequence [])] = model := Except.ok.inj hmodel
    obtain rfl : Model.choice [.token "a"] = normal := Except.ok.inj hnormal
    have hmem : [] ∈ (Model.choice [.token "a"]).language :=
      (hiff [] fun _ => by decide).mp (Or.inr (Or.inl (Or.inr rfl)))
    rcases hmem with hmem | hmem
    · exact List.cons_ne_nil _ _ (Eq.symm hmem)
    · exact hmem
  · obtain ⟨model, normal, hmodel, hnormal, hiff⟩ := hkeeps
      (List.forall_mem_cons.mpr ⟨hwrapped "optional" rfl, List.forall_mem_singleton.mpr hitem⟩)
    obtain rfl : Model.sequence [.optional (.token textToken), .token "a"] = model :=
      Except.ok.inj hmodel
    obtain rfl : Model.sequence [.token textToken, .token "a"] = normal := Except.ok.inj hnormal
    have hmem : ["a"] ∈ (Model.sequence [.token textToken, .token "a"]).language :=
      (hiff ["a"] (by simp)).mp
        (mem_prod_iff.mpr ⟨[[], ["a"]], .cons (Or.inr rfl) (.cons rfl .nil), rfl⟩)
    obtain ⟨words, hwords, hflatten⟩ := mem_prod_iff.mp hmem
    obtain ⟨first, others, hfirst, hothers, rfl⟩ := List.forall₂_cons_right_iff.mp hwords
    obtain rfl : first = [textToken] := hfirst
    exact absurd (List.cons.inj hflatten).1 (by decide)
  · obtain ⟨model, normal, hmodel, hnormal, hiff⟩ :=
      hkeeps (List.forall_mem_singleton.mpr (hwrapped "zeroOrMore" rfl))
    obtain rfl : Model.kleene (.token textToken) = model := Except.ok.inj hmodel
    obtain rfl : Model.token textToken = normal := Except.ok.inj hnormal
    have hmem : [textToken, textToken] ∈ (Model.token textToken).language :=
      (hiff [textToken, textToken] (by simp)).mp
        (Language.mem_kstar.mpr ⟨[[textToken], [textToken]], rfl, by
          rintro part hpart
          obtain rfl : part = [textToken] := by simpa using hpart
          rfl⟩)
    exact absurd (List.cons.inj (show [textToken, textToken] = [textToken] from hmem)).2 (by decide)

end RelaxSchema.NormalForm
