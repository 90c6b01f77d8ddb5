import RelaxSchema.Proofs.Grammar.EmptyAlternatives
import RelaxSchema.Proofs.Grammar.Grouping
import RelaxSchema.Proofs.Grammar.Marking

/-!
# Grammars with empty alternatives in the place of what is optional

What becomes of a grammar when some of its optional patterns are spelled as a choice of the pattern
and of nothing (`Tree.Respelled`).

* `Definitions.exists_collect_respelled`: the definitions are registered alike;
* `Definitions.AreRespelled.stripRemoved`: they are still alike after names are removed;
* `Definitions.AreRespelled.rel_bodies`, `AreRespelled.elements`, `AreRespelled.startName_eq`: so
  are the bodies and the elements, while the start is the same;
* `Expansion.Inlines.exists_respelled`: content that can be expanded still can be, to blocks that
  compare (`NormalForm.Narrowed`).

A choice has the place of the optional pattern among all nodes but those of the three names that are
involved, so most listings of nodes compare one by one (`Tree.Respelled.filter_preorderAll`).
-/

namespace RelaxSchema

open List RelaxSchema.Tree RelaxSchema.NormalForm

namespace Tree

/-! ### Patterns with an empty alternative -/

/-- The second trees are the first ones with a choice of the pattern and of nothing in the place of
some optional patterns that have the property. -/
inductive Respelled (P : Tree → Prop) : List Tree → List Tree → Prop
  /-- No trees. -/
  | nil : Respelled P [] []
  /-- A node with such patterns below it. -/
  | cons {name : String} {attributes : Catalogue String}
      {children children' rest rest' : List Tree} :
      Respelled P children children' → Respelled P rest rest' →
      Respelled P (⟨name, attributes, children⟩ :: rest) (⟨name, attributes, children'⟩ :: rest')
  /-- An optional pattern. -/
  | choice {pattern pattern' : Tree} {rest rest' : List Tree} : P pattern →
      Respelled P [pattern] [pattern'] → Respelled P rest rest' →
      Respelled P (.plain "optional" [pattern] :: rest)
        (.plain "choice" [pattern', .plain "empty" []] :: rest')

/-- A node with such patterns below it. -/
structure IsRespelling (P : Tree → Prop) (tree tree' : Tree) : Prop where
  /-- The name is the same. -/
  name_eq : tree.name = tree'.name
  /-- The attributes are the same. -/
  attributes_eq : tree.attributes = tree'.attributes
  /-- The children differ. -/
  children : Respelled P tree.children tree'.children

/-- The names of the nodes that come and go. -/
def respelledNames : List String := ["optional", "choice", "empty"]

section Respelled

variable {P Q : Tree → Prop} {trees trees' rest rest' : List Tree} {tree tree' : Tree}

theorem Respelled.forall₂ (h : Respelled P trees trees') :
    Forall₂ (fun tree tree' => Respelled P [tree] [tree']) trees trees' := by
  induction h with
  | nil => exact .nil
  | cons hchildren _ _ ih => exact .cons (.cons hchildren .nil) ih
  | choice hpattern hrespelled _ _ ih => exact .cons (.choice hpattern hrespelled .nil) ih

theorem Respelled.append {others others' : List Tree} (h : Respelled P trees trees')
    (h' : Respelled P others others') : Respelled P (trees ++ others) (trees' ++ others') := by
  induction h with
  | nil => exact h'
  | cons hchildren _ _ ih => exact .cons hchildren ih
  | choice hpattern hrespelled _ _ ih => exact .choice hpattern hrespelled ih

theorem Respelled.exists_singleton (h : Respelled P [tree] trees') :
    ∃ tree', trees' = [tree'] ∧ Respelled P [tree] [tree'] := by
  obtain ⟨tree', others, htree, hnil, rfl⟩ := forall₂_cons_left_iff.mp h.forall₂
  obtain rfl := forall₂_nil_left_iff.mp hnil
  exact ⟨tree', rfl, htree⟩

theorem IsRespelling.attribute?_eq (h : IsRespelling P tree tree') (name : String) :
    tree.attribute? name = tree'.attribute? name := by
  rw [attribute?, attribute?, h.attributes_eq]

/-- **The nodes of any other name compare one by one.** -/
theorem Respelled.filter_preorderAll (h : Respelled P trees trees') {name : String}
    (hname : name ∉ respelledNames) :
    Forall₂ (IsRespelling P) ((preorderAll trees).filter fun node => node.name = name)
      ((preorderAll trees').filter fun node => node.name = name) := by
  have hnames : "optional" ≠ name ∧ "choice" ≠ name ∧ "empty" ≠ name := by
    simpa [respelledNames, eq_comm] using hname
  obtain ⟨hoptional, hchoice, hempty⟩ := hnames
  induction h with
  | nil => exact .nil
  | @cons label attributes children children' rest rest' hchildren _ ihchildren ih =>
    rw [preorderAll, preorderAll, filter_append, filter_append]
    refine rel_append ?_ ih
    rw [preorder, preorder]
    by_cases hlabel : label = name
    · rw [filter_cons_of_pos (by simpa using hlabel), filter_cons_of_pos (by simpa using hlabel)]
      exact .cons ⟨rfl, rfl, hchildren⟩ ihchildren
    · rw [filter_cons_of_neg (by simpa using hlabel), filter_cons_of_neg (by simpa using hlabel)]
      exact ihchildren
  | @choice pattern pattern' rest rest' _ _ _ ihpattern ih =>
    have hnothing : ((preorderAll [plain "empty" []]).filter fun node =>
        node.name = name) = [] := by
      rw [preorderAll, preorderAll, append_nil,
        @Definitions.filter_preorder (plain "empty" []) _ hempty]
      rfl
    rw [preorderAll, preorderAll, filter_append, filter_append,
      @Definitions.filter_preorder (plain "optional" [pattern]) _ hoptional,
      @Definitions.filter_preorder (plain "choice" [pattern', plain "empty" []]) _ hchoice]
    refine rel_append ?_ ih
    have hsplit : preorderAll (plain "choice" [pattern', plain "empty" []]).children =
        preorderAll [pattern'] ++ preorderAll [plain "empty" []] :=
      preorderAll_append [pattern'] _
    rw [hsplit, filter_append, hnothing, append_nil]
    exact ihpattern

/-- The nodes of any other name that are found below two nodes compare one by one. -/
theorem IsRespelling.findAll (h : IsRespelling P tree tree') {name : String}
    (hname : name ∉ respelledNames) :
    Forall₂ (IsRespelling P) (tree.findAll name) (tree'.findAll name) :=
  h.children.filter_preorderAll hname

theorem IsRespelling.rel_find? (h : IsRespelling P tree tree') {name : String}
    (hname : name ∉ respelledNames) :
    Option.Rel (IsRespelling P) (tree.find? name) (tree'.find? name) := by
  have hall := h.findAll hname
  rw [Definitions.find?_eq_head?_findAll, Definitions.find?_eq_head?_findAll]
  generalize tree.findAll name = nodes at hall
  generalize tree'.findAll name = nodes' at hall
  cases hall with
  | nil => exact .none
  | cons hfirst _ => exact .some hfirst

/-- The same names are marked. -/
theorem IsRespelling.markedNames_eq (h : IsRespelling P tree tree') {marker : String}
    (hmarker : marker ∉ respelledNames) : tree.markedNames marker = tree'.markedNames marker := by
  have hall := h.findAll hmarker
  rw [markedNames, markedNames]
  generalize tree.findAll marker = nodes at hall
  generalize tree'.findAll marker = nodes' at hall
  induction hall with
  | nil => rfl
  | cons hfirst _ ih => rw [filterMap_cons, filterMap_cons, ih, hfirst.attribute?_eq]

end Respelled

end Tree

namespace Definitions

/-! ### Removed names -/

section Removed

variable {names : List String} {P Q : Tree → Prop} {trees trees' : List Tree}

/-- What is left of the grammars after names are removed differs in the same way, if the optional
patterns are left. -/
theorem respelled_strip
    (hleft : ∀ pattern, P pattern → ∃ left, strip names [pattern] = [left] ∧ Q left)
    (h : Respelled P trees trees') : Respelled Q (strip names trees) (strip names trees') := by
  induction h with
  | nil => exact .nil
  | @cons name attributes children children' rest rest' _ _ ihchildren ih =>
    have hremoved : isRemoved names ⟨name, attributes, children⟩ =
        isRemoved names ⟨name, attributes, children'⟩ :=
      rfl
    rw [strip, strip, hremoved]
    split
    · exact ih
    · exact .cons ihchildren ih
  | @choice pattern pattern' rest rest' hpattern _ _ ihpattern ih =>
    obtain ⟨left, hleft, hleftPattern⟩ := hleft pattern hpattern
    rw [hleft] at ihpattern
    obtain ⟨left', hleft', hrespelled⟩ := ihpattern.exists_singleton
    have hoptional : strip names (plain "optional" [pattern] :: rest) =
        plain "optional" [left] :: strip names rest := by
      rw [strip, isRemoved_eq_false (by simp [plain]) (by simp [plain]), if_neg Bool.false_ne_true,
        plain, stripTree, hleft]
      rfl
    have hempty : strip names [plain "empty" []] = [plain "empty" []] := by
      rw [strip, isRemoved_eq_false (by simp [plain]) (by simp [plain]), if_neg Bool.false_ne_true]
      rfl
    have hboth : strip names [pattern', plain "empty" []] = [left', plain "empty" []] := by
      rw [← singleton_append, strip_append, hleft', hempty, singleton_append]
    have hchoice : strip names (plain "choice" [pattern', plain "empty" []] :: rest') =
        plain "choice" [left', plain "empty" []] :: strip names rest' := by
      rw [strip, isRemoved_eq_false (by simp [plain]) (by simp [plain]), if_neg Bool.false_ne_true,
        plain, stripTree, hboth]
      rfl
    rw [hoptional, hchoice]
    exact .choice hleftPattern hrespelled ih

end Removed

/-! ### Registration -/

/-- Definitions that are registered alike, in grammars that differ by empty alternatives. -/
structure AreRespelled (P : Tree → Prop) (definitions definitions' : Definitions) : Prop where
  /-- The names are registered at the same positions. -/
  positions_eq : definitions.positions = definitions'.positions
  /-- The children differ. -/
  children : Respelled P definitions.children definitions'.children

section Registration

variable {P : Tree → Prop} {trees trees' : List Tree} {tree tree' : Tree}
  {definitions definitions' next : Definitions}

/-- The definitions compare one by one. -/
theorem forall₂_filter_isDefine (h : Respelled P trees trees') :
    Forall₂ (IsRespelling P) (trees.filter isDefine) (trees'.filter isDefine) := by
  induction h with
  | nil => exact .nil
  | @cons name attributes children children' rest rest' hchildren _ _ ih =>
    by_cases hdefine : isDefine ⟨name, attributes, children⟩ = true
    · have hdefine' : isDefine ⟨name, attributes, children'⟩ = true := hdefine
      rw [filter_cons_of_pos hdefine, filter_cons_of_pos hdefine']
      exact .cons ⟨rfl, rfl, hchildren⟩ ih
    · have hother : ¬ isDefine ⟨name, attributes, children'⟩ = true := hdefine
      rw [filter_cons_of_neg hdefine, filter_cons_of_neg hother]
      exact ih
  | choice _ _ _ _ ih =>
    rw [filter_cons_of_neg (by simp [isDefine, plain]),
      filter_cons_of_neg (by simp [isDefine, plain])]
    exact ih

theorem AreRespelled.defines (h : AreRespelled P definitions definitions') :
    Forall₂ (IsRespelling P) definitions.defines definitions'.defines :=
  forall₂_filter_isDefine h.children

/-- What is added to a definition may differ as well. -/
theorem respelled_extendDefine {extra extra' : List Tree} (hextra : Respelled P extra extra')
    (position : Nat) (h : Respelled P trees trees') :
    Respelled P (extendDefine extra position trees) (extendDefine extra' position trees') := by
  induction h generalizing position with
  | nil => exact .nil
  | @cons name attributes children children' rest rest' hchildren hrest _ ih =>
    cases hdefine : isDefine ⟨name, attributes, children⟩ with
    | false =>
      have hother : isDefine ⟨name, attributes, children'⟩ = false := hdefine
      rw [extendDefine_skip hdefine, extendDefine_skip hother]
      exact .cons hchildren (ih position)
    | true =>
      have hdefine' : isDefine ⟨name, attributes, children'⟩ = true := hdefine
      cases position with
      | zero =>
        rw [extendDefine_zero hdefine, extendDefine_zero hdefine']
        exact .cons (hchildren.append hextra) hrest
      | succ position =>
        rw [extendDefine_succ hdefine, extendDefine_succ hdefine']
        exact .cons hchildren (ih position)
  | choice hpattern hrespelled _ _ ih =>
    rw [extendDefine_skip rfl, extendDefine_skip rfl]
    exact .choice hpattern hrespelled (ih position)

/-- **A child is registered alike.** -/
theorem AreRespelled.exists_register (h : AreRespelled P definitions definitions')
    (htree : Respelled P [tree] [tree']) (hnext : register definitions tree = .ok next) :
    ∃ next', register definitions' tree' = .ok next' ∧ AreRespelled P next next' := by
  have hlength := h.defines.length_eq
  obtain ⟨hpositions, hchildren⟩ := h
  have hlast := hchildren.append htree
  cases htree with
  | @cons name attributes below below' _ _ hbelow _ =>
    obtain ⟨hother, rfl⟩ | ⟨label, target, hdefine, hname, hfound, hcombine, rfl⟩ |
      ⟨label, hdefine, hname, hnew, rfl⟩ := register_cases hnext
    · exact ⟨_, register_other hother, hpositions, hlast⟩
    · refine ⟨⟨extendDefine below' target definitions'.children ++ [⟨name, attributes, []⟩],
        definitions'.positions⟩, ?_, hpositions,
          (respelled_extendDefine hbelow target hchildren).append (.cons .nil .nil)⟩
      have hdefine' : isDefine ⟨name, attributes, below'⟩ = true := hdefine
      have hname' : (⟨name, attributes, below'⟩ : Tree).attribute? "name" = some label := hname
      have hcombine' : (⟨name, attributes, below'⟩ : Tree).attribute? "combine" =
          some "interleave" := hcombine
      rw [hpositions] at hfound
      simp only [register, hdefine', if_true, hname', hfound, hcombine']
    · have hnew' : definitions'.positions.find? label = none ∨
          (⟨name, attributes, below'⟩ : Tree).attribute? "combine" ≠ some "interleave" :=
        hpositions ▸ hnew
      refine ⟨_, register_of_new hdefine hname hnew', ?_, hlast⟩
      rw [hpositions, hlength]
  | choice _ _ _ =>
    obtain rfl := Except.ok.inj ((register_other rfl).symm.trans hnext)
    exact ⟨_, register_other rfl, hpositions, hlast⟩

/-- **The definitions are registered alike.** -/
theorem exists_collect_respelled {grammar grammar' : Tree}
    (h : Respelled P grammar.children grammar'.children)
    (hcollect : collect grammar = .ok definitions) :
    ∃ definitions', collect grammar' = .ok definitions' ∧ AreRespelled P definitions definitions' :=
  exists_foldlM_of_forall₂
    (fun _ _ _ _ _ hrespelled htree hnext => hrespelled.exists_register htree hnext)
    h.forall₂ ⟨rfl, .nil⟩ hcollect

end Registration

/-! ### Bodies, elements and the start -/

section Reading

variable {P Q : Tree → Prop} {trees trees' : List Tree} {definitions definitions' : Definitions}

theorem AreRespelled.isRespelling_toTree (h : AreRespelled P definitions definitions') :
    IsRespelling P definitions.toTree definitions'.toTree :=
  ⟨rfl, rfl, h.children⟩

/-- **The definitions are still alike after names are removed**, if the optional patterns are
left. -/
theorem AreRespelled.stripRemoved (h : AreRespelled P definitions definitions')
    (hleft : ∀ pattern, P pattern → ∃ left,
      strip (definitions.toTree.markedNames "removed") [pattern] = [left] ∧ Q left) :
    AreRespelled Q definitions.stripRemoved definitions'.stripRemoved := by
  refine ⟨h.positions_eq, ?_⟩
  rw [Definitions.stripRemoved, Definitions.stripRemoved,
    ← h.isRespelling_toTree.markedNames_eq (by decide)]
  exact respelled_strip hleft h.children

/-- **The bodies are alike.** -/
theorem AreRespelled.rel_bodies (h : AreRespelled P definitions definitions') (name : String) :
    Option.Rel (Respelled P) (definitions.bodies.find? name) (definitions'.bodies.find? name) := by
  rw [bodies, bodies, Catalogue.find?_map, Catalogue.find?_map, h.positions_eq]
  cases definitions'.positions.find? name with
  | none => exact .none
  | some position =>
    refine .some ?_
    dsimp only
    have hfound := rel_getElem?_of_forall₂ h.defines position
    generalize definitions.defines[position]? = found at hfound
    generalize definitions'.defines[position]? = found' at hfound
    cases hfound with
    | none => exact .nil
    | some hdefine => exact hdefine.children

/-- Nothing is defined by an empty alternative. -/
theorem elementsBelow_emptyAlternative (direct : Bool) (pattern : Tree) :
    elementsBelow direct [pattern, plain "empty" []] = elementsBelow direct [pattern] := by
  have hnothing : elementsBelow direct [plain "empty" []] = [] := by
    simp [plain, elementsBelow, elementsAt]
  rw [← singleton_append, elementsBelow_append, hnothing, append_nil]

/-- The elements in definitions compare one by one. -/
theorem forall₂_elementsBelow (h : Respelled P trees trees') (direct : Bool) :
    Forall₂ (IsRespelling P) (elementsBelow direct trees) (elementsBelow direct trees') := by
  induction h generalizing direct with
  | nil => exact .nil
  | @cons name attributes children children' rest rest' hchildren _ ihchildren ih =>
    rw [elementsBelow, elementsBelow, elementsAt, elementsAt]
    refine rel_append (rel_append ?_ (ihchildren _)) (ih direct)
    split
    · exact .cons ⟨rfl, rfl, hchildren⟩ .nil
    · exact .nil
  | @choice pattern pattern' rest rest' _ _ _ ihpattern ih =>
    have hoptional : elementsAt direct (plain "optional" [pattern]) =
        elementsBelow false [pattern] := by
      simp [plain, elementsAt]
    have hchoice : elementsAt direct (plain "choice" [pattern', plain "empty" []]) =
        elementsBelow false [pattern'] := by
      rw [← elementsBelow_emptyAlternative]
      simp [plain, elementsAt]
    rw [elementsBelow, elementsBelow, hoptional, hchoice]
    exact rel_append (ihpattern false) (ih direct)

/-- **The elements that are defined compare one by one.** -/
theorem AreRespelled.elements (h : AreRespelled P definitions definitions') :
    Forall₂ (IsRespelling P) definitions.elements definitions'.elements := by
  have hall : ∀ {trees trees' : List Tree}, Respelled P trees trees' → ∀ position,
      Forall₂ (IsRespelling P) (definitions.elementsFrom position trees)
        (definitions'.elementsFrom position trees') := by
    intro trees trees' htrees
    induction htrees with
    | nil => exact fun _ => .nil
    | @cons name attributes children children' rest rest' hchildren _ _ ih =>
      intro position
      have hregistered : definitions.isRegistered position ⟨name, attributes, children⟩ =
          definitions'.isRegistered position ⟨name, attributes, children'⟩ := by
        rw [isRegistered, isRegistered, h.positions_eq]
        rfl
      have hdefine : isDefine ⟨name, attributes, children⟩ =
          isDefine ⟨name, attributes, children'⟩ := rfl
      rw [elementsFrom, elementsFrom, hdefine, hregistered]
      split
      · exact rel_append (forall₂_elementsBelow hchildren _) (ih _)
      · exact rel_append (forall₂_elementsBelow hchildren _) (ih _)
    | @choice pattern pattern' rest rest' hpattern hrespelled _ _ ih =>
      intro position
      have hbelow : Forall₂ (IsRespelling P) (elementsBelow false [pattern])
          (elementsBelow false [pattern', plain "empty" []]) := by
        rw [elementsBelow_emptyAlternative]
        exact forall₂_elementsBelow hrespelled false
      exact rel_append hbelow (ih position)
  exact hall h.children 0

/-- The start is the same. -/
theorem AreRespelled.startName_eq (h : AreRespelled P definitions definitions') :
    startName definitions.toTree = startName definitions'.toTree := by
  have hstart := h.isRespelling_toTree.rel_find? (by decide : "start" ∉ respelledNames)
  rw [startName, startName]
  generalize definitions.toTree.find? "start" = start at hstart
  generalize definitions'.toTree.find? "start" = start' at hstart
  cases hstart with
  | none => rfl
  | @some start start' hrespelling =>
    have href := hrespelling.rel_find? (by decide : "ref" ∉ respelledNames)
    dsimp only
    generalize start.find? "ref" = reference at href
    generalize start'.find? "ref" = reference' at href
    cases href with
    | none => rfl
    | some hreference =>
      dsimp only
      rw [hreference.attribute?_eq]

end Reading

end Definitions

/-! ### Expansion -/

namespace Expansion

/-- A pattern becomes one block, and something is left of the block. -/
def IsSingle (bodies : Catalogue (List Tree)) (pattern : Tree) : Prop :=
  ∃ block, Inlines bodies [pattern] [block] ∧ normalise (branches block) ≠ []

section Inlining

variable {bodies bodies' : Catalogue (List Tree)} {trees trees' blocks : List Tree}

/-- **Content can still be expanded**, to blocks that compare. -/
theorem Inlines.exists_respelled
    (hbodies : ∀ name, Option.Rel (Respelled (IsSingle bodies)) (bodies.find? name)
      (bodies'.find? name))
    (h : Inlines bodies trees blocks) (hrespelled : Respelled (IsSingle bodies) trees trees') :
    ∃ blocks', Inlines bodies' trees' blocks' ∧ ∀ place, Narrowed false place blocks blocks' := by
  induction h generalizing trees' with
  | nil =>
    cases hrespelled
    exact ⟨[], .nil, fun _ => .nil⟩
  | @element tree name rest blocks hname hattribute _ ih =>
    cases hrespelled with
    | cons _ hrest =>
      obtain ⟨others, hothers, hnarrowed⟩ := ih hrest
      exact ⟨_, .element hname hattribute hothers, fun place =>
        .cons (by simp) .nil (hnarrowed place)⟩
    | choice => simp [plain] at hname
  | @ref tree target body inlined rest blocks href hbody _ _ ihbody ih =>
    cases hrespelled with
    | cons _ hrest =>
      have hrel := hbodies target
      rw [hbody] at hrel
      obtain ⟨body', hbody', hrespelledBody⟩ : ∃ body', bodies'.find? target = some body' ∧
          Respelled (IsSingle bodies) body body' := by
        generalize bodies'.find? target = found at hrel
        cases hrel with
        | some hrespelled => exact ⟨_, rfl, hrespelled⟩
      obtain ⟨inlined', hinlined', hnarrowed⟩ := ihbody hrespelledBody
      obtain ⟨others, hothers, hnarrowedRest⟩ := ih hrest
      exact ⟨_, .ref href hbody' hinlined' hothers, fun place =>
        (hnarrowed place).append (hnarrowedRest place)⟩
    | choice => simp [IsRefTo, plain] at href
  | dropped hdropped _ ih =>
    cases hrespelled with
    | cons _ hrest =>
      obtain ⟨others, hothers, hnarrowed⟩ := ih hrest
      exact ⟨others, .dropped hdropped hothers, hnarrowed⟩
    | choice => simp [plain] at hdropped
  | @kept tree children rest blocks hleaf hchildren _ ihchildren ih =>
    cases hrespelled with
    | cons hbelow hrest =>
      obtain ⟨children', hchildren', hnarrowed⟩ := ihchildren hbelow
      obtain ⟨others, hothers, hnarrowedRest⟩ := ih hrest
      exact ⟨_, .kept hleaf hchildren' hothers, fun place =>
        .cons (by simp) (hnarrowed _) (hnarrowedRest place)⟩
    | @choice pattern pattern' _ _ hpattern hbelow hrest =>
      -- The optional node holds the one block that the pattern becomes, and so does the choice.
      obtain ⟨block, hblock, hleft⟩ := hpattern
      obtain rfl := hblock.unique hchildren
      obtain ⟨children', hchildren', hnarrowed⟩ := ihchildren hbelow
      obtain ⟨block', nothing, -, hnil, rfl⟩ := forall₂_cons_left_iff.mp (hnarrowed .exact).forall₂
      obtain rfl := forall₂_nil_left_iff.mp hnil
      obtain ⟨others, hothers, hnarrowedRest⟩ := ih hrest
      have hboth : Inlines bodies' [pattern', plain "empty" []] [block'] :=
        hchildren'.append (.dropped (.inl rfl) .nil)
      exact ⟨_, .kept rfl hboth hothers, fun place =>
        .choice hleft (by simp) (hnarrowed place) (hnarrowedRest place)⟩

theorem exists_expandContent_respelled
    (hbodies : ∀ name, Option.Rel (Respelled (IsSingle bodies)) (bodies.find? name)
      (bodies'.find? name)) (h : Definitions.expandContent bodies trees = .ok blocks)
    (hrespelled : Respelled (IsSingle bodies) trees trees') :
    ∃ blocks', Definitions.expandContent bodies' trees' = .ok blocks' ∧
      Narrowed false .exact blocks blocks' := by
  obtain ⟨blocks', hblocks', hnarrowed⟩ :=
    (inlines_of_expandContent h).exists_respelled hbodies hrespelled
  exact ⟨blocks', ((expandContent_eq_ok_iff_inlines bodies' trees').2.1 blocks').mpr hblocks',
    hnarrowed .exact⟩

end Inlining

end Expansion

end RelaxSchema
