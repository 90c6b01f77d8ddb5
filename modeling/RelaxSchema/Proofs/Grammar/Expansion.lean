import RelaxSchema.Grammar.Expansion
import RelaxSchema.Proofs.Traversal
import RelaxSchema.Proofs.Grammar.Patterns

/-!
# Expansion of references

* `Expansion.expand_pattern`: in the core of the grammar language a node is expanded to one node,
  which stands for the same tokens, if each reference is;
* `Expansion.resolves_resolve`: each reference is, if the definitions that are left are those of the
  grammar.
-/

namespace RelaxSchema.Expansion

open List RelaxSchema.Tree

variable {grammar : Tree} {resolve : String → Except Error (List Tree)}

/-- A composite node is kept with its children expanded. -/
theorem expand_of_isComposite {tree : Tree} (h : IsComposite tree.name) {trees : List Tree}
    (hexpand : expand resolve tree = .ok trees) :
    ∃ children, expandAll resolve tree.children = .ok children ∧
      trees = [⟨tree.name, tree.attributes, children⟩] := by
  obtain ⟨name, attributes, children⟩ := tree
  have hkept : expand resolve ⟨name, attributes, children⟩ =
      expandAll resolve children >>= fun children => .ok [⟨name, attributes, children⟩] := by
    rcases h with rfl | rfl | hrepetition
    · rfl
    · rfl
    · rcases isRepetition_iff.mp hrepetition with rfl | rfl | rfl <;> rfl
  rw [hkept] at hexpand
  obtain ⟨expanded, hexpanded, htrees⟩ := bind_eq_ok_iff.mp hexpand
  exact ⟨expanded, hexpanded, (Except.ok.inj htrees).symm⟩

theorem expandAll_forall₂ {R : Tree → Tree → Prop} {trees : List Tree}
    (h : ∀ tree ∈ trees, ∀ result, expand resolve tree = .ok result →
      ∃ expanded, result = [expanded] ∧ R tree expanded) {results : List Tree}
    (hexpand : expandAll resolve trees = .ok results) : Forall₂ R trees results := by
  induction trees generalizing results with
  | nil =>
    obtain rfl := Except.ok.inj hexpand
    exact .nil
  | cons tree rest ih =>
    rw [expandAll] at hexpand
    obtain ⟨first, hfirst, hexpand⟩ := bind_eq_ok_iff.mp hexpand
    obtain ⟨others, hothers, hexpand⟩ := bind_eq_ok_iff.mp hexpand
    obtain rfl := Except.ok.inj hexpand
    obtain ⟨expanded, rfl, hrel⟩ := h tree mem_cons_self first hfirst
    exact .cons hrel (ih (fun other hother => h other (mem_cons_of_mem _ hother)) hothers)

/-- What resolving a name gives stands for what its definition holds. -/
def Resolves (grammar : Tree) (resolve : String → Except Error (List Tree)) : Prop :=
  ∀ name trees, resolve name = .ok trees → ∃ expanded definition, trees = [expanded] ∧
    Pattern "element" false expanded ∧ grammar.define? name = some definition ∧
      words grammar [expanded] = words grammar definition.children

/-- **Expansion keeps what a pattern stands for.** -/
theorem expand_pattern (hresolve : Resolves grammar resolve) {text : Bool} {tree : Tree}
    (h : Pattern "ref" text tree) {trees : List Tree} (hexpand : expand resolve tree = .ok trees) :
    ∃ expanded, trees = [expanded] ∧ IsForm grammar text tree expanded := by
  induction h generalizing trees with
  | @atom text tree hname _ _ =>
    obtain ⟨name, attributes, children⟩ := tree
    obtain rfl : name = "ref" := hname
    rw [expand] at hexpand
    cases hattribute : attributes.find? "name" with
    | none => simp [hattribute] at hexpand
    | some target =>
      -- Only here does the meaning of the node depend on the grammar.
      rw [hattribute] at hexpand
      obtain ⟨expanded, definition, rfl, hpattern, hdefine, hwords⟩ := hresolve target trees hexpand
      have htarget : (⟨"ref", attributes, children⟩ : Tree).attribute? "name" = some target :=
        hattribute
      refine ⟨expanded, rfl, hpattern.weaken, ?_⟩
      rw [hwords, words_ref rfl htarget hdefine]
  | @text tree hname hchildren =>
    obtain ⟨name, attributes, children⟩ := tree
    obtain rfl : name = "text" := hname
    obtain rfl : children = [] := hchildren
    obtain rfl := Except.ok.inj hexpand
    exact ⟨_, rfl, .text rfl rfl, rfl⟩
  | group hname hne _ ih =>
    obtain ⟨children, hchildren, rfl⟩ := expand_of_isComposite (Or.inl hname) hexpand
    exact ⟨_, rfl,
      .group hname hne (expandAll_forall₂ (fun child hchild _ => ih child hchild) hchildren)⟩
  | choice hname hne _ ih =>
    obtain ⟨children, hchildren, rfl⟩ := expand_of_isComposite (Or.inr (Or.inl hname)) hexpand
    exact ⟨_, rfl,
      .choice hname hne (expandAll_forall₂ (fun child hchild _ => ih child hchild) hchildren)⟩
  | repetition hname hne _ ih =>
    obtain ⟨children, hchildren, rfl⟩ := expand_of_isComposite (Or.inr (Or.inr hname)) hexpand
    exact ⟨_, rfl,
      .repetition hname hne (expandAll_forall₂ (fun child hchild _ => ih child hchild) hchildren)⟩

/-! ### Definitions -/

theorem attribute?_leaf (name : String) : (leaf name).attribute? "name" = some name := rfl

/-- An element is expanded to a leaf, whatever it holds. -/
theorem expand_element {tree : Tree} (hname : tree.name = "element") {name : String}
    (hattribute : tree.attribute? "name" = some name) {trees : List Tree}
    (hexpand : expand resolve tree = .ok trees) :
    ∃ expanded, trees = [expanded] ∧ IsForm grammar false tree expanded := by
  obtain ⟨_, attributes, children⟩ := tree
  obtain rfl := hname
  rw [expand, show attributes.find? "name" = some name from hattribute] at hexpand
  obtain rfl := Except.ok.inj hexpand
  refine ⟨leaf name, rfl, .atom rfl (by simp [leaf]), ?_⟩
  rw [words_element rfl hattribute, words_element rfl (attribute?_leaf name)]

/-- What a definition holds is expanded to one node that stands for the same. -/
theorem exists_expansion_of_isDefinition (hresolve : Resolves grammar resolve) {name : String}
    {definition : Tree} (h : IsDefinition name definition) : ∃ node, definition.children = [node] ∧
      ∀ result, expand resolve node = .ok result →
        ∃ expanded, result = [expanded] ∧ IsForm grammar false node expanded := by
  cases h with
  | element hchildren hname hattribute _ =>
    exact ⟨_, hchildren, fun result hexpand => expand_element hname hattribute hexpand⟩
  | pattern hchildren hpattern =>
    exact ⟨_, hchildren, fun result hexpand => expand_pattern hresolve hpattern hexpand⟩

theorem lookup_without {name other : String} {available : List (String × List Tree)}
    {body : List Tree} (h : (without name available).lookup other = some body) :
    available.lookup other = some body := by
  have hother : other ≠ name := by
    obtain ⟨before, after, heq, -⟩ := lookup_eq_some_iff.mp h
    have hmem : (other, body) ∈ without name available := heq ▸ mem_append_cons_self
    simpa using (mem_filter.mp hmem).2
  induction available with
  | nil => exact h
  | cons first rest ih =>
    obtain ⟨key, value⟩ := first
    rw [without, filter_cons] at h
    rw [lookup_cons]
    by_cases hkey : key = name
    · rw [if_neg (by simpa using hkey)] at h
      have hne : (other == key) = false := by simpa [hkey] using hother
      rw [hne]
      exact ih h
    · rw [if_pos (by simpa using hkey), lookup_cons] at h
      split at h
      · exact h
      · exact ih h

/-- The definitions that are left are definitions of the grammar, and each is one of the core. -/
def AreDefinitions (grammar : Tree) (available : List (String × List Tree)) : Prop :=
  ∀ name body, available.lookup name = some body → ∃ definition,
    grammar.define? name = some definition ∧ definition.children = body ∧
      IsDefinition name definition

/-- **Resolving a reference keeps what its definition stands for.** -/
theorem resolves_resolve (registered : List String) {available : List (String × List Tree)}
    (h : AreDefinitions grammar available) :
    Resolves grammar (Expansion.resolve registered available) := by
  induction hlength : available.length using Nat.strongRecOn generalizing available with
  | ind length ih =>
    intro name trees hresolve
    rw [Expansion.resolve] at hresolve
    split at hresolve
    · rename_i body hfound
      obtain ⟨definition, hdefine, rfl, hdefinition⟩ := h name body hfound
      -- The definition is not available while it is expanded.
      have hrest : Resolves grammar (Expansion.resolve registered (without name available)) :=
        ih _ (hlength ▸ length_without_lt hfound)
          (fun other body hother => h other body (lookup_without hother)) rfl
      obtain ⟨node, hchildren, hnode⟩ := exists_expansion_of_isDefinition hrest hdefinition
      rw [hchildren] at hresolve
      have hall : Forall₂ (IsForm grammar false) [node] trees :=
        expandAll_forall₂ (forall_mem_singleton.mpr hnode) hresolve
      obtain ⟨expanded, others, hexpansion, hothers, rfl⟩ := forall₂_cons_left_iff.mp hall
      obtain rfl := forall₂_nil_left_iff.mp hothers
      exact ⟨expanded, definition, rfl, hexpansion.1, hdefine, hchildren ▸ hexpansion.2⟩
    · split at hresolve <;> simp at hresolve

end RelaxSchema.Expansion
