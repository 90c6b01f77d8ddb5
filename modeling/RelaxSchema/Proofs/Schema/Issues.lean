import RelaxSchema.Schema.Issues
import RelaxSchema.Proofs.Catalogue
import RelaxSchema.Proofs.Schema.Validation

/-!
# Issues and valid documents

* `Schema.mem_reachable_iff`: the names that are counted as reachable are those that a chain of
  children leads to from the start element;
* `Schema.mem_issues_iff`: what there is a warning about;
* `Schema.issue_element_ne`: no element of a valid document that is visited has a name with a
  warning.

The search over the schema and the validation of a document are two walks. They are tied together by
the automata: a child element that is accepted is one that the search goes on to
(`Schema.allows_of_validateElement`), so by induction on the way to a visited element the search has
met all names on that way.
-/

namespace RelaxSchema.Schema

variable {schema : Schema}

/-! ### Chains of children -/

/-- The content of an element may hold a child element. -/
def Allows (schema : Schema) (parent child : String) : Prop :=
  ∃ entry, schema.find? parent = some entry ∧ child ∈ childNames entry

/-- A chain of elements, each allowed in the one before, leads from one name to another. -/
def LeadsTo (schema : Schema) : String → String → Prop := Relation.ReflTransGen schema.Allows

theorem mem_childrenOf_iff {parent child : String} :
    child ∈ schema.childrenOf parent ↔ schema.Allows parent child := by
  rw [childrenOf, Allows]
  cases schema.find? parent <;> simp

theorem mem_childNames_iff {entry : ElementSchema} {child : String} :
    child ∈ childNames entry ↔ child ∈ entry.expression.allowed ∧ child ≠ textToken := by
  rw [childNames, List.mem_filter, decide_eq_true_iff]

/-! ### The search -/

theorem mem_met_iff {children unmet : List String} {name : String} :
    name ∈ met children unmet ↔ name ∈ unmet ∧ name ∈ children := by
  rw [met, List.mem_filter, List.contains_iff_mem]

theorem mem_notMet_iff {children unmet : List String} {name : String} :
    name ∈ notMet children unmet ↔ name ∈ unmet ∧ name ∉ children := by
  rw [notMet, List.mem_filter, Bool.not_eq_true', ← Bool.not_eq_true, List.contains_iff_mem]

theorem mem_reachFrom_of_mem_pending {unmet pending : List String} {name : String}
    (h : name ∈ pending) : name ∈ schema.reachFrom unmet pending := by
  induction unmet, pending using reachFrom.induct schema with
  | case1 unmet => exact absurd h List.not_mem_nil
  | case2 unmet first rest children ih =>
    rw [reachFrom]
    rcases List.mem_cons.mp h with rfl | hrest
    · exact List.mem_cons_self
    · exact List.mem_cons_of_mem _ (ih (List.mem_append_left _ hrest))

/-- What the search meets is a pending name, or a chain leads to it from one. -/
theorem exists_leadsTo_of_mem_reachFrom {unmet pending : List String} {name : String}
    (h : name ∈ schema.reachFrom unmet pending) : ∃ first ∈ pending, schema.LeadsTo first name := by
  induction unmet, pending using reachFrom.induct schema with
  | case1 unmet =>
    rw [reachFrom] at h
    exact absurd h List.not_mem_nil
  | case2 unmet first rest children ih =>
    rw [reachFrom] at h
    rcases List.mem_cons.mp h with rfl | hlater
    · exact ⟨name, List.mem_cons_self, .refl⟩
    · obtain ⟨next, hnext, hleads⟩ := ih hlater
      rcases List.mem_append.mp hnext with hrest | hmet
      · exact ⟨next, List.mem_cons_of_mem _ hrest, hleads⟩
      · have hallows : schema.Allows first next := mem_childrenOf_iff.mp (mem_met_iff.mp hmet).2
        exact ⟨first, List.mem_cons_self, hleads.head hallows⟩

/-- The search leaves out no child that was not met before. -/
theorem mem_reachFrom_of_allows {unmet pending : List String} {parent child : String}
    (hparent : parent ∈ schema.reachFrom unmet pending) (hallows : schema.Allows parent child)
    (hunmet : child ∈ unmet) : child ∈ schema.reachFrom unmet pending := by
  induction unmet, pending using reachFrom.induct schema with
  | case1 unmet =>
    rw [reachFrom] at hparent
    exact absurd hparent List.not_mem_nil
  | case2 unmet first rest children ih =>
    rw [reachFrom] at hparent ⊢
    apply List.mem_cons_of_mem
    -- A child of the first name waits in the queue from now on, any other one stays unmet.
    by_cases hchild : child ∈ children
    · have hmet : child ∈ met children unmet := mem_met_iff.mpr ⟨hunmet, hchild⟩
      exact mem_reachFrom_of_mem_pending (List.mem_append_right _ hmet)
    · rcases List.mem_cons.mp hparent with rfl | hlater
      · exact absurd (mem_childrenOf_iff.mpr hallows) hchild
      · exact ih hlater (mem_notMet_iff.mpr ⟨hunmet, hchild⟩)

theorem mem_mentionedNames_of_allows {parent child : String} (h : schema.Allows parent child) :
    child ∈ schema.mentionedNames := by
  obtain ⟨entry, hentry, hchild⟩ := h
  have hvalue : entry ∈ schema.elements.values :=
    List.mem_map_of_mem (Catalogue.mem_entries_of_find? hentry)
  rw [mentionedNames, mem_distinct, List.mem_flatMap]
  exact ⟨entry, hvalue, hchild⟩

/-- **The search meets exactly the names that chains of children lead to** from the start
element. -/
theorem mem_reachable_iff {name : String} :
    name ∈ schema.reachable ↔ schema.LeadsTo schema.start name := by
  have hstart : schema.start ∈ schema.reachable := mem_reachFrom_of_mem_pending List.mem_cons_self
  constructor
  · intro h
    obtain ⟨first, hfirst, hleads⟩ := exists_leadsTo_of_mem_reachFrom h
    rwa [List.mem_singleton.mp hfirst] at hleads
  · intro h
    induction h with
    | refl => exact hstart
    | @tail parent child _ hallows ih =>
      by_cases hchild : child = schema.start
      · rw [hchild]
        exact hstart
      · refine mem_reachFrom_of_allows ih hallows (List.mem_filter.mpr ⟨?_, decide_eq_true hchild⟩)
        exact mem_mentionedNames_of_allows hallows

/-! ### Issues -/

/-- **There are two kinds of warnings**: about an entry that no chain leads to, and about a child
without an entry. -/
theorem mem_issues_iff {issue : Issue} : issue ∈ schema.issues ↔
    (∃ name ∈ schema.elements.names, ¬ schema.LeadsTo schema.start name ∧
      issue = schema.unreachableIssue name) ∨
    (∃ entry ∈ schema.elements.values, ∃ child ∈ childNames entry, schema.find? child = none ∧
      issue = undeclaredIssue entry child) := by
  have hdeclared : ∀ child, (!schema.elements.contains child) = true ↔
      schema.find? child = none := by
    intro child
    rw [Catalogue.contains, Bool.not_eq_true', Option.isSome_eq_false_iff,
      Option.isNone_iff_eq_none]
    rfl
  have hreached : ∀ name, (!schema.reachable.contains name) = true ↔
      ¬ schema.LeadsTo schema.start name := by
    intro name
    rw [Bool.not_eq_true', ← Bool.not_eq_true, List.contains_iff_mem, mem_reachable_iff]
  simp only [issues, undeclaredChildren, List.mem_append, List.mem_map, List.mem_flatMap,
    List.mem_filter, hdeclared, hreached, and_assoc, eq_comm (a := issue)]

/-- Every warning is about a name without an entry, or one that no chain leads to. -/
theorem find?_eq_none_or_of_mem_issues {issue : Issue} (h : issue ∈ schema.issues) :
    schema.find? issue.element = none ∨ ¬ schema.LeadsTo schema.start issue.element := by
  rcases mem_issues_iff.mp h with ⟨name, -, hunreached, rfl⟩ | ⟨entry, -, child, -, hnone, rfl⟩
  · exact .inr hunreached
  · exact .inl hnone

/-! ### Valid documents -/

/-- A child element that is accepted is a token of the content of its parent. -/
theorem exists_entry_of_childElement {element child : Element}
    (hvalid : schema.validateElement element = []) (hdescends : schema.descendsInto element = true)
    (hchild : child ∈ element.childElements) :
    ∃ entry, schema.find? element.name = some entry ∧ child.name ∈ entry.expression.allowed := by
  obtain ⟨entry, hentry, hvalidates⟩ := (Option.any_eq_true _ _).mp hdescends
  have htoken : child.name ∈ contentTokens element.children := by
    obtain ⟨node, hnode, hchild⟩ := List.mem_filterMap.mp hchild
    refine List.mem_filterMap.mpr ⟨node, hnode, ?_⟩
    cases node with
    | element name attributes children =>
      obtain rfl := Option.some.inj hchild
      rfl
    | text content => cases hchild
    | cdata content => cases hchild
  rw [validateElement_of_find? hentry, if_pos hvalidates,
    ElementSchema.checkContent_eq_nil_iff] at hvalid
  refine ⟨entry, hentry, ?_⟩
  rcases hvalid with haccepts | ⟨-, hempty⟩
  · exact Expression.mem_allowed_of_accepts haccepts htoken
  · exact absurd (hempty ▸ htoken) List.not_mem_nil

/-- A child element that is accepted is allowed, unless its name is the token of character data. -/
theorem allows_of_validateElement {element child : Element}
    (hvalid : schema.validateElement element = []) (hdescends : schema.descendsInto element = true)
    (hchild : child ∈ element.childElements) (htext : child.name ≠ textToken) :
    schema.Allows element.name child.name := by
  obtain ⟨entry, hentry, hallowed⟩ := exists_entry_of_childElement hvalid hdescends hchild
  exact ⟨entry, hentry, mem_childNames_iff.mpr ⟨hallowed, htext⟩⟩

/-- A chain of children leads to each element that is reached, if all of them are without
violations. -/
theorem leadsTo_of_reaches (hname : schema.find? textToken = none) {root element : Element}
    (hvalid : ∀ inner, schema.Reaches root inner → schema.validateElement inner = [])
    (h : schema.Reaches root element) : schema.LeadsTo root.name element.name := by
  induction h with
  | self root => exact .refl
  | @child root child element hdescends hchild _ ih =>
    have hbelow : ∀ inner, schema.Reaches child inner → schema.validateElement inner = [] :=
      fun inner hinner => hvalid inner (.child hdescends hchild hinner)
    -- An element that has the token of character data as its name would be unknown.
    have htext : child.name ≠ textToken := by
      intro hsame
      exact validateElement_ne_nil (hsame ▸ hname) (hbelow child (.self child))
    exact (ih hbelow).head
      (allows_of_validateElement (hvalid root (.self root)) hdescends hchild htext)

/-- **No element of a valid document has a name with a warning.** Each element that is visited has
an entry, and a chain of children leads from the start element to it. -/
theorem issue_element_ne (hname : schema.find? textToken = none) {root element : Element}
    {verdict : Verdict} (hverdict : schema.documentVerdict (some root) = .ok verdict)
    (hok : verdict.ok = true) (hreaches : schema.Reaches root element) :
    (∃ entry, schema.find? element.name = some entry) ∧ schema.LeadsTo schema.start element.name ∧
      ∀ issue ∈ schema.issues, issue.element ≠ element.name := by
  obtain rfl : schema.rootVerdict root = verdict := Except.ok.inj hverdict
  obtain ⟨hstart, hvalid⟩ := (ok_rootVerdict_iff root).mp hok
  have hentry : ∃ entry, schema.find? element.name = some entry := by
    rw [← Option.ne_none_iff_exists']
    exact fun hnone => validateElement_ne_nil hnone (hvalid element hreaches)
  have hleads := leadsTo_of_reaches hname hvalid hreaches
  rw [hstart] at hleads
  refine ⟨hentry, hleads, fun issue hissue hsame => ?_⟩
  rcases find?_eq_none_or_of_mem_issues hissue with hnone | hunreached
  · obtain ⟨entry, hfound⟩ := hentry
    rw [hsame, hfound] at hnone
    cases hnone
  · exact hunreached (hsame ▸ hleads)

/-- A list of items that hold lists. One element is not reachable, and one child has no entry. -/
theorem issue_element_ne_nested :
    let expression (name : String) (tokens : List String) : Expression :=
      ⟨name, .kleene (.choice (tokens.map .token)),
        .single ⟨#[⟨tokens.map fun token => (token, 0), true⟩]⟩⟩
    let schema : Schema :=
      ⟨.ofList [("list", ⟨.element, [], expression "list" ["ghost", "item"]⟩),
        ("item", ⟨.text, [], expression "item" [textToken, "list"]⟩),
        ("old", ⟨.element, [], expression "old" ["item"]⟩)], "list", rfl⟩
    let item : Element := ⟨"item", .empty, [.text "one", .element "list" .empty []]⟩
    let root : Element := ⟨"list", .empty, [item.toNode]⟩
    schema.issues.map Issue.element = ["old", "ghost"] ∧
      (∃ verdict, schema.documentVerdict (some root) = .ok verdict ∧ verdict.ok = true) ∧
      schema.LeadsTo "list" item.name ∧ ∀ issue ∈ schema.issues, issue.element ≠ item.name := by
  intro expression schema item root
  have hissues : schema.issues.map Issue.element = ["old", "ghost"] := by cbv
  have hname : schema.find? textToken = none := rfl
  have hok : (schema.rootVerdict root).ok = true := by cbv
  have hreaches : schema.Reaches root item := .child rfl List.mem_cons_self (.self item)
  obtain ⟨-, hleads, hall⟩ := issue_element_ne hname rfl hok hreaches
  exact ⟨hissues, ⟨_, rfl, hok⟩, hleads, hall⟩

end RelaxSchema.Schema
