import Mathlib
import RelaxSchema.Proofs.Schema.Validation

/-!
# Which elements are validated, and in which order

An element of a document has an address: the indices, among the child elements, of the elements that
lead to it from the root. Shorter addresses first, and addresses of the same length in lexicographic
order, is level order with each level in document order.

`Schema.Covers` is the least set of addresses that holds the root and the child elements of what is
described, that is, of elements with an entry of type element or text (`Schema.covers_concat_iff`).
`Schema.documentVerdict_levelOrder` says that the queue visits the elements at these addresses, each
once and in that order, and that nothing else matters: `Schema.prune` takes away all other elements,
and documents that are equal after that get the same verdict.

The proof follows the levels (`exists_order`). All addresses of a level have the same length, and
the next level continues those of what is described by one index each, so it is sorted if the level
is, and comes behind it. What is taken away is a change that validation does not see
(`isUnseen_prune`).
-/

namespace RelaxSchema

/-! ### Addresses -/

namespace Element

/-- The element at an address. -/
def at? : Element → List Nat → Option Element
  | element, [] => some element
  | element, index :: rest => element.childElements[index]?.bind fun child => child.at? rest

/-- The step of a path that leads to the child element of an index: its name, and which one of that
name it is. -/
def step (element : Element) (index : Nat) : String :=
  match element.childElements[index]? with
  | none => ""
  | some child =>
    let count := (element.childElements.take (index + 1)).countP fun other =>
      other.name = child.name
    "/" ++ child.name ++ "[" ++ toString count ++ "]"

/-- The path from an element to that at an address. -/
def steps : Element → List Nat → String
  | _, [] => ""
  | element, index :: rest =>
    element.step index ++
      ((element.childElements[index]?.map fun child => child.steps rest).getD "")

/-- The path from the root to the element at an address. -/
def pathAt (root : Element) (address : List Nat) : String := "/" ++ root.name ++ root.steps address

theorem at?_append (element : Element) (address : List Nat) (index : Nat) :
    element.at? (address ++ [index]) =
      (element.at? address).bind fun parent => parent.childElements[index]? := by
  induction address generalizing element with
  | nil => simp [at?]
  | cons first rest ih =>
    rw [List.cons_append, at?, at?, Option.bind_assoc]
    exact congrArg _ (funext fun child => ih child)

theorem steps_append {element parent : Element} {address : List Nat} (index : Nat)
    (h : element.at? address = some parent) :
    element.steps (address ++ [index]) = element.steps address ++ parent.step index := by
  induction address generalizing element with
  | nil =>
    obtain rfl := Option.some.inj h
    cases hchild : element.childElements[index]? <;> simp [steps, hchild]
  | cons first rest ih =>
    obtain ⟨child, hchild, hrest⟩ := Option.bind_eq_some_iff.mp h
    rw [List.cons_append, steps, steps, hchild, Option.map_some, Option.map_some, Option.getD_some,
      Option.getD_some, ih hrest, String.append_assoc]

theorem pathAt_append {root parent : Element} {address : List Nat} (index : Nat)
    (h : root.at? address = some parent) :
    root.pathAt (address ++ [index]) = root.pathAt address ++ parent.step index := by
  rw [pathAt, pathAt, steps_append index h, ← String.append_assoc]

end Element

/-! ### Visits at addresses -/

/-- The paths of siblings count those of the same name that come before. -/
theorem Visit.getElem?_siblings {path : String} {seen : Catalogue Nat} {before rest : List Element}
    (hseen : ∀ name, (seen.find? name).getD 0 = before.countP fun other => other.name = name)
    (index : Nat) : (siblings path seen rest)[index]? = rest[index]?.map fun element =>
      let count := (before ++ rest.take (index + 1)).countP fun other => other.name = element.name
      ⟨element, path ++ ("/" ++ element.name ++ "[" ++ toString count ++ "]")⟩ := by
  induction rest generalizing seen before index with
  | nil => rfl
  | cons element rest ih =>
    have hcount : (seen.find? element.name).getD 0 + 1 =
        (before ++ [element]).countP fun other => other.name = element.name := by
      rw [hseen, List.countP_append]
      simp
    cases index with
    | zero =>
      simp only [siblings, List.getElem?_cons_zero, Option.map_some, Nat.zero_add,
        List.take_succ_cons, List.take_zero, hcount]
      simp [String.append_assoc, toString]
    | succ index =>
      rw [siblings, List.getElem?_cons_succ, List.getElem?_cons_succ, List.take_succ_cons]
      have hnext : ∀ name, ((seen.insert element.name
          ((seen.find? element.name).getD 0 + 1)).find? name).getD 0 =
            (before ++ [element]).countP fun other => other.name = name := by
        intro name
        rw [Catalogue.find?_insert]
        split
        · rename_i hname
          rw [hname, Option.getD_some, hcount]
        · rename_i hname
          rw [hseen, List.countP_append]
          simp [Ne.symm hname]
      rw [ih hnext index]
      simp only [List.append_assoc, List.singleton_append]

namespace Schema

/-- The visit to the element at an address. -/
def visitAt? (root : Element) (address : List Nat) : Option Visit :=
  (root.at? address).map fun element => ⟨element, root.pathAt address⟩

/-- The violations in the element at an address, with the path to it. -/
def violationsAt (schema : Schema) (root : Element) (address : List Nat) : List Violation :=
  ((root.at? address).map fun element => (schema.validateElement element).map fun violation =>
    { violation with path := some (root.pathAt address) }).getD []

/-- The addresses of the child elements that are validated with an element. -/
def continuations (schema : Schema) (root : Element) (address : List Nat) : List (List Nat) :=
  match root.at? address with
  | none => []
  | some element =>
    if schema.descendsInto element then
      (List.range element.childElements.length).map fun index => address ++ [index]
    else []

/-- The least set of addresses that holds the root, and with the address of an element of a type
whose content is validated those of its child elements. -/
inductive Covers (schema : Schema) (root : Element) : List Nat → Prop
  /-- The root. -/
  | root : Covers schema root []
  /-- A child element of a covered element that is described. -/
  | child {address : List Nat} {element : Element} {index : Nat} : Covers schema root address →
      root.at? address = some element → schema.descendsInto element = true →
      index < element.childElements.length → Covers schema root (address ++ [index])

variable {schema : Schema} {root : Element}

/-- Below a covered element those child elements are covered whose parent has an entry of type
element or text, and no others. -/
theorem covers_concat_iff {address : List Nat} {index : Nat} :
    schema.Covers root (address ++ [index]) ↔ schema.Covers root address ∧ ∃ element entry,
      root.at? address = some element ∧ index < element.childElements.length ∧
        schema.find? element.name = some entry ∧ (entry.type = .element ∨ entry.type = .text) := by
  constructor
  · intro h
    generalize hnext : address ++ [index] = next at h
    cases h with
    | root => exact absurd hnext (List.append_ne_nil_of_right_ne_nil address (List.cons_ne_nil _ _))
    | child hcovers hat hdescends hindex =>
      obtain ⟨rfl, hlast⟩ := List.append_inj' hnext rfl
      obtain rfl := List.singleton_inj.mp hlast
      obtain ⟨entry, hentry, htype⟩ := descendsInto_iff.mp hdescends
      exact ⟨hcovers, _, entry, hat, hindex, hentry, htype⟩
  · rintro ⟨hcovers, element, entry, hat, hindex, hentry, htype⟩
    exact .child hcovers hat (descendsInto_iff.mpr ⟨entry, hentry, htype⟩) hindex

theorem mem_continuations_iff {address next : List Nat} :
    next ∈ schema.continuations root address ↔ ∃ element index, root.at? address = some element ∧
      schema.descendsInto element = true ∧ index < element.childElements.length ∧
        next = address ++ [index] := by
  rw [continuations]
  cases hat : root.at? address with
  | none => simp
  | some element =>
    simp only [Option.some.injEq]
    split
    · rename_i hdescends
      simp only [List.mem_map, List.mem_range]
      constructor
      · rintro ⟨index, hindex, rfl⟩
        exact ⟨element, index, rfl, hdescends, hindex, rfl⟩
      · rintro ⟨_, index, rfl, -, hindex, rfl⟩
        exact ⟨index, hindex, rfl⟩
    · rename_i hdescends
      simp only [List.not_mem_nil, false_iff]
      rintro ⟨_, _, rfl, hdescends', -⟩
      exact hdescends hdescends'

theorem covers_iff {address : List Nat} : schema.Covers root address ↔
    Relation.ReflTransGen (fun before after => after ∈ schema.continuations root before)
      [] address := by
  constructor
  · intro h
    induction h with
    | root => exact .refl
    | child _ hat hdescends hindex ih =>
      exact ih.tail (mem_continuations_iff.mpr ⟨_, _, hat, hdescends, hindex, rfl⟩)
  · intro h
    induction h with
    | refl => exact .root
    | tail _ hstep ih =>
      obtain ⟨element, index, hat, hdescends, hindex, rfl⟩ := mem_continuations_iff.mp hstep
      exact .child ih hat hdescends hindex

theorem isSome_at?_of_mem_continuations {address next : List Nat}
    (h : next ∈ schema.continuations root address) : (root.at? next).isSome = true := by
  obtain ⟨element, index, hat, -, hindex, rfl⟩ := mem_continuations_iff.mp h
  rw [Element.at?_append, hat, Option.bind_some, List.getElem?_eq_getElem hindex]
  rfl

theorem filterMap_range_getElem? {α : Type} : ∀ entries : List α,
    ((List.range entries.length).filterMap fun index => entries[index]?) = entries
  | [] => rfl
  | entry :: rest => by
    have ih := filterMap_range_getElem? rest
    rw [List.length_cons, List.range_succ_eq_map, List.filterMap_cons, List.getElem?_cons_zero,
      List.filterMap_map]
    exact congrArg _ ih

/-- The visits that follow one are at the addresses that continue its own. -/
theorem next_eq_filterMap {address : List Nat} {visit : Visit}
    (h : visitAt? root address = some visit) :
    visit.next schema = (schema.continuations root address).filterMap (visitAt? root) := by
  obtain ⟨element, hat, rfl⟩ := Option.map_eq_some_iff.mp h
  rw [Visit.next, continuations, hat]
  show (if schema.descendsInto element = true then _ else _) = List.filterMap _ (if _ then _ else _)
  split
  · have hseen : ∀ name, ((Catalogue.empty.find? name).getD 0) =
        ([] : List Element).countP fun other => other.name = name := fun name => rfl
    have hlength : element.childElements.length =
        (Visit.siblings (root.pathAt address) .empty element.childElements).length := by
      rw [← List.length_map Visit.element, Visit.map_element_siblings]
    have hvisit : ∀ index, visitAt? root (address ++ [index]) =
        (Visit.siblings (root.pathAt address) .empty element.childElements)[index]? := by
      intro index
      rw [Visit.getElem?_siblings hseen, visitAt?, Element.at?_append, hat, Option.bind_some,
        Element.pathAt_append index hat, Element.step]
      cases hchild : element.childElements[index]? <;> rfl
    rw [List.filterMap_map, hlength]
    simp only [Function.comp_def, hvisit]
    exact (filterMap_range_getElem? _).symm
  · rfl

/-- The next level is at the addresses that continue those of a level. -/
theorem nextLevel_filterMap (level : List (List Nat)) :
    Visit.nextLevel schema (level.filterMap (visitAt? root)) =
      (level.flatMap (schema.continuations root)).filterMap (visitAt? root) := by
  induction level with
  | nil => rfl
  | cons address rest ih =>
    rw [List.flatMap_cons, List.filterMap_append, ← ih]
    cases hvisit : visitAt? root address with
    | none =>
      have hat : root.at? address = none := Option.map_eq_none_iff.mp hvisit
      rw [List.filterMap_cons_none hvisit, continuations, hat]
      rfl
    | some visit => rw [List.filterMap_cons_some hvisit, ← next_eq_filterMap hvisit]; rfl

/-! ### The order -/

/-- The level below a sorted level of addresses of one length is sorted. -/
theorem pairwise_flatMap_continuations {level : List (List Nat)} {length : Nat}
    (hlength : ∀ address ∈ level, address.length = length) (h : level.Pairwise (List.Lex (· < ·))) :
    (level.flatMap (schema.continuations root)).Pairwise (List.Lex (· < ·)) := by
  refine List.pairwise_flatMap.mpr ⟨fun address _ => ?_, ?_⟩
  · rw [continuations]
    split
    · exact .nil
    · split
      · refine List.pairwise_map.mpr (List.pairwise_lt_range.imp fun hlt => ?_)
        exact List.Lex.append_left _ (.rel hlt) address
      · exact .nil
  · refine h.imp_of_mem fun hbefore hafter hlex next hnext other hother => ?_
    obtain ⟨_, index, -, -, -, rfl⟩ := mem_continuations_iff.mp hnext
    obtain ⟨_, index', -, -, -, rfl⟩ := mem_continuations_iff.mp hother
    exact lex_append ((hlength _ hbefore).trans (hlength _ hafter).symm) hlex _ _

theorem violations_visitAt? {address : List Nat} {visit : Visit}
    (h : visitAt? root address = some visit) :
    (visit.verdict schema).violations = schema.violationsAt root address := by
  obtain ⟨element, hat, rfl⟩ := Option.map_eq_some_iff.mp h
  rw [violationsAt, hat]
  rfl

theorem flatMap_violations {level : List (List Nat)} :
    ((level.filterMap (visitAt? root)).flatMap fun visit => (visit.verdict schema).violations) =
      level.flatMap (schema.violationsAt root) := by
  induction level with
  | nil => rfl
  | cons address rest ih =>
    rw [List.flatMap_cons, ← ih]
    cases hvisit : visitAt? root address with
    | none =>
      have hat : root.at? address = none := Option.map_eq_none_iff.mp hvisit
      rw [List.filterMap_cons_none hvisit, violationsAt, hat]
      rfl
    | some visit =>
      rw [List.filterMap_cons_some hvisit, List.flatMap_cons, violations_visitAt? hvisit]

/-- A level leads to visits at the addresses that its addresses lead to, in level order. -/
theorem exists_order {level : List (List Nat)} {length : Nat}
    (hlength : ∀ address ∈ level, address.length = length)
    (hat : ∀ address ∈ level, (root.at? address).isSome = true)
    (hlevel : level.Pairwise (List.Lex (· < ·))) :
    ∃ order : List (List Nat), order.Pairwise (List.Shortlex (· < ·)) ∧
      (∀ address ∈ order, length ≤ address.length) ∧
      (∀ address, address ∈ order ↔ ∃ start ∈ level, Relation.ReflTransGen
        (fun before after => after ∈ schema.continuations root before) start address) ∧
      schema.visits (level.filterMap (visitAt? root)) = order.filterMap (visitAt? root) := by
  induction hvisits : level.filterMap (visitAt? root) using validateLevels.induct schema
    generalizing level length with
  | case1 =>
    -- Nothing is visited, so the level has no addresses.
    have hnil : level = [] := by
      refine List.eq_nil_iff_forall_not_mem.mpr fun address hmem => ?_
      have hnone := List.filterMap_eq_nil_iff.mp hvisits address hmem
      simp [visitAt?, Option.isSome_iff_ne_none.mp (hat address hmem)] at hnone
    subst hnil
    exact ⟨[], .nil, by simp, by simp, by rw [visits]; rfl⟩
  | case2 visits hne ih =>
    subst hvisits
    have hnext : ∀ next ∈ level.flatMap (schema.continuations root), ∃ address ∈ level,
        next ∈ schema.continuations root address := fun next => List.mem_flatMap.mp
    have hnextLength : ∀ next ∈ level.flatMap (schema.continuations root),
        next.length = length + 1 := by
      intro next hmem
      obtain ⟨address, haddress, hmem⟩ := hnext next hmem
      obtain ⟨_, index, -, -, -, rfl⟩ := mem_continuations_iff.mp hmem
      rw [List.length_append, List.length_singleton, hlength address haddress]
    have hnextAt : ∀ next ∈ level.flatMap (schema.continuations root),
        (root.at? next).isSome = true := by
      intro next hmem
      obtain ⟨address, -, hmem⟩ := hnext next hmem
      exact isSome_at?_of_mem_continuations hmem
    obtain ⟨below, hbelow, hlonger, hmem, hvisits⟩ := ih hnextLength hnextAt
      (pairwise_flatMap_continuations hlength hlevel) (nextLevel_filterMap level).symm
    -- The level comes first: all that is below it has longer addresses.
    refine ⟨level ++ below, List.pairwise_append.mpr ⟨?_, hbelow, ?_⟩, ?_, fun address => ?_, ?_⟩
    · exact hlevel.imp_of_mem fun hbefore hafter hlex =>
        List.Shortlex.of_lex ((hlength _ hbefore).trans (hlength _ hafter).symm) hlex
    · intro address haddress other hother
      refine List.Shortlex.of_length_lt ?_
      have hshort := hlength address haddress
      have hlong := hlonger other hother
      omega
    · intro address haddress
      rcases List.mem_append.mp haddress with haddress | haddress
      · exact (hlength address haddress).ge
      · exact Nat.le_of_succ_le (hlonger address haddress)
    · -- A way down from the level ends there, or leads on through the next one.
      rw [List.mem_append, hmem]
      constructor
      · rintro (haddress | ⟨next, hmem, hpath⟩)
        · exact ⟨address, haddress, .refl⟩
        · obtain ⟨start, hstart, hstep⟩ := hnext next hmem
          exact ⟨start, hstart, .head hstep hpath⟩
      · rintro ⟨start, hstart, hpath⟩
        rcases Relation.ReflTransGen.cases_head_iff.mp hpath with rfl | ⟨next, hstep, hpath⟩
        · exact Or.inl hstart
        · exact Or.inr ⟨next, List.mem_flatMap.mpr ⟨start, hstart, hstep⟩, hpath⟩
    · rw [visits_eq_append_nextLevel, hvisits, List.filterMap_append]

/-! ### What does not matter -/

end Schema

mutual

/-- A node without the content of the elements in it whose content is not validated. -/
def Node.prune (schema : Schema) : Node → Node
  | .element name attributes children =>
    .element name attributes
      (if schema.descendsInto ⟨name, attributes, children⟩
        then Node.pruneAll schema children else [])
  | .text content => .text content
  | .cdata content => .cdata content

/-- Several nodes without the content that is not validated. -/
def Node.pruneAll (schema : Schema) : List Node → List Node
  | [] => []
  | node :: rest => Node.prune schema node :: Node.pruneAll schema rest

end

namespace Schema

/-- An element without the content that is not validated, its own included. -/
def prune (schema : Schema) (element : Element) : Element :=
  { element with
    children :=
      if schema.descendsInto element then Node.pruneAll schema element.children else [] }

variable {schema : Schema} {root : Element}

theorem token?_prune (node : Node) : (node.prune schema).token? = node.token? := by
  cases node <;> rfl

theorem contentTokens_pruneAll (nodes : List Node) :
    contentTokens (Node.pruneAll schema nodes) = contentTokens nodes := by
  rw [contentTokens, contentTokens]
  induction nodes with
  | nil => rfl
  | cons node rest ih => rw [Node.pruneAll, List.filterMap_cons, token?_prune,
      List.filterMap_cons, ih]

theorem element?_prune (node : Node) :
    (node.prune schema).element? = node.element?.map schema.prune := by
  cases node <;> rfl

theorem childElements_prune {element : Element} (h : schema.descendsInto element = true) :
    (schema.prune element).childElements = element.childElements.map schema.prune := by
  rw [Element.childElements, Element.childElements, prune, if_pos h]
  show List.filterMap Node.element? (Node.pruneAll schema element.children) = _
  induction element.children with
  | nil => rfl
  | cons node rest ih =>
    rw [Node.pruneAll, List.filterMap_cons, element?_prune, List.filterMap_cons, ih]
    cases node.element? <;> rfl

theorem isUnseen_prune (schema : Schema) : schema.IsUnseen schema.prune where
  name_eq _ := rfl
  contentTokens_eq element hdescends := by
    rw [prune, if_pos hdescends]
    exact contentTokens_pruneAll element.children
  childElements_eq _ hdescends := childElements_prune hdescends

theorem documentVerdict_prune (root : Element) :
    schema.documentVerdict (some (schema.prune root)) = schema.documentVerdict (some root) :=
  schema.isUnseen_prune.documentVerdict_eq root

theorem isSome_at?_of_covers {address : List Nat} (h : schema.Covers root address) :
    (root.at? address).isSome = true := by
  cases h with
  | root => rfl
  | child _ hat _ hindex =>
    rw [Element.at?_append, hat, Option.bind_some, List.getElem?_eq_getElem hindex]
    rfl

theorem at?_prune {address : List Nat} (h : schema.Covers root address) :
    (schema.prune root).at? address = (root.at? address).map schema.prune := by
  induction h with
  | root => rfl
  | child _ hat hdescends _ ih =>
    rw [Element.at?_append, Element.at?_append, ih, hat, Option.map_some, Option.bind_some,
      Option.bind_some, childElements_prune hdescends, List.getElem?_map]

/-- What is left is what is covered. -/
theorem isSome_at?_prune_iff {address : List Nat} :
    ((schema.prune root).at? address).isSome = true ↔ schema.Covers root address := by
  constructor
  · -- From the end of the address, because what is covered is so by its parent.
    induction address using List.reverseRecOn with
    | nil => exact fun _ => .root
    | append_singleton address index ih =>
      intro h
      rw [Element.at?_append] at h
      obtain ⟨child, hchild⟩ := Option.isSome_iff_exists.mp h
      obtain ⟨parent, hparent, hchild⟩ := Option.bind_eq_some_iff.mp hchild
      have hcovers : schema.Covers root address := ih (Option.isSome_of_eq_some hparent)
      rw [at?_prune hcovers] at hparent
      obtain ⟨element, hat, rfl⟩ := Option.map_eq_some_iff.mp hparent
      by_cases hdescends : schema.descendsInto element = true
      · rw [childElements_prune hdescends, List.getElem?_map] at hchild
        obtain ⟨inner, hinner, -⟩ := Option.map_eq_some_iff.mp hchild
        exact .child hcovers hat hdescends (List.getElem?_eq_some_iff.mp hinner).1
      · have hnone : (schema.prune element).childElements = [] := by
          rw [Element.childElements, prune, if_neg hdescends]
          rfl
        simp [hnone] at hchild
  · intro h
    rw [at?_prune h, Option.isSome_map]
    exact isSome_at?_of_covers h

/-! ### Documents -/

theorem violationsAt_eq_nil_iff {address : List Nat} : schema.violationsAt root address = [] ↔
    ∀ element, root.at? address = some element → (schema.elementVerdict element).ok = true := by
  rw [violationsAt]
  cases hat : root.at? address with
  | none => simp
  | some element =>
    have hexact : (schema.elementVerdict element).ok = true ↔ schema.validateElement element = [] :=
      (isExact_elementVerdict schema element).ok_iff
    simp [hexact]

theorem kind_checkStart (root : Element) : (schema.checkStart root).map Violation.kind =
    if root.name = schema.start then [] else [.startElement] := by
  rw [checkStart]
  split <;> rfl

/-- The visits that the validation of a document makes. -/
def documentVisits (schema : Schema) (root : Element) : List Visit :=
  schema.visits [⟨root, "/" ++ root.name⟩]

/-- The visits are at the addresses that are covered. -/
theorem exists_order_documentVisits (schema : Schema) (root : Element) : ∃ order : List (List Nat),
    order.Pairwise (List.Shortlex (· < ·)) ∧
      (∀ address, address ∈ order ↔ schema.Covers root address) ∧
      schema.documentVisits root = order.filterMap (visitAt? root) := by
  have hlevel : [([] : List Nat)].filterMap (visitAt? root) = [⟨root, "/" ++ root.name⟩] := by
    have hpath : root.pathAt [] = "/" ++ root.name := String.append_empty
    rw [← hpath]
    rfl
  obtain ⟨order, hsorted, -, hmem, hvisits⟩ := @exists_order schema root [[]] 0
    (by simp) (by simp [Element.at?]) (List.pairwise_singleton _ _)
  refine ⟨order, hsorted, fun address => ?_, ?_⟩
  · rw [hmem, covers_iff]
    simp
  · rw [documentVisits, ← hlevel, hvisits]

/-- The verdict on a document, with the order of the addresses that are covered. -/
theorem exists_order_rootVerdict (schema : Schema) (root : Element) : ∃ order : List (List Nat),
    order.Pairwise (List.Shortlex (· < ·)) ∧
      (∀ address, address ∈ order ↔ schema.Covers root address) ∧
      (schema.rootVerdict root).violations =
        schema.checkStart root ++ order.flatMap (schema.violationsAt root) := by
  obtain ⟨order, hsorted, hmem, hvisits⟩ := exists_order_documentVisits schema root
  refine ⟨order, hsorted, hmem, ?_⟩
  rw [rootVerdict, drain_eq_judge, violations_judge, ← documentVisits, hvisits, flatMap_violations]
  rfl

/-- **A document is validated in level order, and just as far as it is described.** -/
theorem documentVerdict_levelOrder (schema : Schema) (root : Element) :
    ∃ verdict, schema.documentVerdict (some root) = .ok verdict ∧
      (∃ order : List (List Nat), order.Pairwise (List.Shortlex (· < ·)) ∧
        (∀ address, address ∈ order ↔ schema.Covers root address) ∧
        verdict.violations = schema.checkStart root ++ order.flatMap (schema.violationsAt root)) ∧
      (schema.checkStart root).map Violation.kind =
        (if root.name = schema.start then [] else [.startElement]) ∧
      (verdict.ok = true ↔ root.name = schema.start ∧ ∀ address element,
        schema.Covers root address → root.at? address = some element →
          (schema.elementVerdict element).ok = true) ∧
      (∀ address, ((schema.prune root).at? address).isSome = true ↔ schema.Covers root address) ∧
      (∀ other, schema.prune other = schema.prune root →
        schema.documentVerdict (some other) = .ok verdict) := by
  obtain ⟨order, hsorted, hmem, hviolations⟩ := exists_order_rootVerdict schema root
  refine ⟨schema.rootVerdict root, rfl, ⟨order, hsorted, hmem, hviolations⟩, kind_checkStart root,
    ?_, fun address => isSome_at?_prune_iff, fun other hother => ?_⟩
  · rw [(isExact_rootVerdict schema root).ok_iff, hviolations, List.append_eq_nil_iff,
      checkStart_eq_nil_iff, List.flatMap_eq_nil_iff]
    refine and_congr_right fun _ => ?_
    constructor
    · intro hall address element hcovers
      exact violationsAt_eq_nil_iff.mp (hall address ((hmem address).mpr hcovers)) element
    · intro hall address hin
      exact violationsAt_eq_nil_iff.mpr fun element => hall address element ((hmem address).mp hin)
  · rw [← documentVerdict_prune other, hother, documentVerdict_prune]
    rfl

end Schema

end RelaxSchema
