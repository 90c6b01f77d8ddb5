import Mathlib
import RelaxSchema.Proofs.Store.Path
import RelaxSchema.Proofs.Content.Allowed
import RelaxSchema.Proofs.Schema.LevelOrder

/-!
# Paths of elements

A path is read from its text alone: it is split at its slashes, the first part is the name of the
root, and a part `name[count]` leads to the child element that is the one of that number among those
of that name.

* `Element.locate?_pathAt`: where no name holds a slash, the path of an element leads back to it;
* `Schema.documentVisits_paths`: so the elements that are visited have different paths, and each
  report has the path and the name of the element that it is about.

Names may hold brackets and digits. A part is read from its end, where the last opening bracket is
the one in front of the count.
-/

namespace RelaxSchema

open List

namespace Element

/-! ### Reading a path -/

/-- The name and the count in a part of a path. -/
def readStep? (step : List Char) : Option (String × Nat) :=
  match step.reverse with
  | ']' :: rest =>
    match rest.dropWhile (· ≠ '[') with
    | [] => none
    | _ :: name => (String.ofList (rest.takeWhile (· ≠ '[')).reverse).toNat?.map fun count =>
      (String.ofList name.reverse, count)
  | _ => none

/-- The index of the child element of a number among those of a name. Numbers begin with one. -/
def childIndex? (element : Element) (name : String) : Nat → Option Nat
  | 0 => none
  | count + 1 => (element.childElements.findIdxs fun child => child.name = name)[count]?

/-- The address that some parts of a path lead to from an element. -/
def follow? : Element → List (List Char) → Option (List Nat)
  | _, [] => some []
  | element, step :: rest =>
    (readStep? step).bind fun (name, count) =>
      (element.childIndex? name count).bind fun index =>
        element.childElements[index]?.bind fun child => (child.follow? rest).map fun address =>
          index :: address

/-- The address that a path leads to from the root. -/
def locate? (root : Element) (path : String) : Option (List Nat) :=
  match Path.split path.toList with
  | [] :: name :: steps => if name = root.name.toList then root.follow? steps else none
  | _ => none

/-! ### Paths are read back -/

theorem isDigit_of_mem_toString {c : Char} {count : Nat} (h : c ∈ (toString count).toList) :
    c.isDigit = true := by
  have htext : (toString count).toList = Nat.toDigits 10 count := String.toList_ofList
  rw [htext] at h
  exact Nat.isDigit_of_mem_toDigits (by decide) (Nat.le_refl _) h

theorem readStep?_append (name : String) (count : Nat) :
    readStep? (name.toList ++ '[' :: (toString count).toList ++ [']']) = some (name, count) := by
  have hdigits : ∀ c ∈ (toString count).toList.reverse, decide (c ≠ '[') = true := by
    intro c hc
    rw [decide_eq_true_iff]
    rintro rfl
    exact absurd (isDigit_of_mem_toString (mem_reverse.mp hc)) (by decide)
  have hreverse : (name.toList ++ '[' :: (toString count).toList ++ [']']).reverse =
      ']' :: ((toString count).toList.reverse ++ '[' :: name.toList.reverse) := by simp
  have hread : (String.ofList (toString count).toList).toNat? = some count := by
    rw [String.ofList_toList]
    exact Nat.toNat?_repr count
  rw [readStep?, hreverse]
  simp only
  rw [dropWhile_append_of_pos hdigits, takeWhile_append_of_pos hdigits,
    dropWhile_cons_of_neg (by simp), takeWhile_cons_of_neg (by simp), append_nil,
    reverse_reverse, hread]
  show some (String.ofList name.toList.reverse.reverse, count) = some (name, count)
  rw [reverse_reverse, String.ofList_toList]

/-- A child element is the one of its number among those of its name. -/
theorem childIndex?_countP {element child : Element} {index : Nat}
    (h : element.childElements[index]? = some child) : element.childIndex? child.name
      ((element.childElements.take (index + 1)).countP fun other => other.name = child.name) =
        some index := by
  obtain ⟨hindex, hchild⟩ := List.getElem?_eq_some_iff.mp h
  let before := element.childElements.countPBefore (fun other => other.name = child.name) index
  have hcount : ((element.childElements.take (index + 1)).countP fun other =>
      other.name = child.name) = before + 1 := by
    rw [take_add_one, h, countP_append, ← countPBefore_eq_countP_take]
    simp [before]
  have hfound : element.childElements.findIdxNth (fun other => other.name = child.name)
      before = index :=
    findIdxNth_countPBefore_of_lt_length_of_pos (h := hindex)
      (decide_eq_true (congrArg name hchild))
  have hbefore : before < (element.childElements.findIdxs fun other =>
      other.name = child.name).length := by
    rw [length_findIdxs, ← findIdxNth_lt_length_iff, hfound]
    exact hindex
  rw [hcount, childIndex?, getElem?_eq_getElem hbefore, getElem_findIdxs_eq_findIdxNth, hfound]

/-- The parts of a path behind a text, which are read as the address. -/
theorem exists_follow? {element : Element} {address : List Nat}
    (hslash : ∀ inner, element.Contains inner → '/' ∉ inner.name.toList)
    (h : (element.at? address).isSome = true) : ∃ parts, element.follow? parts = some address ∧
      ∀ front, Path.split (front ++ (element.steps address).toList) =
        Path.split front ++ parts := by
  induction address generalizing element with
  | nil => exact ⟨[], rfl, fun front => by simp [steps]⟩
  | cons index rest ih =>
    obtain ⟨target, hat⟩ := Option.isSome_iff_exists.mp h
    obtain ⟨child, hchild, hrest⟩ := Option.bind_eq_some_iff.mp hat
    have hmem : child ∈ element.childElements := mem_of_getElem? hchild
    obtain ⟨parts, hfollow, hsplit⟩ := ih (fun inner hinner => hslash inner (.child hmem hinner))
      (Option.isSome_iff_exists.mpr ⟨target, hrest⟩)
    let count := (element.childElements.take (index + 1)).countP fun other =>
      other.name = child.name
    let part := child.name.toList ++ '[' :: (toString count).toList ++ [']']
    have hpart : '/' ∉ part := by
      have hname := hslash child (.child hmem (.self child))
      have hdigits : '/' ∉ (toString count).toList :=
        fun hin => absurd (isDigit_of_mem_toString hin) (by decide)
      simp only [part, mem_append, mem_cons, not_mem_nil, or_false, not_or]
      exact ⟨⟨hname, by decide, hdigits⟩, by decide⟩
    refine ⟨part :: parts, ?_, fun front => ?_⟩
    · rw [follow?, readStep?_append, Option.bind_some]
      dsimp only
      rw [childIndex?_countP hchild, Option.bind_some, hchild, Option.bind_some, hfollow,
        Option.map_some]
    · have hsteps : (element.steps (index :: rest)).toList =
          '/' :: (part ++ (child.steps rest).toList) := by
        rw [steps, step, hchild]
        simp [part, count]
      rw [hsteps, Path.split_append_slash, hsplit, Path.split_of_slash_notMem hpart]
      rfl

/-- **The path of an element leads back to it.** -/
theorem locate?_pathAt {root : Element} {address : List Nat}
    (hslash : ∀ inner, root.Contains inner → '/' ∉ inner.name.toList)
    (h : (root.at? address).isSome = true) : root.locate? (root.pathAt address) = some address := by
  obtain ⟨parts, hfollow, hsplit⟩ := exists_follow? hslash h
  have htext : (root.pathAt address).toList =
      [] ++ '/' :: (root.name.toList ++ (root.steps address).toList) := by
    rw [pathAt, String.toList_append, String.toList_append]
    rfl
  have hname := Path.split_of_slash_notMem (hslash root (.self root))
  rw [locate?, htext, Path.split_append_slash, hsplit, hname]
  show (if root.name.toList = root.name.toList then root.follow? parts else none) = some address
  rw [if_pos rfl, hfollow]

end Element

/-! ### Reports -/

/-- All reports on the content of an element have the name of its expression. -/
theorem ElementSchema.element_of_mem_checkContent {entry : ElementSchema} {element : Element}
    {violation : Violation} (h : violation ∈ entry.checkContent element) :
    violation.element = some entry.name := by
  have hrefusal : ∀ run token, (entry.expression.refusal run token).element = some entry.name := by
    intro run token
    unfold Expression.refusal
    split
    · rfl
    · split <;> rfl
  obtain ⟨reports, hreports, hall⟩ := entry.expression.forall₂_refused
    (R := fun report _ => report.element = some entry.name) hrefusal
    (contentTokens element.children) entry.expression.initial
  rw [checkContent, hreports] at h
  rcases mem_append.mp h with hin | hmissing
  · have hreport : violation ∈ reports := by simpa [Expression.initial] using hin
    obtain ⟨_, -, hname⟩ := exists_right_of_forall₂ hall hreport
    exact hname
  · split at hmissing
    · exact absurd hmissing not_mem_nil
    · obtain rfl := mem_singleton.mp hmissing
      rfl

namespace Schema

variable {schema : Schema} {root : Element}

theorem element_of_mem_validateElement
    (hnames : ∀ name entry, schema.find? name = some entry → entry.name = name)
    {element : Element} {violation : Violation} (h : violation ∈ schema.validateElement element) :
    violation.element = some element.name := by
  cases hentry : schema.find? element.name with
  | none =>
    rw [validateElement, elementVerdict, hentry] at h
    obtain rfl := mem_singleton.mp h
    rfl
  | some entry =>
    rw [validateElement_of_find? hentry] at h
    split at h
    · rw [ElementSchema.element_of_mem_checkContent h, hnames element.name entry hentry]
    · exact absurd h not_mem_nil

/-- Each report on a document has the path and the name of an element that is visited. -/
theorem exists_visit_of_mem_violations
    (hnames : ∀ name entry, schema.find? name = some entry → entry.name = name)
    {violation : Violation} (h : violation ∈ (schema.rootVerdict root).violations) :
    ∃ visit ∈ schema.documentVisits root,
      violation.path = some visit.path ∧ violation.element = some visit.element.name := by
  rw [rootVerdict, drain_eq_judge, violations_judge] at h
  rcases mem_append.mp h with hstart | hin
  · have hroot : (⟨root, "/" ++ root.name⟩ : Visit) ∈ schema.documentVisits root := by
      rw [documentVisits, visits]
      exact mem_cons_self
    have hreport : violation ∈ schema.checkStart root := hstart
    rw [checkStart] at hreport
    split at hreport
    · exact absurd hreport not_mem_nil
    · obtain rfl := mem_singleton.mp hreport
      exact ⟨_, hroot, rfl, rfl⟩
  · obtain ⟨visit, hvisit, hin⟩ := mem_flatMap.mp hin
    obtain ⟨report, hreport, rfl⟩ := mem_map.mp hin
    have hname : report.element = some visit.element.name :=
      element_of_mem_validateElement hnames hreport
    exact ⟨visit, hvisit, rfl, hname⟩

/-! ### Visits -/

theorem mem_documentVisits_iff {visit : Visit} : visit ∈ schema.documentVisits root ↔
    ∃ address, schema.Covers root address ∧ visitAt? root address = some visit := by
  obtain ⟨order, -, hcovers, hvisits⟩ := exists_order_documentVisits schema root
  simp only [hvisits, mem_filterMap, hcovers]

theorem locate?_of_visitAt? (hslash : ∀ element, root.Contains element → '/' ∉ element.name.toList)
    {address : List Nat} {visit : Visit} (h : visitAt? root address = some visit) :
    root.locate? visit.path = some address ∧ root.at? address = some visit.element := by
  obtain ⟨element, hat, rfl⟩ := Option.map_eq_some_iff.mp h
  exact ⟨Element.locate?_pathAt hslash (Option.isSome_iff_exists.mpr ⟨element, hat⟩), hat⟩

/-- Two visits of one path would be at one address, and no address comes twice. -/
theorem nodup_map_path (hslash : ∀ element, root.Contains element → '/' ∉ element.name.toList) :
    ((schema.documentVisits root).map Visit.path).Nodup := by
  obtain ⟨order, hsorted, -, hvisits⟩ := exists_order_documentVisits schema root
  have hnodup : order.Nodup := hsorted.imp fun hless hsame => by
    subst hsame
    exact List.Shortlex.asymm.asymm _ _ hless hless
  rw [hvisits, map_filterMap]
  refine Nodup.filterMap (fun address other path hpath hother => ?_) hnodup
  obtain ⟨visit, hvisit, rfl⟩ := Option.map_eq_some_iff.mp hpath
  obtain ⟨visit', hvisit', hsame⟩ := Option.map_eq_some_iff.mp hother
  have hread := (locate?_of_visitAt? hslash hvisit').1
  rw [hsame, (locate?_of_visitAt? hslash hvisit).1] at hread
  exact Option.some.inj hread

/-- **The visited elements have different paths, which lead back to them, and each report names its
element.** Let each entry of a schema be stored under its own name, and no name in a document hold a
slash. Then the paths of the visits that are judged are all different. Read from its text, the path
of a visit leads to the address of the element that is visited, and these are the addresses that are
covered. Each report has the path of a visit and the name of the element there. -/
theorem documentVisits_paths
    (hnames : ∀ name entry, schema.find? name = some entry → entry.name = name)
    (hslash : ∀ element, root.Contains element → '/' ∉ element.name.toList) :
    let visits := schema.documentVisits root
    let start := Verdict.ofViolations (schema.checkStart root)
    let verdict := schema.judge (Verdict.valid.merge start) visits
    schema.documentVerdict (some root) = .ok verdict ∧
    (visits.map Visit.path).Nodup ∧
    (∀ visit ∈ visits, ∃ address, root.locate? visit.path = some address ∧
      root.at? address = some visit.element) ∧
    (∀ address, schema.Covers root address ↔ ∃ visit ∈ visits,
      root.locate? visit.path = some address) ∧ ∀ violation ∈ verdict.violations, ∃ visit ∈ visits,
      violation.path = some visit.path ∧ violation.element = some visit.element.name := by
  intro visits start verdict
  have hverdict : schema.rootVerdict root = verdict := drain_eq_judge _ _
  refine ⟨congrArg Except.ok hverdict, nodup_map_path hslash, fun visit hvisit => ?_,
    fun address => ⟨fun hcovered => ?_, ?_⟩, fun violation hviolation => ?_⟩
  · obtain ⟨address, -, hat⟩ := mem_documentVisits_iff.mp hvisit
    exact ⟨address, locate?_of_visitAt? hslash hat⟩
  · obtain ⟨element, hat⟩ := Option.isSome_iff_exists.mp (isSome_at?_of_covers hcovered)
    have hvisit : visitAt? root address = some ⟨element, root.pathAt address⟩ := by
      rw [visitAt?, hat]
      rfl
    exact ⟨_, mem_documentVisits_iff.mpr ⟨address, hcovered, hvisit⟩,
      (locate?_of_visitAt? hslash hvisit).1⟩
  · rintro ⟨visit, hvisit, hread⟩
    obtain ⟨other, hcovered, hat⟩ := mem_documentVisits_iff.mp hvisit
    obtain rfl : other = address :=
      Option.some.inj ((locate?_of_visitAt? hslash hat).1.symm.trans hread)
    exact hcovered
  · exact exists_visit_of_mem_violations hnames (hverdict ▸ hviolation)

/-- A name that ends like a step: the first `a[1]` is told from the first `a`. -/
theorem documentVisits_paths_brackets :
    let expression (name : String) (tokens : List String) : Expression :=
      ⟨name, .kleene (.choice (tokens.map .token)),
        .single ⟨#[⟨tokens.map fun token => (token, 0), true⟩]⟩⟩
    let schema : Schema := ⟨.ofList [("p", ⟨.element, [], expression "p" ["a", "a[1]"]⟩),
      ("a", ⟨.element, [], expression "a" []⟩)], "p", rfl⟩
    let child (name : String) (children : List Node) : Node := .element name .empty children
    let root : Element := ⟨"p", .empty, [child "a" [], child "a[1]" [], child "a" [.text "x"]]⟩
    let visits := schema.documentVisits root
    visits.map Visit.path = ["/p", "/p/a[1]", "/p/a[1][1]", "/p/a[2]"] ∧
      (visits.map Visit.path).Nodup ∧
      (∀ visit ∈ visits, ∃ address, root.locate? visit.path = some address ∧
        root.at? address = some visit.element) ∧
      (schema.rootVerdict root).violations.map
        (fun violation => (violation.path, violation.element)) =
        [(some "/p/a[1][1]", some "a[1]"), (some "/p/a[2]", some "a")] := by
  intro expression schema child root visits
  have hnames : ∀ name entry, schema.find? name = some entry → entry.name = name := by
    intro name entry hentry
    have hmem : (name, entry) ∈ schema.elements.entries := Catalogue.mem_entries_of_find? hentry
    rcases mem_cons.mp hmem with heq | hmem
    · cases heq
      rfl
    · cases mem_singleton.mp hmem
      rfl
  have hslash : ∀ element, root.Contains element → '/' ∉ element.name.toList := by
    have hleaf : ∀ {element inner : Element}, element.childElements = [] → element.Contains inner →
        inner = element := by
      intro element inner hnone hcontains
      cases hcontains with
      | self => rfl
      | child hmem _ => exact absurd (hnone ▸ hmem) not_mem_nil
    intro element hcontains
    cases hcontains with
    | self => decide
    | child hmem hcontains =>
      have hchildren : root.childElements = [⟨"a", .empty, []⟩, ⟨"a[1]", .empty, []⟩,
        ⟨"a", .empty, [.text "x"]⟩] := rfl
      simp only [hchildren, mem_cons, not_mem_nil, or_false] at hmem
      rcases hmem with rfl | rfl | rfl <;> rw [hleaf rfl hcontains] <;> decide
  have hpaths : (schema.documentVisits root).map Visit.path =
      ["/p", "/p/a[1]", "/p/a[1][1]", "/p/a[2]"] := by
    cbv
  have hreports : (schema.rootVerdict root).violations.map
      (fun violation => (violation.path, violation.element)) =
        [(some "/p/a[1][1]", some "a[1]"), (some "/p/a[2]", some "a")] := by
    cbv
  obtain ⟨-, hnodup, hlocate, -, -⟩ := documentVisits_paths hnames hslash
  exact ⟨hpaths, hnodup, hlocate, hreports⟩

end Schema

end RelaxSchema
