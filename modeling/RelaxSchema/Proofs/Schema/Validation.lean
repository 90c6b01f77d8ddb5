import RelaxSchema.Schema.Validation
import RelaxSchema.Proofs.Content.Expression
import RelaxSchema.Proofs.Content.Replay

/-!
# Validation

* `ElementSchema.checkContent_eq_nil_iff`: the content of an element is without violations exactly
  if its tokens are accepted, or are missing where text could stand;
* `Schema.elementVerdict_exact`: the violations in an element, one for each refused token and one
  for the end;
* `Verdict.IsExact`: a verdict that is good exactly if it holds no violation, which all verdicts
  are;
* `Schema.drain_eq_judge`: a queue stands for the visits that it leads to, and these come level by
  level (`Schema.violations_drain`);
* `Schema.validateRoot_eq_nil_iff`: a document is without violations exactly if it starts with the
  start element and each element that is reached is without violations;
* `Schema.IsUnseen.documentVerdict_eq`: the verdict depends on names and tokens alone, and below
  what is not described on nothing.

Elements are visited level by level, but whether one is visited depends on its path alone: `Reaches`
says which are, and the levels are compared with it by induction on the number of nodes that are
left.
-/

namespace RelaxSchema

/-! ### Content -/

/-- **Checking content is exact.** -/
theorem ElementSchema.checkContent_eq_nil_iff (schema : ElementSchema) (element : Element) :
    schema.checkContent element = [] ↔
      schema.expression.accepts (contentTokens element.children) = true ∨
        (schema.type = .text ∧ contentTokens element.children = []) := by
  have hrun := schema.expression.violations_foldl_consume_iff (contentTokens element.children)
    schema.expression.initial
  rw [checkContent, List.append_eq_nil_iff, Array.toList_eq_nil_iff]
  constructor
  · rintro ⟨hviolations, hmissing⟩
    split at hmissing
    · rename_i hend
      rw [Bool.or_eq_true, Bool.and_eq_true, decide_eq_true_iff, List.isEmpty_iff] at hend
      exact hend.imp_left fun hfinished => (hrun.mp ⟨hviolations, hfinished⟩).2
    · simp at hmissing
  · rintro (haccepts | ⟨htype, htokens⟩)
    · obtain ⟨hviolations, hfinished⟩ := hrun.mpr ⟨rfl, haccepts⟩
      exact ⟨hviolations, if_pos (by rw [hfinished, Bool.true_or])⟩
    · -- Without tokens nothing was refused, and the end is excused.
      rw [htokens]
      exact ⟨rfl, if_pos (by simp [htype])⟩

/-- Content is checked token by token, each against the accepted ones before it, and in the end for
being complete. -/
theorem ElementSchema.checkContent_eq (schema : ElementSchema) (element : Element) :
    let expression := schema.expression
    let tokens := contentTokens element.children
    let last := (expression.accepted expression.initial tokens).foldl expression.consume
      expression.initial
    schema.checkContent element = expression.refusals [] tokens ++
      if expression.isFinished last = false ∧ ¬(schema.type = .text ∧ tokens = []) then
        [expression.incomplete last]
      else [] := by
  intro expression tokens last
  let run := tokens.foldl expression.consume expression.initial
  have hlast : last = run.cleared := Expression.foldl_accepted tokens expression.initial
  have hreports : run.violations.toList = expression.refusals [] tokens :=
    Expression.violations_foldl_of_cleared rfl tokens
  have hfinished : expression.isFinished last = expression.isFinished run := by rw [hlast]; rfl
  have hincomplete : expression.incomplete last = expression.incomplete run := by rw [hlast]; rfl
  have hend : (expression.isFinished run || schema.type = .text && tokens.isEmpty) = true ↔
      ¬(expression.isFinished run = false ∧ ¬(schema.type = .text ∧ tokens = [])) := by
    rw [Bool.or_eq_true, Bool.and_eq_true, decide_eq_true_iff, List.isEmpty_iff, not_and_not_right,
      ← Bool.not_eq_true, or_iff_not_imp_left]
  rw [hfinished, hincomplete, ← hreports]
  show run.violations.toList ++ _ = _
  congr 1
  exact (if_congr hend rfl rfl).trans (ite_not _ _ _)

/-! ### Verdicts -/

/-- A verdict that is good exactly if it holds no violation. -/
def Verdict.IsExact (verdict : Verdict) : Prop := verdict.ok = verdict.violations.isEmpty

theorem Verdict.isExact_valid : valid.IsExact := rfl

theorem Verdict.isExact_ofViolations (violations : List Violation) :
    (ofViolations violations).IsExact :=
  rfl

theorem Verdict.IsExact.merge {first second : Verdict} (hfirst : first.IsExact)
    (hsecond : second.IsExact) : (first.merge second).IsExact := by
  show (first.ok && second.ok) = (first.violations ++ second.violations).isEmpty
  rw [hfirst, hsecond]
  cases first.violations <;> rfl

theorem Verdict.IsExact.ok_iff {verdict : Verdict} (h : verdict.IsExact) :
    verdict.ok = true ↔ verdict.violations = [] := by
  rw [h, List.isEmpty_iff]

namespace Schema

variable {schema : Schema} {element : Element}

theorem isExact_elementVerdict (schema : Schema) (element : Element) :
    (schema.elementVerdict element).IsExact := by
  unfold elementVerdict
  split
  · exact Verdict.isExact_ofViolations _
  · rw [ElementSchema.verdict]
    split
    · exact Verdict.isExact_valid.merge (Verdict.isExact_ofViolations _)
    · exact Verdict.isExact_valid

/-- The child elements are validated of an element whose entry has a type with validated content. -/
theorem descendsInto_iff : schema.descendsInto element = true ↔ ∃ entry,
    schema.find? element.name = some entry ∧ (entry.type = .element ∨ entry.type = .text) := by
  rw [descendsInto, Option.any_eq_true]
  exact exists_congr fun entry => and_congr_right fun _ => ElementType.validatesContent_iff

theorem validateElement_ne_nil (h : schema.find? element.name = none) :
    schema.validateElement element ≠ [] := by
  rw [validateElement, elementVerdict, h]
  exact List.cons_ne_nil _ _

theorem validateElement_of_find? {entry : ElementSchema}
    (h : schema.find? element.name = some entry) : schema.validateElement element =
      if entry.type.validatesContent then entry.checkContent element else [] := by
  rw [validateElement, elementVerdict, h]
  show (entry.verdict element).violations = _
  rw [ElementSchema.verdict]
  split <;> rfl

/-- An element is valid if its expression accepts its tokens. Text may also be missing. -/
theorem ok_elementVerdict_of_find? {entry : ElementSchema}
    (h : schema.find? element.name = some entry) (hvalidates : entry.type.validatesContent = true) :
    (schema.elementVerdict element).ok = true ↔
      entry.expression.accepts (contentTokens element.children) = true ∨
        entry.type = .text ∧ contentTokens element.children = [] := by
  rw [(isExact_elementVerdict schema element).ok_iff, ← validateElement, validateElement_of_find? h,
    if_pos hvalidates, entry.checkContent_eq_nil_iff]

/-- **Validation of an element is exact.** A name without an entry is the one violation, and where
the entry does not describe the content there is none. Otherwise each token that is refused by the
automata that have read the accepted ones is one violation, and the end is one more if it comes too
early and nothing excuses it. -/
theorem elementVerdict_exact (schema : Schema) (element : Element) :
    let name := element.name
    let verdict := schema.elementVerdict element
    let tokens := contentTokens element.children
    (schema.find? name = none → verdict =
      ⟨false,
        [{ kind := .unknownTag, message := s!"Unknown tag <{name}>.", element := some name }]⟩) ∧
    ∀ entry, schema.find? name = some entry →
      (entry.type = .external ∨ entry.type = .notImplemented → verdict = ⟨true, []⟩) ∧
      (entry.type = .element ∨ entry.type = .text →
        let expression := entry.expression
        let last := (expression.accepted expression.initial tokens).foldl expression.consume
          expression.initial
        (verdict.violations = expression.refusals [] tokens ++
          if expression.isFinished last = false ∧ ¬(entry.type = .text ∧ tokens = []) then
            [expression.incomplete last]
          else []) ∧
        (verdict.ok = true ↔ verdict.violations = []) ∧
        (verdict.ok = true ↔
          expression.accepts tokens = true ∨ entry.type = .text ∧ tokens = [])) := by
  intro name verdict tokens
  refine ⟨fun hnone => ?_, fun entry hentry => ⟨fun htype => ?_, fun htype => ?_⟩⟩
  · show schema.elementVerdict element = _
    rw [elementVerdict, hnone]
    rfl
  · show schema.elementVerdict element = _
    rw [elementVerdict, hentry]
    show entry.verdict element = _
    rcases htype with htype | htype <;> rw [ElementSchema.verdict, htype] <;> rfl
  · have hviolations : verdict.violations = entry.checkContent element :=
      (validateElement_of_find? hentry).trans (if_pos (ElementType.validatesContent_iff.mpr htype))
    have hok : verdict.ok = true ↔ verdict.violations = [] :=
      (isExact_elementVerdict schema element).ok_iff
    refine ⟨hviolations.trans (entry.checkContent_eq element), hok, ?_⟩
    rw [hok, hviolations, entry.checkContent_eq_nil_iff]

/-- Tokens that are refused around one that is accepted, an unknown name, and content that is not
described. -/
theorem elementVerdict_exact_refused :
    let expression : Expression := ⟨"p", .sequence [.token "a", .token "b"],
      .single ⟨#[⟨[("a", 1)], false⟩, ⟨[("b", 2)], false⟩, ⟨[], true⟩]⟩⟩
    let entry (type : ElementType) : ElementSchema := ⟨type, [], expression⟩
    let schema : Schema := ⟨.ofList [("p", entry .element), ("x", entry .external)], "p", rfl⟩
    let child (name : String) : Node := .element name .empty []
    (schema.find? "z" = none ∧ (schema.elementVerdict ⟨"z", .empty, []⟩).ok = false) ∧
    (schema.find? "x" = some (entry .external) ∧
      (schema.elementVerdict ⟨"x", .empty, [child "z"]⟩).ok = true) ∧
    (schema.find? "p" = some (entry .element) ∧
      (schema.elementVerdict
        ⟨"p", .empty, [child "b", child "a", .text "x", child "z"]⟩).violations.map
        Violation.kind = [.outOfOrder, .textNotAllowed, .notAllowed, .incomplete]) := by
  intro expression entry schema child
  have hz : schema.find? "z" = none := rfl
  have hx : schema.find? "x" = some (entry .external) := rfl
  have hp : schema.find? "p" = some (entry .element) := rfl
  refine ⟨⟨hz, ?_⟩, ⟨hx, ?_⟩, hp, ?_⟩
  · rw [(elementVerdict_exact schema ⟨"z", .empty, []⟩).1 hz]
  · rw [((elementVerdict_exact schema ⟨"x", .empty, [child "z"]⟩).2 _ hx).1 (Or.inl rfl)]
  · rw [(((elementVerdict_exact schema ⟨"p", .empty, _⟩).2 _ hp).2 (Or.inl rfl)).1]
    cbv

theorem isExact_visit (schema : Schema) (visit : Visit) : (visit.verdict schema).IsExact := by
  have helement := isExact_elementVerdict schema visit.element
  rw [Verdict.IsExact] at helement ⊢
  rw [Visit.verdict, helement, List.isEmpty_map]

theorem isExact_drain {verdict : Verdict} (h : verdict.IsExact) (queue : List Visit) :
    (schema.drain verdict queue).IsExact := by
  induction verdict, queue using drain.induct schema with
  | case1 verdict =>
    rw [drain]
    exact h
  | case2 verdict visit queue ih =>
    rw [drain]
    exact ih (h.merge (isExact_visit schema visit))

end Schema

/-! ### Levels -/

/-- Visits to all children of some visited elements that are validated. -/
def Visit.nextLevel (schema : Schema) (visits : List Visit) : List Visit :=
  visits.flatMap (Visit.next schema)

/-- A level has fewer nodes than the one above it. -/
theorem Visit.total_nextLevel_lt (schema : Schema) {visits : List Visit} (hne : visits ≠ []) :
    total (nextLevel schema visits) < total visits := by
  have hstep : ∀ visits : List Visit,
      total (nextLevel schema visits) + visits.length ≤ total visits := by
    intro visits
    induction visits with
    | nil => exact Nat.le_refl 0
    | cons visit rest ih =>
      have hnext := total_next_lt schema visit
      have hlevel : nextLevel schema (visit :: rest) = visit.next schema ++ nextLevel schema rest :=
        rfl
      have htotal : total (visit :: rest) = visit.element.count + total rest := rfl
      rw [hlevel, htotal, total_append, List.length_cons]
      omega
  have hvisits := hstep visits
  have hpos : 0 < visits.length := List.length_pos_iff.mpr hne
  omega

namespace Schema

variable {schema : Schema}

/-- The violations in some visited elements and in those below them, level by level. -/
def validateLevels (schema : Schema) (visits : List Visit) : List Violation :=
  if _empty : visits = [] then []
  else
    (visits.flatMap fun visit => (visit.verdict schema).violations) ++
      schema.validateLevels (Visit.nextLevel schema visits)
termination_by Visit.total visits
decreasing_by exact Visit.total_nextLevel_lt schema _empty

/-- The verdict on some visits, added to another one. -/
def judge (schema : Schema) (verdict : Verdict) (visits : List Visit) : Verdict :=
  visits.foldl (fun verdict visit => verdict.merge (visit.verdict schema)) verdict

theorem violations_judge (verdict : Verdict) (visits : List Visit) :
    (schema.judge verdict visits).violations =
      verdict.violations ++ visits.flatMap fun visit => (visit.verdict schema).violations := by
  induction visits generalizing verdict with
  | nil => exact (List.append_nil _).symm
  | cons visit rest ih =>
    rw [judge, List.foldl_cons, ← judge, ih, List.flatMap_cons, ← List.append_assoc]
    rfl

/-- The visits that a queue leads to, in the order in which they come to its front. -/
def visits (schema : Schema) : List Visit → List Visit
  | [] => []
  | visit :: queue => visit :: schema.visits (queue ++ visit.next schema)
termination_by queue => Visit.total queue
decreasing_by exact Visit.total_append_next_lt schema visit queue

/-- Each visit is judged when it comes to the front of the queue. -/
theorem drain_eq_judge (verdict : Verdict) (queue : List Visit) :
    schema.drain verdict queue = schema.judge verdict (schema.visits queue) := by
  induction verdict, queue using drain.induct schema with
  | case1 verdict =>
    rw [drain, visits]
    rfl
  | case2 verdict visit queue ih =>
    rw [drain, visits, ih]
    rfl

/-- What stands in the queue is visited before what these visits add to it. -/
theorem visits_append (schema : Schema) (queue later : List Visit) :
    schema.visits (queue ++ later) =
      queue ++ schema.visits (later ++ Visit.nextLevel schema queue) := by
  induction queue generalizing later with
  | nil => rw [Visit.nextLevel, List.flatMap_nil, List.append_nil, List.nil_append, List.nil_append]
  | cons visit rest ih =>
    rw [List.cons_append, visits, List.append_assoc, ih, List.append_assoc]
    rfl

/-- A level is visited before the next one. -/
theorem visits_eq_append_nextLevel (schema : Schema) (level : List Visit) :
    schema.visits level = level ++ schema.visits (Visit.nextLevel schema level) := by
  have hlevel := visits_append schema level []
  rwa [List.append_nil, List.nil_append] at hlevel

/-- **A queue is visited level by level.** -/
theorem violations_drain (verdict : Verdict) (visits : List Visit) :
    (schema.drain verdict visits).violations = verdict.violations ++
      schema.validateLevels visits := by
  induction visits using validateLevels.induct schema generalizing verdict with
  | case1 => rw [drain, validateLevels, dif_pos rfl, List.append_nil]
  | case2 visits hne ih =>
    have hlevel : schema.drain verdict visits =
        schema.drain (schema.judge verdict visits) (Visit.nextLevel schema visits) := by
      rw [drain_eq_judge, drain_eq_judge, visits_eq_append_nextLevel]
      exact List.foldl_append
    rw [hlevel, ih, violations_judge, List.append_assoc, validateLevels.eq_def schema visits,
      dif_neg hne]

theorem validateRoot_eq (root : Element) : schema.validateRoot root =
    schema.checkStart root ++ schema.validateLevels [⟨root, "/" ++ root.name⟩] :=
  violations_drain _ _

end Schema

/-! ### Documents -/

/-- An element that is another one or is below it. -/
inductive Element.Contains : Element → Element → Prop
  /-- The element itself. -/
  | self (element : Element) : Contains element element
  /-- What a child element contains. -/
  | child {element child inner : Element} : child ∈ element.childElements → Contains child inner →
      Contains element inner

namespace Schema

variable {schema : Schema}

/-- An element that is another one or is below it, with content that is validated on the way. -/
inductive Reaches (schema : Schema) : Element → Element → Prop
  /-- The element itself. -/
  | self (element : Element) : Reaches schema element element
  /-- What is reached from a child element. -/
  | child {element child inner : Element} : schema.descendsInto element = true →
      child ∈ element.childElements → Reaches schema child inner → Reaches schema element inner

theorem Reaches.trans {root element inner : Element} (h : schema.Reaches root element)
    (h' : schema.Reaches element inner) : schema.Reaches root inner := by
  induction h with
  | self _ => exact h'
  | child hdescends hchild _ ih => exact .child hdescends hchild (ih h')

theorem reaches_iff {element inner : Element} :
    schema.Reaches element inner ↔ element = inner ∨ schema.descendsInto element = true ∧
      ∃ child ∈ element.childElements, schema.Reaches child inner := by
  constructor
  · rintro (_ | ⟨hdescends, hchild, hreaches⟩)
    · exact Or.inl rfl
    · exact Or.inr ⟨hdescends, _, hchild, hreaches⟩
  · rintro (rfl | ⟨hdescends, child, hchild, hreaches⟩)
    · exact .self _
    · exact .child hdescends hchild hreaches

/-- The elements visited next are the child elements of those that are described. -/
theorem forall_mem_nextLevel_iff {visits : List Visit} {P : Element → Prop} :
    (∀ visit ∈ Visit.nextLevel schema visits, P visit.element) ↔
      ∀ visit ∈ visits, schema.descendsInto visit.element = true →
        ∀ child ∈ visit.element.childElements, P child := by
  have hnext : ∀ visit : Visit, (∀ next ∈ visit.next schema, P next.element) ↔
      (schema.descendsInto visit.element = true →
        ∀ child ∈ visit.element.childElements, P child) := by
    intro visit
    rw [Visit.next]
    split
    · rename_i hdescends
      rw [← List.forall_mem_map, Visit.map_element_siblings]
      exact ⟨fun h _ => h, fun h => h hdescends⟩
    · rename_i hdescends
      exact ⟨fun _ h => absurd h hdescends, fun _ _ h => absurd h List.not_mem_nil⟩
  rw [Visit.nextLevel, List.forall_mem_flatMap]
  exact forall₂_congr fun visit _ => hnext visit

/-- **The levels hold what is reached**, by induction on the number of nodes that are left. -/
theorem validateLevels_eq_nil_iff (visits : List Visit) :
    schema.validateLevels visits = [] ↔ ∀ visit ∈ visits, ∀ inner,
      schema.Reaches visit.element inner → schema.validateElement inner = [] := by
  induction visits using validateLevels.induct schema with
  | case1 =>
    rw [validateLevels, dif_pos rfl]
    exact ⟨fun _ visit hvisit => absurd hvisit List.not_mem_nil, fun _ => rfl⟩
  | case2 visits hne ih =>
    rw [validateLevels, dif_neg hne, List.append_eq_nil_iff, ih, List.flatMap_eq_nil_iff,
      forall_mem_nextLevel_iff (P := fun child => ∀ inner, schema.Reaches child inner →
        schema.validateElement inner = [])]
    constructor
    · rintro ⟨hlevel, hbelow⟩ visit hvisit inner hreaches
      rcases reaches_iff.mp hreaches with rfl | ⟨hdescends, child, hchild, hreaches⟩
      · exact List.map_eq_nil_iff.mp (hlevel visit hvisit)
      · exact hbelow visit hvisit hdescends child hchild inner hreaches
    · intro hall
      refine ⟨fun visit hvisit => ?_, fun visit hvisit hdescends child hchild inner hreaches => ?_⟩
      · exact List.map_eq_nil_iff.mpr (hall visit hvisit _ (.self _))
      · exact hall visit hvisit inner (.child hdescends hchild hreaches)

theorem checkStart_eq_nil_iff (root : Element) :
    schema.checkStart root = [] ↔ root.name = schema.start := by
  unfold checkStart
  split <;> simp [*]

/-- **Validation of a document is exact.** -/
theorem validateRoot_eq_nil_iff (root : Element) :
    schema.validateRoot root = [] ↔ root.name = schema.start ∧
      ∀ element, schema.Reaches root element → schema.validateElement element = [] := by
  rw [validateRoot_eq, List.append_eq_nil_iff, checkStart_eq_nil_iff, validateLevels_eq_nil_iff,
    List.forall_mem_singleton]

theorem isExact_rootVerdict (schema : Schema) (root : Element) :
    (schema.rootVerdict root).IsExact :=
  isExact_drain (Verdict.isExact_valid.merge (Verdict.isExact_ofViolations _)) _

/-- A document is good exactly if it starts with the start element and nothing is wrong with any
element that is reached. -/
theorem ok_rootVerdict_iff (root : Element) : (schema.rootVerdict root).ok = true ↔
    root.name = schema.start ∧
      ∀ element, schema.Reaches root element → schema.validateElement element = [] := by
  rw [(isExact_rootVerdict schema root).ok_iff, ← validateRoot_eq_nil_iff, validateRoot]

/-- A valid element that is described leads to all elements that it contains, if validity implies
that the content of an element is validated. -/
theorem reaches_of_contains (hdescends : ∀ element, schema.validateElement element = [] →
    schema.descendsInto element = true) {root element : Element}
    (hvalid : ∀ inner, schema.Reaches root inner → schema.validateElement inner = [])
    (h : root.Contains element) : schema.Reaches root element := by
  induction h with
  | self root => exact .self root
  | @child root child inner hchild _ ih =>
    have hroot := hdescends root (hvalid root (.self root))
    exact .child hroot hchild (ih fun inner hinner => hvalid inner (.child hroot hchild hinner))

theorem contains_of_reaches {root element : Element} (h : schema.Reaches root element) :
    root.Contains element := by
  induction h with
  | self root => exact .self root
  | child _ hchild _ ih => exact .child hchild ih

/-! ### What is not seen -/

/-- The verdict on an element itself depends on its name and, where the content is validated, on its
tokens. -/
theorem elementVerdict_congr {element other : Element} (hname : element.name = other.name)
    (htokens : schema.descendsInto element = true →
      contentTokens element.children = contentTokens other.children) :
    schema.elementVerdict element = schema.elementVerdict other := by
  rw [elementVerdict, elementVerdict, ← hname]
  cases hfind : schema.find? element.name with
  | none => rfl
  | some entry =>
    show entry.verdict element = entry.verdict other
    rw [ElementSchema.verdict, ElementSchema.verdict]
    split
    · rename_i hvalidates
      have hdescends : schema.descendsInto element = true := by
        rw [descendsInto, hfind]
        exact hvalidates
      rw [ElementSchema.checkContent, ElementSchema.checkContent, htokens hdescends]
      rfl
    · rfl

/-- A change of elements that validation does not see: names stay, and where the content is
validated the tokens do and the child elements are changed alike. -/
structure IsUnseen (schema : Schema) (change : Element → Element) : Prop where
  /-- The name stays. -/
  name_eq : ∀ element, (change element).name = element.name
  /-- The tokens stay. -/
  contentTokens_eq : ∀ element, schema.descendsInto element = true →
    contentTokens (change element).children = contentTokens element.children
  /-- The child elements are changed. -/
  childElements_eq : ∀ element, schema.descendsInto element = true →
    (change element).childElements = element.childElements.map change

section Unseen

variable {change : Element → Element}

/-- A visit to the changed element. -/
def changeVisit (change : Element → Element) (visit : Visit) : Visit :=
  ⟨change visit.element, visit.path⟩

/-- The verdict on an element itself stays. -/
theorem IsUnseen.elementVerdict_eq (h : schema.IsUnseen change) (element : Element) :
    schema.elementVerdict (change element) = schema.elementVerdict element :=
  (elementVerdict_congr (h.name_eq element).symm fun hdescends =>
    (h.contentTokens_eq element hdescends).symm).symm

/-- The paths stay, since they are made of names. -/
theorem IsUnseen.siblings_map (h : schema.IsUnseen change) (path : String) (seen : Catalogue Nat)
    (elements : List Element) : Visit.siblings path seen (elements.map change) =
      (Visit.siblings path seen elements).map (changeVisit change) := by
  induction elements generalizing seen with
  | nil => rfl
  | cons element rest ih =>
    simp only [List.map_cons, Visit.siblings, h.name_eq, ih]
    rfl

theorem IsUnseen.next_eq (h : schema.IsUnseen change) (visit : Visit) :
    (changeVisit change visit).next schema = (visit.next schema).map (changeVisit change) := by
  have hdescends : schema.descendsInto (changeVisit change visit).element =
      schema.descendsInto visit.element := by
    show schema.descendsInto (change visit.element) = _
    rw [descendsInto, descendsInto, h.name_eq]
  rw [Visit.next, Visit.next, hdescends]
  split
  · rename_i hvisit
    rw [← h.siblings_map, ← h.childElements_eq _ hvisit]
    rfl
  · rfl

/-- A queue is worked off in the same way after the change. -/
theorem IsUnseen.drain_map (h : schema.IsUnseen change) (verdict : Verdict) (queue : List Visit) :
    schema.drain verdict (queue.map (changeVisit change)) = schema.drain verdict queue := by
  induction verdict, queue using drain.induct schema with
  | case1 verdict => rfl
  | case2 verdict visit queue ih =>
    have hverdict : (changeVisit change visit).verdict schema = visit.verdict schema := by
      have helement := h.elementVerdict_eq visit.element
      rw [Visit.verdict, Visit.verdict,
        show (changeVisit change visit).element = change visit.element from rfl, helement]
      rfl
    rw [List.map_cons, drain, drain, hverdict, h.next_eq, ← List.map_append, ih]

/-- **A change that is not seen makes no difference to the verdict.** -/
theorem IsUnseen.documentVerdict_eq (h : schema.IsUnseen change) (root : Element) :
    schema.documentVerdict (some (change root)) = schema.documentVerdict (some root) := by
  have hdrain := h.drain_map (Verdict.valid.merge (.ofViolations (schema.checkStart root)))
    [⟨root, "/" ++ root.name⟩]
  rw [documentVerdict, documentVerdict, rootVerdict, rootVerdict, checkStart, h.name_eq]
  exact congrArg Except.ok hdrain

end Unseen

end Schema

end RelaxSchema
