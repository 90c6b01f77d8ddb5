import Mathlib
import RelaxSchema.Schema.Positions
import RelaxSchema.Proofs.Schema.Validation

/-!
# Positions for new children

* `Schema.acceptsInsertion_iff`: a position passes the test exactly if the element is valid with a
  new child there;
* `Schema.positions_extreme`: so the positions that are found are the least and the greatest valid
  ones.

The test reads the tokens with the new one among them and stops at the first that is refused, where
validation goes on and collects reports. They agree because an element that a child was put into has
a token: it is not excused for being empty.
-/

namespace RelaxSchema

open List

/-- The element with a new child element in front of the node at a position. -/
def Element.insertChild (element : Element) (position : Nat) (child : Element) : Element :=
  { element with children := element.children.insertIdx position child.toNode }

/-! ### The first entry that passes a test -/

section Extreme

variable {α : Type} [LinearOrder α] {p : α → Bool} {entries : List α} {entry : α}

/-- In ascending order the first entry that passes a test is the least one that does. -/
theorem find?_eq_some_iff_isLeast (h : entries.Pairwise (· < ·)) :
    entries.find? p = some entry ↔ IsLeast {entry | entry ∈ entries ∧ p entry = true} entry := by
  rw [find?_eq_some_iff_append]
  constructor
  · rintro ⟨hpasses, before, after, rfl, hbefore⟩
    refine ⟨⟨mem_append_cons_self, hpasses⟩, fun other ⟨hother, hpasses'⟩ => ?_⟩
    have hbehind : ∀ later ∈ after, entry < later := (pairwise_cons.mp (pairwise_append.mp h).2.1).1
    rcases mem_append.mp hother with hin | hin
    · have hfails := hbefore other hin
      rw [hpasses'] at hfails
      exact absurd hfails Bool.false_ne_true
    · rcases mem_cons.mp hin with rfl | hin
      · exact le_rfl
      · exact (hbehind other hin).le
  · rintro ⟨⟨hmem, hpasses⟩, hleast⟩
    obtain ⟨before, after, rfl⟩ := append_of_mem hmem
    refine ⟨hpasses, before, after, rfl, fun other hother => ?_⟩
    have hless : other < entry := (pairwise_append.mp h).2.2 other hother entry mem_cons_self
    rw [Bool.not_eq_true', ← Bool.not_eq_true]
    exact fun hpasses' => hless.not_ge (hleast ⟨mem_append_left _ hother, hpasses'⟩)

/-- In descending order it is the greatest one. -/
theorem find?_reverse_eq_some_iff_isGreatest (h : entries.Pairwise (· < ·)) :
    entries.reverse.find? p = some entry ↔
      IsGreatest {entry | entry ∈ entries ∧ p entry = true} entry := by
  have hreverse : @Pairwise αᵒᵈ (· < ·) entries.reverse := pairwise_reverse.mpr h
  have hsame : {entry | entry ∈ entries ∧ p entry = true} =
      {entry | entry ∈ entries.reverse ∧ p entry = true} := by simp only [mem_reverse]
  rw [hsame]
  exact @find?_eq_some_iff_isLeast αᵒᵈ _ p entries.reverse entry hreverse

end Extreme

/-! ### Tokens with a new child -/

theorem contentTokens_insertIdx {nodes : List Node} {position : Nat} (h : position ≤ nodes.length)
    (child : Element) : contentTokens (nodes.insertIdx position child.toNode) =
      contentTokens (nodes.take position) ++ child.name :: contentTokens (nodes.drop position) := by
  induction nodes generalizing position with
  | nil =>
    obtain rfl := Nat.le_zero.mp h
    rfl
  | cons node rest ih =>
    cases position with
    | zero => rfl
    | succ position =>
      have hrest := ih (Nat.le_of_succ_le_succ h)
      simp only [contentTokens] at hrest
      rw [insertIdx_succ_cons, take_succ_cons, drop_succ_cons, contentTokens, contentTokens,
        contentTokens, filterMap_cons, filterMap_cons, hrest]
      cases node.token? <;> rfl

namespace Schema

variable {schema : Schema} {element : Element} {entry : ElementSchema}

/-- **The test for a position is exact.** -/
theorem acceptsInsertion_iff (hentry : schema.find? element.name = some entry)
    (htype : entry.type = .element ∨ entry.type = .text) (child : Element) {position : Nat}
    (h : position ≤ element.children.length) :
    entry.acceptsInsertion element child.name position = true ↔
      (schema.elementVerdict (element.insertChild position child)).ok = true := by
  have htokens : contentTokens (element.insertChild position child).children =
      contentTokens (element.children.take position) ++
        child.name :: contentTokens (element.children.drop position) :=
    contentTokens_insertIdx h child
  have hvalidates : entry.type.validatesContent = true := ElementType.validatesContent_iff.mpr htype
  have hfind : schema.find? (element.insertChild position child).name = some entry := hentry
  rw [ok_elementVerdict_of_find? hfind hvalidates, htokens, ElementSchema.acceptsInsertion]
  exact ⟨Or.inl, fun hvalid => hvalid.resolve_right fun hempty => by simp at hempty⟩

/-- **The positions that are found are the extreme valid ones.** A position is valid if the element
is valid with a new child element there, whatever that holds. -/
theorem positions_extreme (hentry : schema.find? element.name = some entry)
    (htype : entry.type = .element ∨ entry.type = .text) (child : Element) :
    let valid : Set Nat := {position | position ≤ element.children.length ∧
      (schema.elementVerdict (element.insertChild position child)).ok = true}
    (∀ position, entry.firstPosition? element child.name = some position ↔ IsLeast valid position) ∧
    (∀ position, entry.lastPosition? element child.name = some position ↔
      IsGreatest valid position) ∧ (entry.firstPosition? element child.name = none ↔ valid = ∅) ∧
    (entry.lastPosition? element child.name = none ↔ valid = ∅) := by
  intro valid
  have hvalid : {position | position ∈ ElementSchema.positions element ∧
      entry.acceptsInsertion element child.name position = true} = valid := by
    ext position
    simp only [ElementSchema.positions, mem_range, Nat.lt_succ_iff, Set.mem_ofPred_eq, valid]
    exact and_congr_right (acceptsInsertion_iff hentry htype child)
  have hnone : (∀ position ∈ ElementSchema.positions element,
      ¬ entry.acceptsInsertion element child.name position = true) ↔ valid = ∅ := by
    rw [← hvalid, Set.eq_empty_iff_forall_notMem]
    exact forall_congr' fun position => not_and.symm
  have hsorted : (ElementSchema.positions element).Pairwise (· < ·) := pairwise_lt_range
  refine ⟨fun position => ?_, fun position => ?_, ?_, ?_⟩
  · rw [ElementSchema.firstPosition?, find?_eq_some_iff_isLeast hsorted, hvalid]
  · rw [ElementSchema.lastPosition?, find?_reverse_eq_some_iff_isGreatest hsorted, hvalid]
  · rw [ElementSchema.firstPosition?, find?_eq_none, hnone]
  · rw [ElementSchema.lastPosition?, find?_eq_none]
    simp only [mem_reverse]
    exact hnone

/-- A `b` goes behind the `a` and the blank text around it, at the latest behind all nodes, and a
second `a` nowhere. -/
theorem positions_extreme_mixed :
    let expression : Expression := ⟨"p",
      .sequence [.token "a", .kleene (.choice [.token "b", .token textToken])],
      .single ⟨#[⟨[("a", 1)], false⟩, ⟨[("TEXT", 1), ("b", 1)], true⟩]⟩⟩
    let entry : ElementSchema := ⟨.text, [], expression⟩
    let schema : Schema := ⟨.ofList [("p", entry)], "p", rfl⟩
    let child (name : String) : Element := ⟨name, .empty, []⟩
    let element : Element := ⟨"p", .empty, [.text " ", (child "a").toNode, .text " ", .cdata "x"]⟩
    let valid (name : String) : Set Nat := {position | position ≤ element.children.length ∧
      (schema.elementVerdict (element.insertChild position (child name))).ok = true}
    IsLeast (valid "b") 2 ∧ IsGreatest (valid "b") 4 ∧ valid "a" = ∅ := by
  intro expression entry schema child element valid
  have hentry : schema.find? element.name = some entry := rfl
  have hfirst : entry.firstPosition? element "b" = some 2 := by cbv
  have hlast : entry.lastPosition? element "b" = some 4 := by cbv
  have hnone : entry.firstPosition? element "a" = none := by cbv
  obtain ⟨hleast, hgreatest, -, -⟩ := positions_extreme hentry (Or.inr rfl) (child "b")
  obtain ⟨-, -, hempty, -⟩ := positions_extreme hentry (Or.inr rfl) (child "a")
  exact ⟨(hleast 2).mp hfirst, (hgreatest 4).mp hlast, hempty.mp hnone⟩

end Schema

end RelaxSchema
