import RelaxSchema.Document.Reader
import RelaxSchema.Proofs.Traversal

/-!
# What becomes of the elements of a document

* `Document.ofEvents_tags`: the elements of the root are those of the tags in document order, less
  those that stand before the last outermost tag; so none is lost exactly if there is at most one
  outermost tag;
* `Document.ofEvents_tags_not_all`: with two outermost tags the first one is dropped, and no error
  says so.

A tree is compared with its tags in preorder. A builder stands for the tags of its open elements,
each followed by those of its children so far; without an open element it stands for those of its
root. A step puts the tag of its event, if it has one, behind them (`Builder.step_cases`). Only an
outermost tag takes the place of what was there.
-/

namespace RelaxSchema.Document

/-! ### Tags in document order -/

mutual

/-- The tags of the elements of a tree, in document order. -/
def nodeTags : Node → List Tag
  | .element name attributes children => ⟨name, attributes⟩ :: nodesTags children
  | .text _ => []
  | .cdata _ => []

/-- The tags of the elements of several trees, in document order. -/
def nodesTags : List Node → List Tag
  | [] => []
  | node :: rest => nodeTags node ++ nodesTags rest

end

/-- The tags of the elements of a document, if it has a root. -/
def rootTags : Option Element → List Tag
  | none => []
  | some root => nodeTags root.toNode

/-- What an event says about an element that begins with it. -/
def Event.tag? : Event → Option (Except MarkupFault Tag)
  | .start tag => some tag
  | .empty tag => some tag
  | .finish | .text _ | .cdata _ | .remark | .broken => none

/-- The number of open elements behind an event. -/
def Event.depth : Event → Nat → Nat
  | .start _, depth => depth + 1
  | .finish, depth => depth - 1
  | .empty _, depth | .text _, depth | .cdata _, depth | .remark, depth | .broken, depth => depth

/-- The tags that stand outside of all elements, in front of which as many elements as given are
open. -/
def outermost : Nat → List Event → List (Except MarkupFault Tag)
  | _, [] => []
  | depth, event :: rest =>
    (if depth = 0 then event.tag?.toList else []) ++ outermost (event.depth depth) rest

@[simp] theorem nodesTags_append (left right : List Node) :
    nodesTags (left ++ right) = nodesTags left ++ nodesTags right := by
  induction left with
  | nil => rfl
  | cons node rest ih => rw [List.cons_append, nodesTags, nodesTags, ih, List.append_assoc]

theorem nodesTags_singleton (node : Node) : nodesTags [node] = nodeTags node := List.append_nil _

/-- Text that is joined brings no element with it. -/
theorem nodesTags_joinText (more : String) (nodes : List Node) :
    nodesTags (Node.joinText more nodes).reverse = nodesTags nodes.reverse := by
  have htext : ∀ content, nodesTags [.text content] = [] := fun content => rfl
  unfold Node.joinText
  split
  · rw [List.reverse_cons, List.reverse_cons, nodesTags_append, nodesTags_append, htext, htext]
  · rw [List.reverse_cons, nodesTags_append, htext, List.append_nil]

/-! ### Builders -/

namespace OpenElement

/-- The tags of an open element and of its children so far. -/
def tags (element : OpenElement) : List Tag := element.tag :: nodesTags element.reversed.reverse

theorem nodeTags_close (element : OpenElement) : nodeTags element.close.toNode = element.tags := rfl

end OpenElement

namespace Builder

/-- The tags of a document under construction: those of its open elements, and without one those of
its root. -/
def tags (builder : Builder) : List Tag :=
  match builder.stack with
  | [] => rootTags builder.root
  | stack => stack.reverse.flatMap OpenElement.tags

theorem tags_cons (top : OpenElement) (rest : List OpenElement) (root : Option Element) :
    tags ⟨top :: rest, root⟩ = rest.reverse.flatMap OpenElement.tags ++ top.tags := by
  show (top :: rest).reverse.flatMap OpenElement.tags = _
  rw [List.reverse_cons, List.flatMap_append, List.flatMap_singleton]

theorem tags_ne_nil {builder : Builder} (h : builder.stack ≠ []) : builder.tags ≠ [] := by
  obtain ⟨top, rest, hstack⟩ := List.exists_cons_of_ne_nil h
  obtain ⟨stack, root⟩ := builder
  subst hstack
  rw [tags_cons]
  exact List.append_ne_nil_of_right_ne_nil _ (List.cons_ne_nil _ _)

@[simp] theorem addElement_stack_length (builder : Builder) (element : Element) :
    (builder.addElement element).stack.length = builder.stack.length := by
  unfold addElement
  split <;> simp_all

/-- The tags of an element go behind the others, unless it becomes the root. -/
theorem tags_addElement (builder : Builder) (element : Element) :
    (builder.addElement element).tags =
      (if builder.stack = [] then [] else builder.tags) ++ nodeTags element.toNode := by
  obtain ⟨stack, root⟩ := builder
  cases stack with
  | nil => rfl
  | cons top rest =>
    rw [if_neg (List.cons_ne_nil _ _), tags_cons]
    show tags ⟨{ top with reversed := element.toNode :: top.reversed } :: rest, root⟩ = _
    rw [tags_cons, List.append_assoc]
    unfold OpenElement.tags
    rw [List.reverse_cons, nodesTags_append, nodesTags_singleton, List.cons_append]

theorem decoded_eq_ok {α : Type} {content : Except MarkupFault α} {value : α}
    (h : decoded content = .ok value) : content = .ok value := by
  cases content with
  | error fault => cases h
  | ok value' =>
    cases h
    rfl

/-- **What a step does**: it goes to the depth of its event, and it puts the tag of its event behind
the tags that were there; only an outermost tag takes their place. -/
theorem step_cases {limits : Limits} {builder next : Builder} {event : Event}
    (h : step limits builder event = .ok next) :
    next.stack.length = event.depth builder.stack.length ∧
      (event.tag? = none ∧ next.tags = builder.tags ∨
        ∃ tag, event.tag? = some (.ok tag) ∧
          next.tags = (if builder.stack = [] then [] else builder.tags) ++ [tag]) := by
  obtain ⟨stack, root⟩ := builder
  cases event with
  | start tag =>
    obtain ⟨tag, htag, hrest⟩ := bind_eq_ok_iff.mp h
    obtain ⟨_, -, hnext⟩ := bind_eq_ok_iff.mp hrest
    obtain rfl := Except.ok.inj hnext
    have hopened : OpenElement.tags { tag := tag } = [tag] := rfl
    refine ⟨List.length_cons, .inr ⟨tag, congrArg some (decoded_eq_ok htag), ?_⟩⟩
    rw [tags_cons, hopened]
    cases stack with
    | nil => rfl
    | cons top rest =>
      rw [if_neg (List.cons_ne_nil _ _), tags_cons, List.reverse_cons, List.flatMap_append,
        List.flatMap_singleton]
  | empty tag =>
    obtain ⟨tag, htag, hrest⟩ := bind_eq_ok_iff.mp h
    obtain ⟨_, -, hnext⟩ := bind_eq_ok_iff.mp hrest
    obtain rfl := Except.ok.inj hnext
    refine ⟨addElement_stack_length _ _, .inr ⟨tag, congrArg some (decoded_eq_ok htag), ?_⟩⟩
    exact tags_addElement _ _
  | finish =>
    cases stack with
    | nil =>
      obtain rfl := Except.ok.inj h
      exact ⟨rfl, .inl ⟨rfl, rfl⟩⟩
    | cons top rest =>
      obtain rfl := Except.ok.inj h
      refine ⟨addElement_stack_length _ _, .inl ⟨rfl, ?_⟩⟩
      -- The tags of the element that is closed stood last, and they stay there.
      rw [tags_addElement, OpenElement.nodeTags_close, tags_cons]
      cases rest with
      | nil => rfl
      | cons parent others =>
        rw [if_neg (List.cons_ne_nil _ _), tags_cons, List.reverse_cons, List.flatMap_append,
          List.flatMap_singleton]
  | text content =>
    cases stack with
    | nil =>
      obtain rfl := Except.ok.inj h
      exact ⟨rfl, .inl ⟨rfl, rfl⟩⟩
    | cons top rest =>
      obtain ⟨content, -, hnext⟩ := bind_eq_ok_iff.mp h
      obtain rfl := Except.ok.inj hnext
      refine ⟨rfl, .inl ⟨rfl, ?_⟩⟩
      rw [tags_cons, tags_cons]
      unfold OpenElement.tags
      rw [nodesTags_joinText]
  | cdata content =>
    cases stack with
    | nil =>
      obtain rfl := Except.ok.inj h
      exact ⟨rfl, .inl ⟨rfl, rfl⟩⟩
    | cons top rest =>
      obtain ⟨content, -, hnext⟩ := bind_eq_ok_iff.mp h
      obtain rfl := Except.ok.inj hnext
      have hcdata : nodesTags [.cdata content] = [] := rfl
      refine ⟨rfl, .inl ⟨rfl, ?_⟩⟩
      rw [tags_cons, tags_cons]
      unfold OpenElement.tags
      rw [List.reverse_cons, nodesTags_append, hcdata, List.append_nil]
  | remark =>
    obtain rfl := Except.ok.inj h
    exact ⟨rfl, .inl ⟨rfl, rfl⟩⟩
  | broken => cases h

/-- **What a run does**: the tags that the builder stands for, followed by those of the events, are
the tags that it ends with, behind those that are lost. Nothing is lost exactly if no outermost tag
takes the place of an element. The element that the builder ends with begins with the last outermost
tag. -/
theorem foldlM_step {limits : Limits} {events : List Event} {builder last : Builder}
    (h : events.foldlM (step limits) builder = .ok last) :
    last.tags.head?.map .ok =
        (outermost builder.stack.length events).getLast?.or (builder.tags.head?.map .ok) ∧
      ∃ lost : List Tag,
        builder.tags.map .ok ++ events.filterMap Event.tag? = (lost ++ last.tags).map .ok ∧
        (lost = [] ↔ outermost builder.stack.length events = [] ∨
          builder.tags = [] ∧ (outermost builder.stack.length events).length ≤ 1) := by
  induction events generalizing builder with
  | nil =>
    obtain rfl := pure_eq_ok_iff.mp h
    refine ⟨rfl, [], List.append_nil _, ?_⟩
    exact ⟨fun _ => .inl rfl, fun _ => rfl⟩
  | cons event rest ih =>
    rw [List.foldlM_cons] at h
    obtain ⟨next, hnext, hrest⟩ := bind_eq_ok_iff.mp h
    obtain ⟨hdepth, hcases⟩ := step_cases hnext
    obtain ⟨hhead, lost, hlost, hnone⟩ := ih hrest
    rw [hdepth] at hhead hnone
    rcases hcases with ⟨htag, htags⟩ | ⟨tag, htag, htags⟩
    · -- Without a tag the builder stands for what it stood for before.
      have houtermost : outermost builder.stack.length (event :: rest) =
          outermost (event.depth builder.stack.length) rest := by
        rw [outermost, htag, Option.toList_none, ite_self, List.nil_append]
      rw [houtermost, List.filterMap_cons_none htag]
      rw [htags] at hhead hlost hnone
      exact ⟨hhead, lost, hlost, hnone⟩
    · rw [List.filterMap_cons_some htag, outermost, htag, Option.toList_some]
      by_cases houter : builder.stack = []
      · -- An outermost tag: what was there is lost.
        rw [if_pos houter, List.nil_append] at htags
        rw [htags] at hhead hlost hnone
        rw [if_pos (List.length_eq_zero_iff.mpr houter), List.singleton_append]
        refine ⟨?_, builder.tags ++ lost, ?_, ?_⟩
        · rw [hhead, List.getLast?_cons]
          cases (outermost (event.depth builder.stack.length) rest).getLast? <;> rfl
        · rw [List.append_assoc, List.map_append, ← hlost]
          rfl
        · rw [List.append_eq_nil_iff, hnone]
          simp [List.length_eq_zero_iff]
      · -- A tag inside of an element goes behind the others.
        have hsome : builder.tags ≠ [] := tags_ne_nil houter
        rw [if_neg houter] at htags
        rw [htags] at hhead hlost hnone
        rw [if_neg (fun hzero => houter (List.length_eq_zero_iff.mp hzero)), List.nil_append]
        refine ⟨?_, lost, ?_, ?_⟩
        · rw [hhead, List.head?_append_of_ne_nil _ hsome]
        · rw [← hlost, List.map_append, List.append_assoc]
          rfl
        · rw [hnone]
          simp [hsome]

end Builder

/-- **Only the last outermost element is kept.** Where a document is read, the tags of its elements
are those of the root, in document order, behind tags that are lost; and none is lost exactly if at
most one tag stands outside of all elements. The root begins with the last tag that does. -/
theorem ofEvents_tags {limits : Limits} {events : List Event} {root : Option Element}
    (h : ofEvents limits events = .ok root) :
    (rootTags root).head?.map .ok = (outermost 0 events).getLast? ∧
      ∃ lost : List Tag, events.filterMap Event.tag? = (lost ++ rootTags root).map .ok ∧
        (lost = [] ↔ (outermost 0 events).length ≤ 1) := by
  obtain ⟨last, hlast, hdone⟩ := bind_eq_ok_iff.mp h
  obtain ⟨stack, finished⟩ := last
  cases stack with
  | cons top rest => cases hdone
  | nil =>
    obtain rfl : finished = root := Except.ok.inj hdone
    obtain ⟨hhead, lost, hlost, hnone⟩ := Builder.foldlM_step hlast
    -- The builder starts without a tag and without an open element.
    have hstart : Builder.tags {} = [] := rfl
    have hdepth : (Builder.stack {}).length = 0 := rfl
    rw [hstart, hdepth] at hhead hnone
    rw [hstart] at hlost
    refine ⟨hhead.trans Option.or_none, lost, hlost, hnone.trans ?_⟩
    constructor
    · rintro (hempty | ⟨-, hfew⟩)
      · rw [hempty]
        exact Nat.zero_le 1
      · exact hfew
    · exact fun hfew => .inr ⟨rfl, hfew⟩

/-- A document with text, a remark, an empty element and nested ones: all its elements are there. -/
theorem ofEvents_tags_nested :
    let root : Element := ⟨"a", .ofList [("x", "1")],
      [.text "t", .element "b" .empty [.element "c" .empty []], .element "d" .empty []]⟩
    let delivered := events "<a x=\"1\">t<b><c/></b><!-- r --><d/></a>".toUTF8.toList
    ofEvents {} delivered = .ok (some root) ∧
      delivered.filterMap Event.tag? = (rootTags (some root)).map .ok := by
  intro root delivered
  have hread : ofEvents {} (events "<a x=\"1\">t<b><c/></b><!-- r --><d/></a>".toUTF8.toList) =
      .ok (some ⟨"a", .ofList [("x", "1")],
        [.text "t", .element "b" .empty [.element "c" .empty []], .element "d" .empty []]⟩) := by
    cbv
  have hsingle : (outermost 0
      (events "<a x=\"1\">t<b><c/></b><!-- r --><d/></a>".toUTF8.toList)).length = 1 := by
    cbv
  obtain ⟨-, lost, htags, hnone⟩ := ofEvents_tags hread
  obtain rfl : lost = [] := hnone.mpr (Nat.le_of_eq hsingle)
  exact ⟨hread, htags⟩

/-- **Two outermost elements are read as one.** All elements are closed and nothing else is
malformed, but the first one is not in the tree, and there is no error. -/
theorem ofEvents_tags_not_all :
    let delivered := events "<a/><b/>".toUTF8.toList
    delivered.filterMap Event.tag? = [.ok ⟨"a", .empty⟩, .ok ⟨"b", .empty⟩] ∧
      ofEvents {} delivered = .ok (some ⟨"b", .empty, []⟩) := by
  intro delivered
  have htags : (events "<a/><b/>".toUTF8.toList).filterMap Event.tag? =
      [.ok ⟨"a", .empty⟩, .ok ⟨"b", .empty⟩] := by
    cbv
  have hread : ofEvents {} (events "<a/><b/>".toUTF8.toList) = .ok (some ⟨"b", .empty, []⟩) := by
    cbv
  exact ⟨htags, hread⟩

end RelaxSchema.Document
