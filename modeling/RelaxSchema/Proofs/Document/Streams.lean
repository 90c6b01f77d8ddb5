import RelaxSchema.Document.Reader
import RelaxSchema.Proofs.Catalogue
import RelaxSchema.Proofs.Traversal

/-!
# Documents from their events

What it means that events deliver a tree (`Document.Delivers`), and that the tree is built from them
again.

* `Document.readTag_of_announces`: a tag is read as the name and the attributes that are written in
  it;
* `Document.Delivers.foldlM_step`: the children of an element are put into it, one after the other,
  unless they are nested too deeply;
* `Document.read_of_delivers`: so a document is read as its tree, in whichever form its empty
  elements are written and however its texts are split, or it is refused for its depth.

One induction over the events of some nodes serves all elements. The stack before and after them is
the same except for the innermost open element, which has received the nodes; and the depth is
checked once for each element, so the check of the whole is that of the deepest one
(`Document.within_bind`).
-/

namespace RelaxSchema.Document

open List

variable {limits : Limits}

/-! ### Tags -/

/-- The attributes behind the name of a tag, as keys and values are written there; `none`, if they
are malformed or a key comes twice. `keys` are the keys before them, and there are fewer than
`fuel`. -/
def writtenAttributes? : Nat → List (List UInt8) → List UInt8 →
    Option (List (List UInt8 × List UInt8))
  | 0, _, _ => none
  | fuel + 1, keys, bytes =>
    match bytes.dropWhile isSpaceByte with
    | [] => some []
    | bytes => do
      let (key, bytes) ← takeKey? bytes
      let (value, bytes) ← takeValue? bytes
      if keys.contains key then none
      else
        let rest ← writtenAttributes? fuel (key :: keys) bytes
        some ((key, value) :: rest)

/-- An attribute is written as a key and a value, with references for some characters. -/
def Spells (written : List UInt8 × List UInt8) (entry : String × String) : Prop :=
  decodeBytes? written.1 = some entry.1 ∧ readText? written.2 = some entry.2

/-- The content of a tag announces an element: its name and its attributes are written in it, in
their order. -/
structure Announces (content : List UInt8) (name : String)
    (attributes : Catalogue String) : Prop where
  /-- The name. -/
  name_eq : decodeBytes? (tagName content) = some name
  /-- The attributes. -/
  attributes_eq : ∃ written,
    writtenAttributes? ((content.dropWhile fun b => !isSpaceByte b).length + 1) []
        (content.dropWhile fun b => !isSpaceByte b) = some written ∧
      Forall₂ Spells written attributes.entries

/-- Attributes that are written are entered one after the other, unless they declare namespaces. -/
theorem readAttributes_of_written {fuel : Nat} {keys : List (List UInt8)} (found : Catalogue String)
    {bytes : List UInt8} {written : List (List UInt8 × List UInt8)} {pairs : List (String × String)}
    (h : writtenAttributes? fuel keys bytes = some written)
    (hpairs : Forall₂ Spells written pairs)
    (hdeclares : ∀ pair ∈ pairs, declaresNamespace pair.1 = false) :
    readAttributes fuel keys found bytes =
      .ok (pairs.foldl (fun catalogue pair => catalogue.insert pair.1 pair.2) found) := by
  induction fuel generalizing keys found bytes written pairs with
  | zero => cases h
  | succ fuel ih =>
    cases hblank : bytes.dropWhile isSpaceByte with
    | nil =>
      simp only [writtenAttributes?, hblank] at h
      obtain rfl := Option.some.inj h
      obtain rfl := forall₂_nil_left_iff.mp hpairs
      simp only [readAttributes, hblank]
      rfl
    | cons byte others =>
      simp only [writtenAttributes?, hblank] at h
      simp only [readAttributes, hblank]
      obtain ⟨⟨key, behind⟩, hkey, h⟩ := Option.bind_eq_some_iff.mp h
      obtain ⟨⟨value, behind'⟩, hvalue, h⟩ := Option.bind_eq_some_iff.mp h
      have hnew : ¬ keys.contains key = true := fun hknown => by
        have hnone : none = some written := (if_pos hknown).symm.trans h
        cases hnone
      replace h := (if_neg hnew).symm.trans h
      obtain ⟨rest, hrest, h⟩ := Option.bind_eq_some_iff.mp h
      obtain rfl := Option.some.inj h
      obtain ⟨pair, later, ⟨hname, htext⟩, hlater, rfl⟩ := forall₂_cons_left_iff.mp hpairs
      obtain ⟨hplain, hdeclares⟩ := forall_mem_cons.mp hdeclares
      simp only [hkey, hvalue, hname, htext, hplain, hnew, if_false, Bool.false_eq_true]
      exact ih (found.insert pair.1 pair.2) hrest hlater hdeclares

/-- **A tag is read as what it announces**, if no attribute declares a namespace. -/
theorem readTag_of_announces {content : List UInt8} {name : String} {attributes : Catalogue String}
    (h : Announces content name attributes)
    (hdeclares : ∀ key ∈ attributes.names, declaresNamespace key = false) :
    readTag content = .ok ⟨name, attributes⟩ := by
  obtain ⟨written, hwritten, hpairs⟩ := h.attributes_eq
  have hread := readAttributes_of_written .empty hwritten hpairs fun pair hpair =>
    hdeclares pair.1 (mem_map_of_mem hpair)
  rw [readTag]
  simp only [h.name_eq, hread]
  show Except.ok (Tag.mk name (.ofList attributes.entries)) = _
  rw [Catalogue.ofList_entries]

/-! ### Trees -/

mutual

/-- The number of elements on the longest way down from a node, itself included. -/
def nodeDepth : Node → Nat
  | .element _ _ children => nodesDepth children + 1
  | .text _ => 0
  | .cdata _ => 0

/-- The number of elements on the longest way down from some nodes. -/
def nodesDepth : List Node → Nat
  | [] => 0
  | node :: rest => max (nodeDepth node) (nodesDepth rest)

end

/-- Whether nodes start with a text. -/
def startsWithText : List Node → Bool
  | .text _ :: _ => true
  | _ => false

/-- Nodes such as documents have them: no text is empty or stands next to another one, and no
attribute declares a namespace. -/
inductive AreCanonical : List Node → Prop
  /-- No nodes. -/
  | nil : AreCanonical []
  /-- A text and other nodes. -/
  | text {content : String} {rest : List Node} : content ≠ "" → startsWithText rest = false →
      AreCanonical rest → AreCanonical (.text content :: rest)
  /-- A CDATA section and other nodes. -/
  | cdata {content : String} {rest : List Node} : AreCanonical rest →
      AreCanonical (.cdata content :: rest)
  /-- An element and other nodes. -/
  | element {name : String} {attributes : Catalogue String} {children rest : List Node} :
      (∀ key ∈ attributes.names, declaresNamespace key = false) → AreCanonical children →
      AreCanonical rest → AreCanonical (.element name attributes children :: rest)

/-! ### Events -/

/-- Events deliver a text in some pieces, with remarks between them. -/
inductive DeliversText : String → List Event → Prop
  /-- Nothing is left. -/
  | nil : DeliversText "" []
  /-- A piece comes, and then the rest. -/
  | piece {piece rest : String} {events : List Event} : DeliversText rest events →
      DeliversText (piece ++ rest) (.text (.ok piece) :: events)
  /-- A remark comes before the rest. -/
  | remark {content : String} {events : List Event} : DeliversText content events →
      DeliversText content (.remark :: events)

/-- Events deliver some nodes: an element has a start and an end tag with its children between them,
or it has no children and one tag; and remarks may come anywhere. -/
inductive Delivers : List Node → List Event → Prop
  /-- Nothing is left. -/
  | nil : Delivers [] []
  /-- A remark comes before the nodes. -/
  | remark {nodes : List Node} {events : List Event} : Delivers nodes events →
      Delivers nodes (.remark :: events)
  /-- An element comes with both tags. -/
  | element {content : List UInt8} {name : String} {attributes : Catalogue String}
      {children rest : List Node} {inner events : List Event} : Announces content name attributes →
      Delivers children inner → Delivers rest events →
      Delivers (.element name attributes children :: rest)
        (.start (readTag content) :: inner ++ .finish :: events)
  /-- An element without children comes with one tag. -/
  | empty {content : List UInt8} {name : String} {attributes : Catalogue String} {rest : List Node}
      {events : List Event} : Announces content name attributes → Delivers rest events →
      Delivers (.element name attributes [] :: rest) (.empty (readTag content) :: events)
  /-- A text comes in pieces. -/
  | text {content : String} {rest : List Node} {pieces events : List Event} :
      DeliversText content pieces → Delivers rest events →
      Delivers (.text content :: rest) (pieces ++ events)
  /-- A CDATA section comes as a whole. -/
  | cdata {content : String} {rest : List Node} {events : List Event} : Delivers rest events →
      Delivers (.cdata content :: rest) (.cdata (.ok content) :: events)

/-- Whether an event may stand outside of the root. -/
def Event.isAside : Event → Bool
  | .text _ | .remark => true
  | .start _ | .empty _ | .finish | .cdata _ | .broken => false

/-- Events deliver a document: its root, with text and remarks before and after it, which may be
anything. -/
def DeliversDocument (root : Element) (events : List Event) : Prop :=
  ∃ before inner after, events = before ++ inner ++ after ∧
    (∀ event ∈ before, event.isAside = true) ∧
    Delivers [root.toNode] inner ∧ ∀ event ∈ after, event.isAside = true

/-! ### Depth -/

/-- A result that needs as many open elements at once as given. -/
def within {α : Type} (limits : Limits) (depth : Nat) (result : α) : Except Error α :=
  if depth ≤ limits.maxXmlDepth then .ok result
  else .error (.limitExceeded .xmlDepth (limits.maxXmlDepth + 1) limits.maxXmlDepth)

theorem within_of_le {α : Type} {depth : Nat} (h : depth ≤ limits.maxXmlDepth) (result : α) :
    within limits depth result = .ok result := if_pos h

/-- One result after the other needs the greater depth. -/
theorem within_bind {α β : Type} {depth depth' : Nat} {result : α} (next : α → Except Error β)
    {last : β} (h : next result = within limits depth' last) :
    (within limits depth result >>= next) = within limits (max depth depth') last := by
  unfold within at h ⊢
  by_cases hdepth : depth ≤ limits.maxXmlDepth
  · rw [if_pos hdepth]
    show next result = _
    rw [h]
    simp only [Nat.max_le, hdepth, true_and]
  · rw [if_neg hdepth, if_neg fun hle => hdepth (Nat.le_trans (Nat.le_max_left _ _) hle)]
    rfl

/-- An element more may be opened if the depth allows it. -/
theorem check_xmlDepth {depth : Nat} (h : depth ≤ limits.maxXmlDepth) :
    limits.check .xmlDepth (depth + 1) = within limits (depth + 1) () := by
  unfold Limits.check within
  by_cases hdepth : depth + 1 ≤ limits.maxXmlDepth
  · rw [if_pos hdepth]
    exact if_pos hdepth
  · obtain rfl : depth = limits.maxXmlDepth := by omega
    rw [if_neg hdepth]
    exact if_neg hdepth

/-! ### Building -/

/-- An open element with more nodes behind those that it has. -/
def OpenElement.extend (element : OpenElement) (nodes : List Node) : OpenElement :=
  { element with reversed := nodes.reverse ++ element.reversed }

theorem OpenElement.extend_append (element : OpenElement) (nodes more : List Node) :
    (element.extend nodes).extend more = element.extend (nodes ++ more) := by
  rw [extend, extend, extend, reverse_append, append_assoc]

namespace Builder

theorem foldlM_remark (builder : Builder) (events : List Event) :
    (.remark :: events).foldlM (step limits) builder = events.foldlM (step limits) builder := by
  rw [foldlM_cons]
  rfl

/-- Pieces of text continue the text that was there last. -/
theorem foldlM_text_continued {content : String} {pieces : List Event}
    (h : DeliversText content pieces) (tag : Tag) (begun : String) (nodes : List Node)
    (rest : List OpenElement) (root : Option Element) :
    pieces.foldlM (step limits) ⟨⟨tag, .text begun :: nodes⟩ :: rest, root⟩ =
      .ok ⟨⟨tag, .text (begun ++ content) :: nodes⟩ :: rest, root⟩ := by
  induction h generalizing begun with
  | nil => rw [String.append_empty]; rfl
  | remark _ ih => rw [foldlM_remark, ih]
  | @piece piece more events _ ih =>
    rw [foldlM_cons]
    show events.foldlM (step limits) ⟨⟨tag, .text (begun ++ piece) :: nodes⟩ :: rest, root⟩ = _
    rw [ih, String.append_assoc]

/-- **Pieces of text are one text**, if no text was there last. -/
theorem foldlM_text {content : String} {pieces : List Event} (h : DeliversText content pieces)
    (hcontent : content ≠ "") {top : OpenElement} (htop : startsWithText top.reversed = false)
    (rest : List OpenElement) (root : Option Element) :
    pieces.foldlM (step limits) ⟨top :: rest, root⟩ =
      .ok ⟨top.extend [.text content] :: rest, root⟩ := by
  induction h with
  | nil => exact absurd rfl hcontent
  | remark _ ih => rw [foldlM_remark, ih hcontent]
  | @piece piece more events hmore _ =>
    obtain ⟨tag, nodes⟩ := top
    have hjoin : Node.joinText piece nodes = .text piece :: nodes := by
      unfold Node.joinText
      split
      · cases htop
      · rfl
    rw [foldlM_cons]
    show events.foldlM (step limits) ⟨⟨tag, Node.joinText piece nodes⟩ :: rest, root⟩ = _
    rw [hjoin]
    exact foldlM_text_continued hmore tag piece nodes rest root

/-- Events that stand outside of the root change nothing there. -/
theorem foldlM_aside {events : List Event} (h : ∀ event ∈ events, event.isAside = true)
    (limits : Limits) (root : Option Element) :
    events.foldlM (step limits) ⟨[], root⟩ = .ok ⟨[], root⟩ := by
  induction events with
  | nil => rfl
  | cons event rest ih =>
    obtain ⟨hevent, hrest⟩ := forall_mem_cons.mp h
    have hstep : step limits ⟨[], root⟩ event = .ok ⟨[], root⟩ := by
      cases event with
      | text | remark => rfl
      | start | empty | finish | cdata | broken => cases hevent
    rw [foldlM_cons, hstep]
    exact ih hrest

/-- An element is opened if the depth allows it. -/
theorem step_start {builder : Builder} (hopen : builder.stack.length ≤ limits.maxXmlDepth)
    (tag : Tag) : step limits builder (.start (.ok tag)) = within limits (builder.stack.length + 1)
      ⟨{ tag := tag } :: builder.stack, builder.root⟩ := by
  show (limits.check .xmlDepth (builder.stack.length + 1) >>= fun _ => Except.ok _) = _
  rw [check_xmlDepth hopen, within, within]
  split <;> rfl

/-- An empty element is added if the depth allows it. -/
theorem step_empty {builder : Builder} (hopen : builder.stack.length ≤ limits.maxXmlDepth)
    (tag : Tag) : step limits builder (.empty (.ok tag)) = within limits (builder.stack.length + 1)
      (builder.addElement ⟨tag.name, tag.attributes, []⟩) := by
  show (limits.check .xmlDepth (builder.stack.length + 1) >>= fun _ => Except.ok _) = _
  rw [check_xmlDepth hopen, within, within]
  split <;> rfl

/-- **An element with both tags** is added as a whole, if its children are put into it. -/
theorem foldlM_element {builder : Builder} {tag : Tag} {children : List Node}
    {inner events : List Event} {depth : Nat} {result : Builder}
    (hopen : builder.stack.length ≤ limits.maxXmlDepth)
    (hinner : builder.stack.length + 1 ≤ limits.maxXmlDepth →
      inner.foldlM (step limits) ⟨{ tag := tag } :: builder.stack, builder.root⟩ =
        within limits (builder.stack.length + 1 + nodesDepth children)
          ⟨OpenElement.extend { tag := tag } children :: builder.stack, builder.root⟩)
    (hevents : events.foldlM (step limits)
      (builder.addElement ⟨tag.name, tag.attributes, children⟩) = within limits depth result) :
    (.start (.ok tag) :: inner ++ .finish :: events).foldlM (step limits) builder =
      within limits (max (builder.stack.length + (nodesDepth children + 1)) depth) result := by
  have hfinish : (.finish :: events).foldlM (step limits)
      ⟨OpenElement.extend { tag := tag } children :: builder.stack, builder.root⟩ =
        within limits depth result := by
    have hclose : (OpenElement.extend { tag := tag } children).close =
        ⟨tag.name, tag.attributes, children⟩ := by
      rw [OpenElement.close, OpenElement.extend, append_nil, reverse_reverse]
    rw [foldlM_cons, ← hevents, ← hclose]
    rfl
  rw [cons_append, foldlM_cons, step_start hopen]
  by_cases hle : builder.stack.length + 1 ≤ limits.maxXmlDepth
  · rw [within_of_le hle]
    show (inner ++ .finish :: events).foldlM (step limits) _ = _
    rw [foldlM_append, hinner hle, Nat.add_assoc, Nat.add_comm 1]
    exact within_bind _ hfinish
  · -- The start tag is refused already.
    rw [within, within, if_neg hle, if_neg (by omega)]
    rfl

end Builder

/-- **The children of an element are put into it**, if they are not nested too deeply. -/
theorem Delivers.foldlM_step {nodes : List Node} {events : List Event} (h : Delivers nodes events)
    (hcanonical : AreCanonical nodes) {top : OpenElement} {rest : List OpenElement}
    (htop : startsWithText nodes = true → startsWithText top.reversed = false)
    (hopen : rest.length + 1 ≤ limits.maxXmlDepth) (root : Option Element) :
    events.foldlM (Builder.step limits) ⟨top :: rest, root⟩ =
      within limits (rest.length + 1 + nodesDepth nodes) ⟨top.extend nodes :: rest, root⟩ := by
  induction h generalizing top rest with
  | nil => exact (within_of_le hopen _).symm
  | remark _ ih => rw [Builder.foldlM_remark, ih hcanonical htop hopen]
  | @element content name attributes children more inner events htag _ _ ihchildren ihmore =>
    cases hcanonical with
    | element hdeclares hchildren hmore =>
    rw [readTag_of_announces htag hdeclares]
    have hnext := @ihmore hmore (top.extend [.element name attributes children]) rest
      (fun _ => rfl) hopen
    rw [OpenElement.extend_append, singleton_append] at hnext
    rw [nodesDepth, nodeDepth, ← Nat.add_max_add_left]
    exact Builder.foldlM_element hopen
      (fun hinner => ihchildren hchildren (fun _ => rfl) hinner) hnext
  | @empty content name attributes more events htag _ ihmore =>
    cases hcanonical with
    | element hdeclares _ hmore =>
    rw [readTag_of_announces htag hdeclares, foldlM_cons,
      @Builder.step_empty limits ⟨top :: rest, root⟩ hopen ⟨name, attributes⟩]
    have hnext := @ihmore hmore (top.extend [.element name attributes []]) rest (fun _ => rfl) hopen
    rw [OpenElement.extend_append, singleton_append] at hnext
    rw [nodesDepth, nodeDepth, ← Nat.add_max_add_left]
    exact within_bind _ hnext
  | @text content more pieces events hpieces _ ihmore =>
    cases hcanonical with
    | text hcontent hseparate hmore =>
    rw [foldlM_append, Builder.foldlM_text hpieces hcontent (htop rfl)]
    -- The next piece of text would continue this one, but no text comes next.
    have hnext := @ihmore hmore (top.extend [.text content]) rest
      (fun hstarts => absurd (hseparate.symm.trans hstarts) Bool.false_ne_true) hopen
    rw [OpenElement.extend_append, singleton_append] at hnext
    rw [nodesDepth, nodeDepth, Nat.zero_max, ← hnext]
    rfl
  | @cdata content more events _ ihmore =>
    cases hcanonical with
    | cdata hmore =>
    have hnext := @ihmore hmore (top.extend [.cdata content]) rest (fun _ => rfl) hopen
    rw [OpenElement.extend_append, singleton_append] at hnext
    rw [nodesDepth, nodeDepth, Nat.zero_max, ← hnext, foldlM_cons]
    rfl

/-- After the last node there are only remarks. -/
theorem Delivers.foldlM_nil {events : List Event} (h : Delivers [] events) (limits : Limits)
    (builder : Builder) :
    events.foldlM (Builder.step limits) builder = .ok builder := by
  generalize hnodes : ([] : List Node) = nodes at h
  induction h with
  | nil => rfl
  | remark _ ih => rw [Builder.foldlM_remark, ih hnodes]
  | element | empty | text | cdata => cases hnodes

/-- **The root is built**, if it is not nested too deeply. -/
theorem Delivers.foldlM_root {root : Element} {events : List Event}
    (h : Delivers [root.toNode] events) (hcanonical : AreCanonical [root.toNode]) :
    events.foldlM (Builder.step limits) {} =
      within limits (nodeDepth root.toNode) { root := some root } := by
  have hopen : (Builder.stack {}).length ≤ limits.maxXmlDepth := Nat.zero_le _
  generalize hnodes : [root.toNode] = nodes at h hcanonical
  induction h with
  | remark _ ih => rw [Builder.foldlM_remark, ih hnodes hcanonical]
  | @element content name attributes children more inner events htag hinner hevents _ _ =>
    obtain ⟨hroot, rfl⟩ := cons.inj hnodes
    obtain ⟨rfl, rfl, rfl⟩ := Node.element.inj hroot
    cases hcanonical with
    | element hdeclares hchildren _ =>
    have hlast := hevents.foldlM_nil limits { root := some root }
    rw [readTag_of_announces htag hdeclares, Element.toNode, nodeDepth, ← Nat.max_zero (_ + 1),
      ← Nat.zero_add (_ + 1)]
    exact Builder.foldlM_element hopen
      (fun hle => hinner.foldlM_step hchildren (fun _ => rfl) hle none)
      (hlast.trans (within_of_le (Nat.zero_le _) _).symm)
  | @empty content name attributes more events htag hevents _ =>
    obtain ⟨hroot, rfl⟩ := cons.inj hnodes
    obtain ⟨rfl, rfl, hchildren⟩ := Node.element.inj hroot
    cases hcanonical with
    | element hdeclares _ _ =>
    have hlast := hevents.foldlM_nil limits { root := some root }
    obtain ⟨name, attributes, children⟩ := root
    obtain rfl : children = [] := hchildren
    rw [readTag_of_announces htag hdeclares, foldlM_cons, Builder.step_empty hopen]
    exact within_bind (events.foldlM (Builder.step limits))
      (hlast.trans (within_of_le (Nat.zero_le _) _).symm)
  | nil | text | cdata => cases hnodes

/-- **A document is built from its events again.** If events deliver a document whose texts are
merged and whose attributes declare no namespaces, its tree is built from them, provided that its
elements are not nested more deeply than the limits allow; otherwise it is refused for its depth. In
which form an empty element comes, into how many pieces a text is split, and which remarks come
between them makes no difference, nor does what stands outside of the root. The same holds for what
is read from bytes that are cut into such events, if there are not too many bytes. -/
theorem read_of_delivers {root : Element} (hcanonical : AreCanonical [root.toNode])
    {delivered : List Event} (h : DeliversDocument root delivered) (limits : Limits) :
    ofEvents limits delivered =
        (if nodeDepth root.toNode ≤ limits.maxXmlDepth then .ok (some root)
        else .error (.limitExceeded .xmlDepth (limits.maxXmlDepth + 1) limits.maxXmlDepth)) ∧
      ∀ bytes, events bytes = delivered → bytes.length ≤ limits.maxXmlSize →
        read limits bytes = ofEvents limits delivered := by
  constructor
  · obtain ⟨before, inner, after, rfl, hbefore, hinner, hafter⟩ := h
    have hbuilt : (before ++ inner ++ after).foldlM (Builder.step limits) {} =
        within limits (nodeDepth root.toNode) { root := some root } := by
      have hlast := Builder.foldlM_aside hafter limits (some root)
      rw [foldlM_append, foldlM_append, Builder.foldlM_aside hbefore limits none]
      show (inner.foldlM (Builder.step limits) {} >>= fun builder =>
        after.foldlM (Builder.step limits) builder) = _
      rw [hinner.foldlM_root hcanonical, ← Nat.max_zero (nodeDepth root.toNode)]
      exact within_bind _ (hlast.trans (within_of_le (Nat.zero_le _) _).symm)
    rw [ofEvents, hbuilt, within]
    split <;> rfl
  · rintro bytes rfl hsize
    rw [read, (limits.check_eq_ok_iff .xmlSize bytes.length).mpr hsize]
    rfl

/-- An element with an attribute, a text in two pieces, and empty elements in both forms. -/
theorem read_of_delivers_split :
    let root : Element := ⟨"a", .ofList [("x", "1")],
      [.text "tu", .element "b" .empty [], .element "c" .empty []]⟩
    let bytes := "<a x=\"1\">t<!-- r -->u<b></b><c/></a>\n".toUTF8.toList
    AreCanonical [root.toNode] ∧ DeliversDocument root (events bytes) ∧
      read {} bytes = .ok (some root) ∧
      read { maxXmlDepth := 1 } bytes = .error (.limitExceeded .xmlDepth 2 1) := by
  intro root bytes
  have hevents : events "<a x=\"1\">t<!-- r -->u<b></b><c/></a>\n".toUTF8.toList =
      [.start (readTag "a x=\"1\"".toUTF8.toList), .text (.ok "t"), .remark, .text (.ok "u"),
        .start (readTag "b".toUTF8.toList), .finish, .empty (readTag "c".toUTF8.toList), .finish,
        .text (.ok "\n")] := by
    cbv
  have hlength : "<a x=\"1\">t<!-- r -->u<b></b><c/></a>\n".toUTF8.toList.length = 37 := by cbv
  have hsize : bytes.length ≤ Limits.maxXmlSize {} := hlength.le.trans (by decide)
  have hdeclares : ∀ key ∈ (Catalogue.ofList [("x", "1")]).names,
      declaresNamespace key = false := by
    decide
  have hcanonical : AreCanonical [root.toNode] :=
    .element hdeclares (.text (by decide) rfl
      (.element (by decide) .nil (.element (by decide) .nil .nil))) .nil
  have hroot : Announces "a x=\"1\"".toUTF8.toList "a" (.ofList [("x", "1")]) :=
    ⟨by cbv, [("x".toUTF8.toList, "1".toUTF8.toList)], by cbv, .cons ⟨by cbv, by cbv⟩ .nil⟩
  have hfirst : Announces "b".toUTF8.toList "b" .empty := ⟨by cbv, [], by cbv, .nil⟩
  have hsecond : Announces "c".toUTF8.toList "c" .empty := ⟨by cbv, [], by cbv, .nil⟩
  have htext : DeliversText "tu" [.text (.ok "t"), .remark, .text (.ok "u")] := by
    have hsplit : "tu" = "t" ++ ("u" ++ "") := by decide
    rw [hsplit]
    exact .piece (.remark (.piece .nil))
  have hchildren : Delivers root.children [.text (.ok "t"), .remark, .text (.ok "u"),
      .start (readTag "b".toUTF8.toList), .finish, .empty (readTag "c".toUTF8.toList)] :=
    .text htext (.element hfirst .nil (.empty hsecond .nil))
  have hdelivers : DeliversDocument root (events bytes) :=
    ⟨[], _, [.text (.ok "\n")], hevents, by simp, .element hroot hchildren .nil,
      by simp [Event.isAside]⟩
  obtain ⟨hread, hbytes⟩ := read_of_delivers hcanonical hdelivers {}
  obtain ⟨hrefused, hbytes'⟩ := read_of_delivers hcanonical hdelivers { maxXmlDepth := 1 }
  exact ⟨hcanonical, hdelivers, (hbytes bytes rfl hsize).trans hread,
    (hbytes' bytes rfl hsize).trans hrefused⟩

end RelaxSchema.Document
