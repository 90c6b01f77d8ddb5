import RelaxSchema.Compact.Basic
import RelaxSchema.Proofs.Json.RoundTrip

/-!
# Compact documents as text

* `CompactDocument.ofText?_text`: a compact document is read back from its text if its ranks are
  words of 64 bits and its contents are nested no deeper than the reader allows.
-/

namespace RelaxSchema

open Json

theorem mapM_map_eq_some {α β : Type} {f : α → β} {g : β → Option α}
    (h : ∀ value, g (f value) = some value)
    (values : List α) : (values.map f).mapM g = some values := by
  induction values with
  | nil => rfl
  | cons value rest ih =>
    rw [List.map_cons, List.mapM_cons, h, ih]
    rfl

theorem CompactElement.ofJson?_toJson (element : CompactElement) :
    ofJson? element.toJson = some element := by
  have hattributes := mapM_map_eq_some (f := Json.nat) (g := Json.natural?) (fun _ => rfl)
    element.attributes
  rw [toJson, ofJson?]
  show ((element.attributes.map Json.nat).mapM Json.natural? >>= fun attributes =>
    some (CompactElement.mk element.name element.code attributes element.content)) = _
  rw [hattributes]
  rfl

namespace CompactDocument

variable (document : CompactDocument)

/-- The value of the member `literals`. -/
def literalsJson : Json := .array (document.literals.map .string)

/-- The value of the member `schema`. -/
def schemaJson : Json := .array [.nat document.start, .array (document.elements.map (·.toJson))]

theorem ofValues?_toJson : ofValues? document.literalsJson document.schemaJson = some document := by
  have hliterals := mapM_map_eq_some (f := Json.string) (g := Json.string?) (fun _ => rfl)
    document.literals
  have helements := mapM_map_eq_some CompactElement.ofJson?_toJson document.elements
  show ((document.literals.map Json.string).mapM Json.string? >>= fun literals =>
    (document.elements.map (·.toJson)).mapM CompactElement.ofJson? >>= fun elements =>
      some (CompactDocument.mk literals document.start elements)) = _
  rw [hliterals, Option.bind_eq_bind, Option.bind_some, helements]
  rfl

theorem isPlain_literalsJson : document.literalsJson.IsPlain := by
  refine allPlain_iff.mpr fun item hitem => ?_
  obtain ⟨name, -, rfl⟩ := List.mem_map.mp hitem
  trivial

theorem toList_text : document.text.toList =
    '\x7b' :: ((quote "literals").toList ++ ':' :: ((render document.literalsJson).toList ++
      ',' :: ((quote "schema").toList ++ ':' ::
        ((render document.schemaJson).toList ++ ['\x7d'])))) := by
  have hrender : document.text = "\x7b" ++ (quote "literals" ++ ":" ++
    render document.literalsJson ++
      "," ++ (quote "schema" ++ ":" ++ render document.schemaJson)) ++ "\x7d" := rfl
  rw [hrender]
  simp only [String.toList_append, List.append_assoc]
  rfl

/-! ### Reading the members -/

theorem takeValue?_render {value : Json} (hplain : value.IsPlain)
    (hnesting : value.nesting ≤ maxDepth - 1)
    {rest : List Char} (hends : Ends rest) :
    takeValue? (maxDepth - 1) ((render value).toList ++ rest) = some (value, rest) := by
  refine take?_render value hplain ?_ hnesting hends
  rw [List.length_append]
  omega

/-- A quoted name and a colon are taken before the value. -/
theorem takeMembers?_quote (fuel : Nat) (members : Members) (name : String) (rest : List Char) :
    takeMembers? (fuel + 1) members ((quote name).toList ++ ':' :: rest)
      = (takeMember? members name rest >>= fun (members, rest) =>
          match trimFront rest with
          | ',' :: rest => takeMembers? fuel members rest
          | '\x7d' :: rest => some (members, rest)
          | _ => none) := by
  have hlength : name.toList.length < ((quote name).toList ++ ':' :: rest).length + 1 := by
    have hescape := length_le_length_flatMap_escape name.toList
    rw [toList_quote]
    simp only [List.length_append, List.length_cons]
    omega
  have hquoted := takeQuoted?_quote name hlength (':' :: rest)
  have htrim : trimFront ((quote name).toList ++ ':' :: rest) =
      (quote name).toList ++ ':' :: rest := by
    rw [toList_quote]
    rfl
  rw [takeMembers?, htrim, hquoted]
  rfl

theorem takeMember?_literals {members : Members} (hnew : members.literals = none) {value : Json}
    (hplain : value.IsPlain) (hnesting : value.nesting ≤ maxDepth - 1) {rest : List Char}
    (hends : Ends rest) :
    takeMember? members "literals" ((render value).toList ++ rest)
      = some ({ members with literals := some value }, rest) := by
  rw [takeMember?, takeValue?_render hplain hnesting hends, Option.bind_eq_bind,
    Option.bind_some, hnew]
  rfl

theorem takeMember?_schema {members : Members} (hnew : members.schema = none) {value : Json}
    (hplain : value.IsPlain) (hnesting : value.nesting ≤ maxDepth - 1) {rest : List Char}
    (hends : Ends rest) :
    takeMember? members "schema" ((render value).toList ++ rest)
      = some ({ members with schema := some value }, rest) := by
  rw [takeMember?, takeValue?_render hplain hnesting hends, Option.bind_eq_bind,
    Option.bind_some, hnew]
  rfl

theorem ends_brace (rest : List Char) : Ends ('\x7d' :: rest) := by
  intro c hc
  obtain rfl := Option.some.inj hc
  decide

/-- Both members are read, whatever stands behind the object. -/
theorem takeMembers?_text (hplain : document.schemaJson.IsPlain)
    (hnesting : document.toJson.nesting ≤ maxDepth) (fuel : Nat) :
    takeMembers? (fuel + 2) {} ((quote "literals").toList ++ ':' ::
        ((render document.literalsJson).toList ++ ',' :: ((quote "schema").toList ++ ':' ::
          ((render document.schemaJson).toList ++ ['\x7d']))))
      = some (⟨some document.literalsJson, some document.schemaJson⟩, []) := by
  have hdepth : max document.literalsJson.nesting (max document.schemaJson.nesting 0) + 1 ≤
      maxDepth :=
    hnesting
  have hliterals : document.literalsJson.nesting ≤ maxDepth - 1 := by omega
  have hschema : document.schemaJson.nesting ≤ maxDepth - 1 := by omega
  have hcomma : ∀ rest, trimFront (',' :: rest) = ',' :: rest := fun _ => rfl
  have hbrace : ∀ rest, trimFront ('\x7d' :: rest) = '\x7d' :: rest := fun _ => rfl
  rw [takeMembers?_quote,
    takeMember?_literals rfl document.isPlain_literalsJson hliterals (ends_comma _)]
  simp only [Option.bind_eq_bind, Option.bind_some, hcomma]
  rw [takeMembers?_quote, takeMember?_schema rfl hplain hschema (ends_brace _)]
  simp only [Option.bind_eq_bind, Option.bind_some, hbrace]

/-- **A compact document is read back from its text.** -/
theorem ofText?_text (hplain : document.schemaJson.IsPlain)
    (hnesting : document.toJson.nesting ≤ maxDepth) : ofText? document.text = some document := by
  have htake : take? document.text.toList = some (document, []) := by
    rw [toList_text]
    generalize htail : (quote "literals").toList ++ _ = tail
    obtain ⟨fuel, hfuel⟩ : ∃ fuel, tail.length = fuel + 2 := by
      refine ⟨tail.length - 2, ?_⟩
      rw [← htail, toList_quote]
      simp only [List.length_append, List.length_cons]
      omega
    have hmembers := document.takeMembers?_text hplain hnesting fuel
    rw [htail, ← hfuel] at hmembers
    show (takeMembers? tail.length {} tail >>= fun (members, rest) =>
      members.literals >>= fun literals => members.schema >>= fun schema =>
        ofValues? literals schema >>= fun document => some (document, rest)) = _
    rw [hmembers]
    show (ofValues? document.literalsJson document.schemaJson >>= fun document =>
      some (document, ([] : List Char))) = _
    rw [ofValues?_toJson]
    rfl
  rw [ofText?, htake]
  rfl

end CompactDocument

end RelaxSchema
