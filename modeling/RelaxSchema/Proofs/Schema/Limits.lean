import RelaxSchema.Schema.Compilation
import RelaxSchema.Compact.Schema
import RelaxSchema.Document.Reader
import RelaxSchema.Proofs.Automaton.Limits

/-!
# Limits only refuse

* `Limits.IsWithin.relaxes`: whatever is read under some limits, from a grammar, a compact text or a
  document, is the same under wider ones, and so is each failure that is not due to a limit.

The checks are met on the way in the same order, so each step that comes after one is the same. Only
the depth of includes is a budget that is spent, and a load that has some left does not look at it.
-/

namespace RelaxSchema

open List

variable {limits limits' : Limits}

/-! ### Schemas of grammars -/

theorem FlatElement.relaxes_compile (hle : limits.maxDfaStates ≤ limits'.maxDfaStates)
    (element : FlatElement) : Relaxes (element.compile limits) (element.compile limits') := by
  unfold compile
  exact (Relaxes.refl _).bind fun model _ =>
    (Expression.relaxes_compile hle element.name model).bind fun _ _ => .refl _

theorem Schema.relaxes_compileTree (hle : limits.maxDfaStates ≤ limits'.maxDfaStates)
    (tree : Tree) : Relaxes (compileTree limits tree) (compileTree limits' tree) := by
  have hentry : ∀ entries entry,
      Relaxes (compileEntry limits entries entry) (compileEntry limits' entries entry) :=
    fun _ entry => (entry.2.relaxes_compile hle).bind fun _ _ => .refl _
  unfold compileTree
  split
  · exact .refl _
  · refine (Relaxes.refl _).bind fun _ _ => (Relaxes.refl _).bind fun flat _ => ?_
    exact (Relaxes.foldlM (fun entries entry _ => hentry entries entry) _).bind fun _ _ => .refl _

/-! ### Includes -/

namespace Loader

variable {loader : Loader}

theorem relaxes_parse (h : loader.limits.IsWithin limits') (location : Location) :
    Relaxes (loader.parse location) ({ loader with limits := limits' }.parse location) := by
  unfold parse
  exact (Relaxes.refl _).bind fun text _ =>
    (Limits.relaxes_check (h .grammarSize) _).bind fun _ _ => .refl _

theorem relaxes_expandInclude {load load' : Location → Except Error Forest}
    (hload : ∀ location, Relaxes (load location) (load' location)) (location : Location)
    (forest : Forest) (element : Nat) : Relaxes (loader.expandInclude load location forest element)
      ({ loader with limits := limits' }.expandInclude load' location forest element) := by
  have hincluded : Relaxes (loader.included load location (forest.attribute? element "href"))
      ({ loader with limits := limits' }.included load' location
        (forest.attribute? element "href")) := by
    unfold included
    split
    · exact .refl _
    · exact (Relaxes.refl _).bind fun path _ => (hload path).bind fun _ _ => .refl _
  exact hincluded.bind fun _ _ => .refl _

/-- A load with more levels left does the same, unless it is refused. -/
theorem relaxes_loadWithin (h : loader.limits.IsWithin limits') {budget budget' : Nat}
    (hbudget : budget ≤ budget') (location : Location) :
    Relaxes (loader.loadWithin budget location)
      ({ loader with limits := limits' }.loadWithin budget' location) := by
  induction budget generalizing budget' location with
  | zero => exact relaxes_refused _
  | succ budget ih =>
    obtain ⟨more, rfl⟩ : ∃ more, budget' = more + 1 := ⟨budget' - 1, by omega⟩
    rw [loadWithin, loadWithin]
    refine (relaxes_parse h location).bind fun tree _ => ?_
    dsimp only
    split
    · exact .refl _
    · exact Relaxes.foldlM (fun forest element _ => relaxes_expandInclude
        (fun path => ih (by omega) path) location forest element) _

theorem relaxes_load (h : loader.limits.IsWithin limits') (location : Location) :
    Relaxes (loader.load location) ({ loader with limits := limits' }.load location) := by
  have hdepth : loader.limits.maxIncludeDepth ≤ limits'.maxIncludeDepth := h .includeDepth
  exact (relaxes_loadWithin h (Nat.succ_le_succ hdepth) location).bind fun _ _ => .refl _

theorem relaxes_compile (h : loader.limits.IsWithin limits') (location : Location) :
    Relaxes (loader.compile location) ({ loader with limits := limits' }.compile location) :=
  (relaxes_load h location).bind fun tree _ => Schema.relaxes_compileTree (h .dfaStates) tree

theorem relaxes_compileEntry (h : loader.limits.IsWithin limits') (entry : String) :
    Relaxes (loader.compileEntry entry) ({ loader with limits := limits' }.compileEntry entry) := by
  have hload : Relaxes (loader.loadEntry entry)
      ({ loader with limits := limits' }.loadEntry entry) := by
    unfold loadEntry
    dsimp only
    split
    · exact .refl _
    · exact relaxes_load h _
  exact hload.bind fun tree _ => Schema.relaxes_compileTree (h .dfaStates) tree

end Loader

/-! ### Compact texts -/

theorem CompactElement.relaxes_resolve (hle : limits.maxDfaStates ≤ limits'.maxDfaStates)
    (table : List String) (element : CompactElement) :
    Relaxes (element.resolve limits table) (element.resolve limits' table) := by
  unfold resolve
  refine (Relaxes.refl _).bind fun name _ => (Relaxes.refl _).bind fun _ _ =>
    (Relaxes.refl _).bind fun model _ => ?_
  exact (Expression.relaxes_compile hle name model).bind fun _ _ => .refl _

theorem Schema.relaxes_ofText (hle : limits.maxDfaStates ≤ limits'.maxDfaStates) (text : String) :
    Relaxes (ofText limits text) (ofText limits' text) := by
  have henter : ∀ table entries element,
    Relaxes (CompactDocument.enter limits table entries element)
      (CompactDocument.enter limits' table entries element) :=
    fun table _ element => (element.relaxes_resolve hle table).bind fun _ _ => .refl _
  unfold ofText
  split
  · exact .refl _
  · refine (Relaxes.refl _).bind fun _ _ => ?_
    exact (Relaxes.foldlM (fun entries element _ => henter _ entries element) _).bind fun _ _ =>
      .refl _

/-! ### Documents -/

namespace Document

theorem Builder.relaxes_step (hle : limits.maxXmlDepth ≤ limits'.maxXmlDepth) (builder : Builder)
    (event : Event) : Relaxes (step limits builder event) (step limits' builder event) := by
  have hcheck := fun amount =>
    Limits.relaxes_check (show limits.bound .xmlDepth ≤ limits'.bound .xmlDepth from hle) amount
  unfold step
  cases event with
  | start tag => exact (Relaxes.refl _).bind fun _ _ => (hcheck _).bind fun _ _ => .refl _
  | empty tag => exact (Relaxes.refl _).bind fun _ _ => (hcheck _).bind fun _ _ => .refl _
  | finish => exact .refl _
  | text content => exact .refl _
  | cdata content => exact .refl _
  | remark => exact .refl _
  | broken => exact .refl _

theorem relaxes_read (h : limits.IsWithin limits') (bytes : List UInt8) :
    Relaxes (read limits bytes) (read limits' bytes) := by
  unfold read ofEvents
  refine (Limits.relaxes_check (h .xmlSize) _).bind fun _ _ => ?_
  exact (Relaxes.foldlM (fun builder event _ => builder.relaxes_step (h .xmlDepth) event) _).bind
    fun _ _ => .refl _

end Document

/-! ### All that is read -/

/-- **Limits only ever refuse.** What is read under some limits, from a grammar at a location or one
that is looked up, from a compact text or from a document, is read under wider ones as well and is
the same, and a failure for any other reason than a limit is the same. -/
theorem Limits.IsWithin.relaxes (h : limits.IsWithin limits') :
    (∀ store directories location, Relaxes (Loader.compile ⟨store, directories, limits⟩ location)
      (Loader.compile ⟨store, directories, limits'⟩ location)) ∧
    (∀ store directories entry, Relaxes (Loader.compileEntry ⟨store, directories, limits⟩ entry)
      (Loader.compileEntry ⟨store, directories, limits'⟩ entry)) ∧
    (∀ text, Relaxes (Schema.ofText limits text) (Schema.ofText limits' text)) ∧
    ∀ bytes, Relaxes (Document.read limits bytes) (Document.read limits' bytes) := by
  refine ⟨fun store directories location => ?_, fun store directories entry => ?_,
    Schema.relaxes_ofText (h .dfaStates), Document.relaxes_read h⟩
  · exact @Loader.relaxes_compile limits' ⟨store, directories, limits⟩ h location
  · exact @Loader.relaxes_compileEntry limits' ⟨store, directories, limits⟩ h entry

/-- A document that just fits. -/
theorem Limits.IsWithin.relaxes_nested :
    Limits.IsWithin { maxXmlDepth := 2 } {} ∧
      Document.read {} ("<a><b/></a>".toList.map Document.byte) =
        .ok (some ⟨"a", .empty, [.element "b" .empty []]⟩) := by
  have hwithin : Limits.IsWithin { maxXmlDepth := 2 } {} := by
    intro resource
    cases resource <;> decide
  have hread : Document.read { maxXmlDepth := 2 } ("<a><b/></a>".toList.map Document.byte) =
      .ok (some ⟨"a", .empty, [.element "b" .empty []]⟩) := by
    cbv
  obtain ⟨-, -, -, hdocument⟩ := hwithin.relaxes
  exact ⟨hwithin, (hdocument _).ok _ hread⟩

end RelaxSchema
