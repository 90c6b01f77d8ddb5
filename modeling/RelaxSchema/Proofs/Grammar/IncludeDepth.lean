import RelaxSchema.Proofs.Limits
import RelaxSchema.Proofs.Grammar.Includes
import RelaxSchema.Proofs.Grammar.Links

/-!
# The depth of includes

* `Loader.run_loadAtDepth`: loading that only counts the links from the entry comes to an end, after
  as many levels of recursion as are allowed, with the same result as loading within a budget;
* `Loader.loadWithin_cases`: where all files are usable, a file is loaded if all chains of includes
  that begin there are shorter than the budget, and else it is refused because of its depth;
* `Loader.loadEntry_within_depth`: so the entry is loaded exactly if no chain has more links than
  allowed, and includes that lead back to where they were are always refused.

One level of loading works off the includes of one file. It succeeds if all of them are loaded, and
if the only failure among them is the refusal of the depth, it fails with that
(`Loader.loadWithin_succ_cases`). The theorem follows by induction on the budget.
-/

namespace RelaxSchema

open List

/-! ### Attributes in the document -/

/-- The elements of a name have the attributes that the nodes of the tree have. -/
theorem Forest.IsDocument.map_attribute?_findAll {forest : Forest} {tree other : PlantedTree}
    (h : forest.IsDocument tree) (hother : other ∈ tree.preorder) (name key : String) :
    (forest.findAll other.id name).map (fun id => forest.attribute? id key) =
      (other.toTree.findAll name).map fun node => node.attribute? key := by
  have hnames : ((fun node : Tree => decide (node.name = name)) ∘ PlantedTree.toTree) =
      fun node => decide (node.name = name) := by
    funext node
    rw [Function.comp_apply, PlantedTree.name_toTree]
  rw [h.findAll_eq hother, Tree.findAll, Tree.descendants, PlantedTree.children_toTree,
    ← PlantedTree.map_toTree_preorderAll, filter_map, hnames, map_map, map_map]
  apply map_congr_left
  intro node hnode
  obtain ⟨parent, hholds⟩ := h.exists_holds (PlantedTree.preorder_trans hother
    (PlantedTree.mem_preorder_of_below (mem_of_mem_filter hnode)))
  show forest.attribute? node.id key = node.toTree.attribute? key
  rw [Forest.attribute?, hholds.node_eq, PlantedTree.toTree_eq, Tree.attribute?]

namespace Loader

variable {loader : Loader}

/-! ### One file -/

section OneFile

variable {load : Location → Except Error Forest} {location : Location} {href : Option String}

/-- An include is found by its address, then its file is loaded, and then the grammar element is
looked for. -/
theorem included_eq : loader.included load location href =
    loader.target location href >>= fun path => load path >>= fun other =>
      match other.grammar? with
      | none => .error (.resolution (.noGrammarElement (href.getD "")))
      | some grammar => .ok (other, grammar) := by
  cases href <;> rfl

/-- **The includes of a file are worked off without failure, or they fail as the first of them
does.** -/
theorem foldlM_expandInclude_cases {refusal : Error} {forest : Forest} {tree : PlantedTree}
    {hrefs : Nat → Option String} {pending : List Nat} (h : forest.IsDocument tree)
    (hpending : ArePending forest hrefs pending)
    (hcases : ∀ id ∈ pending, (∃ found, loader.included load location (hrefs id) = .ok found) ∨
      loader.included load location (hrefs id) = .error refusal) :
    (∃ forest', pending.foldlM (loader.expandInclude load location) forest = .ok forest') ∧
        (∀ id ∈ pending, ∃ found, loader.included load location (hrefs id) = .ok found) ∨
      pending.foldlM (loader.expandInclude load location) forest = .error refusal ∧
        ∃ id ∈ pending, loader.included load location (hrefs id) = .error refusal := by
  induction pending generalizing forest tree with
  | nil => exact .inl ⟨⟨forest, rfl⟩, fun id hid => absurd hid not_mem_nil⟩
  | cons element rest ih =>
    obtain ⟨hfirst, hrest⟩ := forall_mem_cons.mp hcases
    have hhref := hpending.attribute?_eq element mem_cons_self
    obtain ⟨parent, hparent⟩ := hpending.exists_parent element mem_cons_self
    rw [foldlM_cons]
    rcases hfirst with ⟨⟨other, grammar⟩, hincluded⟩ | hrefused
    · have hstep : loader.expandInclude load location forest element =
          .ok (forest.substitute parent element other (other.children grammar)) := by
        unfold expandInclude
        rw [hhref, hincluded, hparent]
        rfl
      obtain ⟨trees, -, hsubstituted⟩ :=
        Forest.exists_isSubstituted h.isLinked hparent other (other.children grammar)
      rw [hstep]
      -- The other includes wait in the forest as before.
      rcases ih (h.substitute hparent hsubstituted) (hpending.substitute hsubstituted) hrest with
        ⟨hok, hall⟩ | ⟨hrefused, id, hid, herror⟩
      · exact .inl ⟨hok, forall_mem_cons.mpr ⟨⟨_, hincluded⟩, hall⟩⟩
      · exact .inr ⟨hrefused, id, mem_cons_of_mem _ hid, herror⟩
    · refine .inr ⟨?_, element, mem_cons_self, hrefused⟩
      unfold expandInclude
      rw [hhref, hrefused]
      rfl

end OneFile

/-- What is loaded has a grammar element. -/
theorem exists_grammar?_of_loadWithin {budget : Nat} {location : Location} {forest : Forest}
    (h : loader.loadWithin budget location = .ok forest) :
    ∃ grammar, forest.grammar? = some grammar := by
  obtain ⟨tree, htree, hexpands⟩ := expands_of_loadWithin h
  obtain ⟨grammar, hgrammar, -⟩ := hexpands.forall_descendants
  rw [PlantedTree.grammar?_toTree] at hgrammar
  obtain ⟨planted, hplanted, -⟩ := Option.map_eq_some_iff.mp hgrammar
  exact ⟨planted.id, by rw [htree.grammar?_eq, hplanted, Option.map_some]⟩

/-- **One level of loading.** If the included files can be loaded, or else are refused in one and
the same way, then so is the file. -/
theorem loadWithin_succ_cases {budget : Nat} {location : Location} {targets : List Location}
    {refusal : Error} (hlinks : loader.links location = .ok targets)
    (hcases : ∀ path ∈ targets, (∃ other, loader.loadWithin budget path = .ok other) ∨
      loader.loadWithin budget path = .error refusal) :
    (∃ forest, loader.loadWithin (budget + 1) location = .ok forest) ∧
        (∀ path ∈ targets, ∃ other, loader.loadWithin budget path = .ok other) ∨
      loader.loadWithin (budget + 1) location = .error refusal ∧
        ∃ path ∈ targets, loader.loadWithin budget path = .error refusal := by
  obtain ⟨parsed, hparsed, hrest⟩ := bind_eq_ok_iff.mp hlinks
  obtain ⟨tree, rfl, htree⟩ := Forest.isDocument_ofTree parsed
  rw [PlantedTree.grammar?_toTree] at hrest
  cases hgrammar : tree.grammar? with
  | none =>
    rw [hgrammar] at hrest
    cases hrest
  | some grammar =>
    simp only [hgrammar, Option.map_some] at hrest
    have hmem : grammar ∈ tree.preorder := mem_of_find?_eq_some hgrammar
    rw [← htree.map_attribute?_findAll hmem, mapM_eq_ok_iff, forall₂_map_left_iff] at hrest
    have hloads : loader.loadWithin (budget + 1) location =
        ((Forest.ofTree tree.toTree).findAll grammar.id "include").foldlM
          (loader.expandInclude (loader.loadWithin budget) location)
          (Forest.ofTree tree.toTree) := by
      unfold loadWithin
      simp only [hparsed, bind, Except.bind, htree.grammar?_eq, hgrammar, Option.map_some]
    rw [hloads]
    -- An include is put in its place if its file is loaded, and it fails as its file does.
    have hincluded : ∀ href path, loader.target location href = .ok path →
        (∃ other, loader.loadWithin budget path = .ok other) →
          ∃ found, loader.included (loader.loadWithin budget) location href = .ok found := by
      rintro href path htarget ⟨other, hother⟩
      obtain ⟨inner, hinner⟩ := exists_grammar?_of_loadWithin hother
      refine ⟨(other, inner), ?_⟩
      rw [included_eq]
      exact bind_eq_ok_iff.mpr ⟨path, htarget, bind_eq_ok_iff.mpr ⟨other, hother, by rw [hinner]⟩⟩
    have hrefused : ∀ href path, loader.target location href = .ok path →
        loader.loadWithin budget path = .error refusal →
          loader.included (loader.loadWithin budget) location href = .error refusal := by
      intro href path htarget herror
      rw [included_eq]
      exact bind_eq_error_iff.mpr (.inr ⟨path, htarget, bind_eq_error_iff.mpr (.inl herror)⟩)
    have hpending := arePending_findAll htree hmem
    rcases foldlM_expandInclude_cases htree hpending (fun id hid => by
      obtain ⟨path, hpath, htarget⟩ := exists_right_of_forall₂ hrest hid
      exact (hcases path hpath).imp (hincluded _ _ htarget) (hrefused _ _ htarget)) with
      ⟨hok, hall⟩ | ⟨herror, id, hid, hfailed⟩
    · refine .inl ⟨hok, fun path hpath => (hcases path hpath).resolve_right fun hrefusal => ?_⟩
      obtain ⟨id, hid, htarget⟩ := exists_right_of_forall₂ hrest.flip hpath
      obtain ⟨found, hfound⟩ := hall id hid
      cases hfound.symm.trans (hrefused _ _ htarget hrefusal)
    · refine .inr ⟨herror, ?_⟩
      obtain ⟨path, hpath, htarget⟩ := exists_right_of_forall₂ hrest hid
      refine ⟨path, hpath, (hcases path hpath).resolve_left fun hloaded => ?_⟩
      obtain ⟨found, hfound⟩ := hincluded _ _ htarget hloaded
      cases hfound.symm.trans hfailed

/-! ### Chains of includes -/

/-- The failure of a file that is too many links away from the entry. -/
def tooDeep (loader : Loader) : Error :=
  .limitExceeded .includeDepth (loader.limits.maxIncludeDepth + 1) loader.limits.maxIncludeDepth

/-- **Where all files are usable, the budget decides.** Either the file is loaded and all chains of
includes that begin there are shorter than the budget, or it is refused because of its depth and one
of them is as long as the budget. -/
theorem loadWithin_cases {budget : Nat} {location : Location}
    (husable : ∀ other, Relation.ReflTransGen loader.LinksTo location other →
      loader.IsUsable other) : (∃ forest, loader.loadWithin budget location = .ok forest) ∧
        (∀ chain, IsChain loader.LinksTo (location :: chain) → chain.length < budget) ∨
      loader.loadWithin budget location = .error loader.tooDeep ∧
        ∃ chain, IsChain loader.LinksTo (location :: chain) ∧ chain.length = budget := by
  induction budget generalizing location with
  | zero => exact .inr ⟨rfl, [], .singleton _, rfl⟩
  | succ budget ih =>
    obtain ⟨targets, htargets⟩ := husable location .refl
    have hlinks : ∀ path ∈ targets, loader.LinksTo location path := fun path hpath =>
      (linksTo_iff htargets).mpr hpath
    -- What can be reached from an included file can be reached from here.
    have hbelow : ∀ path ∈ targets, ∀ other, Relation.ReflTransGen loader.LinksTo path other →
        loader.IsUsable other := fun path hpath other hother =>
      husable other (hother.head (hlinks path hpath))
    rcases loadWithin_succ_cases htargets (fun path hpath =>
        (ih (hbelow path hpath)).imp And.left And.left) with
          ⟨hok, hall⟩ | ⟨herror, path, hpath, hrefused⟩
    · refine .inl ⟨hok, fun chain hchain => ?_⟩
      cases chain with
      | nil => exact Nat.succ_pos budget
      | cons path rest =>
        obtain ⟨hlink, hrest⟩ := isChain_cons_cons.mp hchain
        have hpath : path ∈ targets := (linksTo_iff htargets).mp hlink
        obtain ⟨other, hother⟩ := hall path hpath
        rcases ih (hbelow path hpath) with ⟨-, hshort⟩ | ⟨hrefused, -⟩
        · exact Nat.succ_lt_succ (hshort rest hrest)
        · cases hother.symm.trans hrefused
    · refine .inr ⟨herror, ?_⟩
      rcases ih (hbelow path hpath) with ⟨⟨other, hother⟩, -⟩ | ⟨-, chain, hchain, hlength⟩
      · cases hother.symm.trans hrefused
      · exact ⟨path :: chain, hchain.cons_cons (hlinks path hpath), congrArg Nat.succ hlength⟩

/-! ### Loading without a budget -/

/-- Loads a grammar that is some links away from the entry, as far as so many levels of recursion
lead. Nothing but the check of the depth keeps the recursion from going on; the value is `none`
where more levels are needed. -/
def loadAtDepth (loader : Loader) : Nat → Nat → Location → ExceptT Error Option Forest
  | 0, _, _ => ExceptT.mk none
  | levels + 1, depth, location => do
    loader.limits.check .includeDepth depth
    let tree ← loader.parse location
    let forest := Forest.ofTree tree
    match forest.grammar? with
    | none => throw (.resolution (.noGrammarElement location.display))
    | some grammar =>
      (forest.findAll grammar "include").foldlM (fun forest element => do
        let path ← loader.target location (forest.attribute? element "href")
        let other ← loader.loadAtDepth levels (depth + 1) path
        loader.expandInclude (fun _ => .ok other) location forest element) forest

section Ends

variable {ε α β : Type}

theorem run_liftM (first : Except ε α) : (liftM first : ExceptT ε Option α).run = some first := rfl

/-- A computation whose first part ends goes on as its result tells. -/
theorem run_bind_of_run_eq {first : ExceptT ε Option α} {next : α → ExceptT ε Option β}
    {result : Except ε α} {result' : α → Except ε β} (h : first.run = some result)
    (h' : ∀ value, result = .ok value → (next value).run = some (result' value)) :
    (first >>= next).run = some (result >>= result') := by
  rw [ExceptT.run_bind, h]
  cases result with
  | error error => rfl
  | ok value => exact h' value rfl

theorem run_foldlM_of_run_eq {f : β → α → ExceptT ε Option β} {g : β → α → Except ε β}
    (h : ∀ state entry, (f state entry).run = some (g state entry)) (entries : List α) (state : β) :
    (entries.foldlM f state).run = some (entries.foldlM g state) := by
  induction entries generalizing state with
  | nil => rfl
  | cons entry rest ih =>
    rw [foldlM_cons, foldlM_cons]
    exact run_bind_of_run_eq (h state entry) fun next _ => ih next

end Ends

theorem expandInclude_eq_bind (load : Location → Except Error Forest) (location : Location)
    (forest : Forest) (element : Nat) : loader.expandInclude load location forest element =
      loader.target location (forest.attribute? element "href") >>= fun path =>
        load path >>= fun other =>
          loader.expandInclude (fun _ => .ok other) location forest element := by
  unfold expandInclude
  simp only [included_eq, bind_assoc]
  cases loader.target location (forest.attribute? element "href") with
  | error error => rfl
  | ok path => rfl

/-- **The recursion comes to an end**, on every store and with all includes, and its result is the
one within the budget that is left at its depth. -/
theorem run_loadAtDepth {levels budget depth : Nat}
    (h : depth + budget = loader.limits.maxIncludeDepth + 1) (hlevels : budget < levels)
    (location : Location) :
    (loader.loadAtDepth levels depth location).run = some (loader.loadWithin budget location) := by
  induction budget generalizing levels depth location with
  | zero =>
    obtain ⟨levels, rfl⟩ := Nat.exists_eq_add_one_of_ne_zero (Nat.ne_of_gt hlevels)
    have hcheck : loader.limits.check .includeDepth depth = .error loader.tooDeep := by
      obtain rfl : depth = loader.limits.maxIncludeDepth + 1 := h
      exact if_neg (Nat.not_succ_le_self _)
    rw [loadAtDepth, hcheck]
    rfl
  | succ budget ih =>
    obtain ⟨levels, rfl⟩ := Nat.exists_eq_add_one_of_ne_zero (Nat.ne_zero_of_lt hlevels)
    have hcheck : loader.limits.check .includeDepth depth = .ok () :=
      if_pos (show depth ≤ loader.limits.maxIncludeDepth by omega)
    -- The check says nothing more, and the rest is done as within the budget.
    have hpassed : ∀ next : ExceptT Error Option Forest,
        ((liftM (Except.ok () : Except Error Unit)) >>= fun _ => next).run = next.run :=
      fun next => rfl
    rw [loadAtDepth, hcheck, hpassed, loadWithin]
    refine run_bind_of_run_eq (run_liftM _) fun tree _ => ?_
    dsimp only
    cases (Forest.ofTree tree).grammar? with
    | none => rfl
    | some grammar =>
      refine run_foldlM_of_run_eq (fun forest element => ?_) _ _
      rw [expandInclude_eq_bind]
      refine run_bind_of_run_eq (run_liftM _) fun path _ => ?_
      exact run_bind_of_run_eq (ih (by omega) (Nat.lt_of_succ_lt_succ hlevels) path) fun other _ =>
        run_liftM _

/-! ### The entry -/

/-- Finds the entry grammar and loads it with the recursion that counts the links from there. -/
def loadEntryByDepth (loader : Loader) (levels : Nat) (entry : String) :
    ExceptT Error Option Tree :=
  match lookUp? loader.store entry none loader.searchDirectories with
  | none => throw (.resolution (.entryNotFound entry))
  | some path => do
    let forest ← loader.loadAtDepth levels 0 (.file path)
    pure (forest.tree Forest.root)

theorem run_loadEntryByDepth {levels : Nat} (hlevels : loader.limits.maxIncludeDepth + 1 < levels)
    (entry : String) : (loader.loadEntryByDepth levels entry).run =
      some (loader.loadEntry entry) := by
  unfold loadEntryByDepth loadEntry
  cases lookUp? loader.store entry none loader.searchDirectories with
  | none => rfl
  | some path =>
    exact run_bind_of_run_eq (run_loadAtDepth (Nat.zero_add _) hlevels (.file path)) fun forest _ =>
      rfl

theorem loadEntry_eq {entry path : String}
    (h : lookUp? loader.store entry none loader.searchDirectories = some path) :
    loader.loadEntry entry = loader.loadWithin (loader.limits.maxIncludeDepth + 1) (.file path) >>=
      fun forest => .ok (forest.tree Forest.root) := by
  unfold loadEntry
  rw [h]
  rfl

/-- **Loading comes to an end, and the depth of includes is limited exactly.** There are never more
levels of recursion than two more than the allowed links. Where all files that can be reached from
the entry are usable, it is loaded exactly if every chain of includes from it has at most as many
links as allowed, and else it is refused because of its depth. It is always refused if a chain comes
back to a file. -/
theorem loadEntry_within_depth (loader : Loader) (entry : String) :
    (∀ levels, loader.limits.maxIncludeDepth + 1 < levels →
      (loader.loadEntryByDepth levels entry).run = some (loader.loadEntry entry)) ∧
      ∀ path, lookUp? loader.store entry none loader.searchDirectories = some path →
        (∀ location, Relation.ReflTransGen loader.LinksTo (.file path) location →
          loader.IsUsable location) →
        ((∃ tree, loader.loadEntry entry = .ok tree) ↔ ∀ chain,
          IsChain loader.LinksTo (.file path :: chain) →
            chain.length ≤ loader.limits.maxIncludeDepth) ∧
        ((∃ tree, loader.loadEntry entry = .ok tree) ∨
          loader.loadEntry entry = .error loader.tooDeep) ∧
        ∀ same, loader.AreSame same → ∀ first last,
          Relation.ReflTransGen loader.LinksTo (.file path) first →
          Relation.TransGen loader.LinksTo first last → same first last →
          loader.loadEntry entry = .error loader.tooDeep := by
  refine ⟨fun levels hlevels => run_loadEntryByDepth hlevels entry, fun path hpath husable => ?_⟩
  have hloads := loadEntry_eq hpath
  rcases @loadWithin_cases loader (loader.limits.maxIncludeDepth + 1) (.file path) husable with
    ⟨⟨forest, hforest⟩, hshort⟩ | ⟨hrefused, chain, hchain, hlength⟩
  · rw [hforest] at hloads
    have hok : ∃ tree, loader.loadEntry entry = .ok tree := ⟨_, hloads⟩
    refine ⟨⟨fun _ chain hchain => Nat.le_of_lt_succ (hshort chain hchain), fun _ => hok⟩, .inl hok,
      ?_⟩
    -- A chain that comes back would not be short.
    intro same hsame first last hfirst hway hsameLast
    obtain ⟨chain, hchain, hlength⟩ :=
      exists_chain_of_same hsame hsameLast hway (loader.limits.maxIncludeDepth + 1)
    obtain ⟨longer, hlonger, hlonger'⟩ := exists_chain_of_reflTransGen hfirst hchain
    have hbound := hshort longer hlonger
    omega
  · rw [hrefused] at hloads
    have hrefusal : loader.loadEntry entry = .error loader.tooDeep := hloads
    refine ⟨⟨?_, fun hall => ?_⟩, .inr hrefusal, fun _ _ _ _ _ _ _ => hrefusal⟩
    · rintro ⟨tree, htree⟩
      cases htree.symm.trans hrefusal
    · have hbound := hall chain hchain
      omega

/-- A file that includes itself, and one that includes a third one. -/
def circularFiles : MemoryStore :=
  .ofFiles [
    ("lib/a", "<grammar><div><include href='../lib/a'/></div></grammar>"),
    ("b", "<grammar><include href='c'/></grammar>"),
    ("c", "<grammar><start/></grammar>")]

/-- A loader of these files. -/
def circularIncludes : Loader := ⟨circularFiles.toStore, [], {}⟩

/-- Each time around, the path of the first file gets longer. The second file can be loaded. -/
theorem loadEntry_within_depth_circular :
    circularIncludes.loadEntry "lib/a" = .error circularIncludes.tooDeep ∧
      (circularIncludes.loadEntryByDepth (circularIncludes.limits.maxIncludeDepth + 2)
        "lib/a").run = some (.error circularIncludes.tooDeep) ∧
      ∃ tree, circularIncludes.loadEntry "b" = .ok tree := by
  have ha : circularIncludes.links (.file "lib/a") = .ok [.file "lib/../lib/a"] := by
    have htree : circularIncludes.parse (.file "lib/a") = .ok (.plain "grammar" [
        .plain "div" [⟨"include", .ofList [("href", "../lib/a")], []⟩]]) := by cbv
    rw [links, htree]
    rfl
  have hb : circularIncludes.links (.file "b") = .ok [.file "c"] := by cbv
  have hc : circularIncludes.links (.file "c") = .ok [] := by cbv
  have hapart : circularFiles.IsApart := by decide +kernel
  have hspelling : Location.IsSpelling (.file "lib/a") (.file "lib/../lib/a") := by
    decide +kernel
  have husable : ∀ first ∈ [Location.file "lib/a", .file "b", .file "c"], ∀ last,
      Relation.ReflTransGen circularIncludes.LinksTo first last →
        circularIncludes.IsUsable last := by
    refine fun first hfirst last => isUsable_of_reflTransGen hapart ?_ hfirst
    refine forall_mem_cons.mpr ⟨⟨_, ha, ?_⟩,
      forall_mem_cons.mpr ⟨⟨_, hb, ?_⟩, forall_mem_singleton.mpr ⟨_, hc, ?_⟩⟩⟩
    · exact forall_mem_singleton.mpr ⟨.file "lib/a", by simp, hspelling⟩
    · exact forall_mem_singleton.mpr ⟨.file "c", by simp, rfl⟩
    · exact fun path hpath => absurd hpath not_mem_nil
  have hrefused : circularIncludes.loadEntry "lib/a" = .error circularIncludes.tooDeep := by
    have hentry : lookUp? circularIncludes.store "lib/a" none circularIncludes.searchDirectories =
        some "lib/a" := by rfl
    exact ((loadEntry_within_depth circularIncludes "lib/a").2 "lib/a" hentry
      (husable _ (by simp))).2.2 Location.IsSpelling (areSame_isSpelling hapart) _ _ .refl
      (.single ((linksTo_iff ha).mpr mem_cons_self)) hspelling
  refine ⟨hrefused, ?_, ?_⟩
  · rw [(loadEntry_within_depth circularIncludes "lib/a").1 _ (Nat.lt_succ_self _), hrefused]
  · have hentry : lookUp? circularIncludes.store "b" none circularIncludes.searchDirectories =
        some "b" := by rfl
    refine ((loadEntry_within_depth circularIncludes "b").2 "b" hentry
      (husable _ (by simp))).1.mpr fun chain hchain => ?_
    -- From the second file a chain leads to the third one, and no further.
    rcases chain with - | ⟨first, - | ⟨second, rest⟩⟩
    · exact Nat.zero_le _
    · exact Nat.le_of_ble_eq_true rfl
    · obtain ⟨hfirst, hrest⟩ := isChain_cons_cons.mp hchain
      obtain rfl : first = .file "c" := by simpa using (linksTo_iff hb).mp hfirst
      exact absurd ((linksTo_iff hc).mp (isChain_cons_cons.mp hrest).1) not_mem_nil

end Loader

end RelaxSchema
