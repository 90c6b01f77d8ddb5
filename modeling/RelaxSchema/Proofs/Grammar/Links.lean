import RelaxSchema.Proofs.Traversal
import RelaxSchema.Proofs.Store.Path
import RelaxSchema.Grammar.Includes

/-!
# Links between files

Which files a file includes (`Loader.links`), without loading any of them.

* `Loader.exists_chain_of_same`: a chain of includes that comes back to a file goes on for ever,
  also where the path of the file is spelled in another way each time;
* `Loader.areSame_isSpelling`: on a memory store the spelling of a path makes no difference to what
  the file includes.

The address in an include is looked up as it is, in the directory of the including file and in the
search directories. In two spellings of that directory the candidates are spellings of the same
files (`Loader.isFile_join_congr`), and so the same of them is taken (`exists_find?_of_forall₂`).
-/

namespace RelaxSchema

open List

/-! ### Spellings of a location -/

namespace Location

/-- What all spellings of a location have in common: the normal forms of the path and of its
directory, or the text. -/
def place : Location → (List (List Char) × List (List Char)) ⊕ String
  | .file path => .inl (Path.normalParts path.toList, Path.normalParts (Path.parent path).toList)
  | .inline text => .inr text

/-- Both are spellings of one location. -/
def IsSpelling (location other : Location) : Prop := location.place = other.place

instance (location other : Location) : Decidable (location.IsSpelling other) :=
  inferInstanceAs (Decidable (location.place = other.place))

theorem isSpelling_file_iff {path other : String} :
    IsSpelling (.file path) (.file other) ↔
      Path.normalParts path.toList = Path.normalParts other.toList ∧
      Path.normalParts (Path.parent path).toList = Path.normalParts (Path.parent other).toList := by
  rw [IsSpelling, place, place, Sum.inl.injEq, Prod.mk.injEq]

end Location

namespace Loader

variable {loader : Loader}

/-! ### Links -/

/-- The file that an include at a location refers to, if it has an address. -/
def target (loader : Loader) (location : Location) (href : Option String) : Except Error Location :=
  match href with
  | none => .error (.resolution (.includeWithoutHref location.display))
  | some href => loader.resolve location href

theorem target_eq_ok_iff {location path : Location} {href : Option String} :
    loader.target location href = .ok path ↔ ∃ address found, href = some address ∧
      lookUp? loader.store address (some location.baseDirectory) loader.searchDirectories =
        some found ∧ path = .file found := by
  unfold target resolve
  constructor
  · intro h
    split at h
    · cases h
    · rename_i address
      split at h
      · cases h
      · rename_i found hfound
        exact ⟨address, found, rfl, hfound, (Except.ok.inj h).symm⟩
  · rintro ⟨address, found, rfl, hfound, rfl⟩
    simp only [hfound]

/-- The files that the includes below the grammar element of a file refer to, in document order. It
fails if the file cannot be read, is too large or malformed or has no grammar element, and if an
include has no address or there is no file under it. -/
def links (loader : Loader) (location : Location) : Except Error (List Location) := do
  let tree ← loader.parse location
  match tree.grammar? with
  | none => .error (.resolution (.noGrammarElement location.display))
  | some grammar =>
    ((grammar.findAll "include").map fun node => node.attribute? "href").mapM
      (loader.target location)

/-- The file can be read, and all its includes refer to files. -/
def IsUsable (loader : Loader) (location : Location) : Prop :=
  ∃ targets, loader.links location = .ok targets

/-- A file includes another one. -/
def LinksTo (loader : Loader) (location other : Location) : Prop :=
  ∃ targets, loader.links location = .ok targets ∧ other ∈ targets

/-- Where the same tree is read and its includes refer to related files, so do all of them
together. -/
theorem exists_links_of_parse {location other : Location} {same : Location → Location → Prop}
    (hparse : ∀ tree, loader.parse location = .ok tree → loader.parse other = .ok tree)
    (htarget : ∀ href path, loader.target location href = .ok path →
      ∃ path', loader.target other href = .ok path' ∧ same path path')
    {targets : List Location} (h : loader.links location = .ok targets) :
    ∃ targets', loader.links other = .ok targets' ∧ Forall₂ same targets targets' := by
  obtain ⟨tree, htree, hrest⟩ := bind_eq_ok_iff.mp h
  cases hgrammar : tree.grammar? with
  | none =>
    rw [hgrammar] at hrest
    cases hrest
  | some grammar =>
    simp only [hgrammar] at hrest
    have hall := mapM_eq_ok_iff.mp hrest
    obtain ⟨targets', htargets'⟩ := exists_mapM fun href hhref => by
      obtain ⟨path, -, hfound⟩ := exists_right_of_forall₂ hall hhref
      obtain ⟨path', hpath', -⟩ := htarget href path hfound
      exact ⟨path', hpath'⟩
    refine ⟨targets', bind_eq_ok_iff.mpr ⟨tree, hparse tree htree, ?_⟩, ?_⟩
    · simp only [hgrammar]
      exact htargets'
    · refine forall₂_of_forall₂ hall (mapM_eq_ok_iff.mp htargets')
        fun href _ path path' hfound hfound' => ?_
      obtain ⟨found', hsame', hsame⟩ := htarget href path hfound
      obtain rfl := Except.ok.inj (hfound'.symm.trans hsame')
      exact hsame

theorem linksTo_iff {location other : Location} {targets : List Location}
    (h : loader.links location = .ok targets) :
    loader.LinksTo location other ↔ other ∈ targets := by
  constructor
  · rintro ⟨others, hothers, hmem⟩
    obtain rfl := Except.ok.inj (h.symm.trans hothers)
    exact hmem
  · exact fun hmem => ⟨targets, h, hmem⟩

/-! ### Chains of includes -/

/-- What is included at one place is also included at another one that stands for the same file,
again at places that stand for the same file. Equality is such a relation, and so is
`Location.IsSpelling` on a memory store (`areSame_isSpelling`). -/
def AreSame (loader : Loader) (same : Location → Location → Prop) : Prop :=
  ∀ location other path, same location other → loader.LinksTo location path →
    ∃ path', loader.LinksTo other path' ∧ same path path'

section Same

variable {same : Location → Location → Prop}

/-- A way through includes can be taken from another place that stands for the same file. -/
theorem AreSame.exists_transGen (hsame : loader.AreSame same) {location other last : Location}
    (h : same location other) (hway : Relation.TransGen loader.LinksTo location last) :
    ∃ last', Relation.TransGen loader.LinksTo other last' ∧ same last last' := by
  induction hway with
  | single hlink =>
    obtain ⟨path', hlink', hpath⟩ := hsame _ _ _ h hlink
    exact ⟨path', .single hlink', hpath⟩
  | tail _ hlink ih =>
    obtain ⟨middle, hway', hmiddle⟩ := ih
    obtain ⟨path', hlink', hpath⟩ := hsame _ _ _ hmiddle hlink
    exact ⟨path', hway'.tail hlink', hpath⟩

theorem exists_chain_of_transGen {location last : Location}
    (hway : Relation.TransGen loader.LinksTo location last) {chain : List Location}
    (hchain : IsChain loader.LinksTo (last :: chain)) :
    ∃ longer, IsChain loader.LinksTo (location :: longer) ∧ chain.length < longer.length := by
  induction hway using Relation.TransGen.head_induction_on with
  | single hlink => exact ⟨last :: chain, hchain.cons_cons hlink, Nat.lt_succ_self _⟩
  | @head location middle hlink _ ih =>
    obtain ⟨longer, hlonger, hlength⟩ := ih
    exact ⟨middle :: longer, hlonger.cons_cons hlink, Nat.lt_succ_of_lt hlength⟩

theorem exists_chain_of_reflTransGen {location last : Location}
    (hway : Relation.ReflTransGen loader.LinksTo location last) {chain : List Location}
    (hchain : IsChain loader.LinksTo (last :: chain)) :
    ∃ longer, IsChain loader.LinksTo (location :: longer) ∧ chain.length ≤ longer.length := by
  rcases Relation.reflTransGen_iff_eq_or_transGen.mp hway with rfl | hway
  · exact ⟨chain, hchain, Nat.le_refl _⟩
  · obtain ⟨longer, hlonger, hlength⟩ := exists_chain_of_transGen hway hchain
    exact ⟨longer, hlonger, Nat.le_of_lt hlength⟩

/-- **A chain that comes back to a file can be made as long as one likes.** -/
theorem exists_chain_of_same (hsame : loader.AreSame same) {first last : Location}
    (h : same first last) (hway : Relation.TransGen loader.LinksTo first last) (length : Nat) :
    ∃ chain, IsChain loader.LinksTo (first :: chain) ∧ length ≤ chain.length := by
  induction length generalizing first last with
  | zero => exact ⟨[], .singleton first, Nat.le_refl 0⟩
  | succ length ih =>
    -- The way from the first place to the last one leads on from there.
    obtain ⟨next, hnext, hsameNext⟩ := hsame.exists_transGen h hway
    obtain ⟨chain, hchain, hlength⟩ := ih hsameNext hnext
    obtain ⟨longer, hlonger, hlonger'⟩ := exists_chain_of_transGen hway hchain
    exact ⟨longer, hlonger, by omega⟩

end Same

/-! ### Includes of a file in another spelling -/

section Memory

variable {store : MemoryStore} {searchDirectories : List String} {limits : Limits}
    {path other : String}

/-- Seen from two spellings of the directory of a file, an address stands for spellings of one
file. -/
theorem isFile_join_congr (hstore : store.IsApart) (hfile : (store.text? path).isSome = true)
    (h : Path.normalParts (Path.parent path).toList = Path.normalParts (Path.parent other).toList)
    (href : String) :
    store.toStore.isFile (Path.join (Path.parent path) href) =
        store.toStore.isFile (Path.join (Path.parent other) href) ∧
      (store.toStore.isFile (Path.join (Path.parent path) href) = true →
        Location.IsSpelling (.file (Path.join (Path.parent path) href))
          (.file (Path.join (Path.parent other) href))) := by
  have hjoin := Path.normalParts_join_congr h href
  refine ⟨MemoryStore.isFile_congr hjoin, fun hfound =>
    Location.isSpelling_file_iff.mpr ⟨hjoin, ?_⟩⟩
  cases habsolute : Path.isAbsolute href with
  | true => rw [Path.join_absolute habsolute, Path.join_absolute habsolute]
  | false =>
    refine Path.normalParts_parent_join_congr h fun hnone => ?_
    -- Else the directory itself would be a file.
    rw [MemoryStore.isFile_congr (Path.normalParts_join_of_essential habsolute hnone _)] at hfound
    have hnot : store.toStore.isFile (Path.parent path) = false :=
      congrArg Option.isSome (MemoryStore.text?_parent hstore hfile)
    exact Bool.false_ne_true (hnot.symm.trans hfound)

/-- From two spellings of a file, an include leads to two spellings of a file. -/
theorem exists_target_of_isSpelling (hstore : store.IsApart)
    (hfile : (store.text? path).isSome = true) (h : Location.IsSpelling (.file path) (.file other))
    {href : Option String} {location : Location}
    (htarget : target ⟨store.toStore, searchDirectories, limits⟩ (.file path) href = .ok location) :
    ∃ location', target ⟨store.toStore, searchDirectories, limits⟩ (.file other) href =
      .ok location' ∧ location.IsSpelling location' := by
  obtain ⟨address, found, rfl, hfound, rfl⟩ := target_eq_ok_iff.mp htarget
  have hrefl : ∀ path : String, store.toStore.isFile path = store.toStore.isFile path ∧
      (store.toStore.isFile path = true → Location.IsSpelling (.file path) (.file path)) :=
    fun path => ⟨rfl, fun _ => rfl⟩
  -- Only the second candidate depends on the including file.
  obtain ⟨found', hfound', hspelling⟩ := exists_find?_of_forall₂
    (R := fun path other => Location.IsSpelling (.file path) (.file other))
    (.cons (hrefl address) (.cons (isFile_join_congr hstore hfile
      (Location.isSpelling_file_iff.mp h).2 address)
      (forall₂_same.mpr fun path _ => hrefl path))) hfound
  exact ⟨.file found', target_eq_ok_iff.mpr ⟨address, found', rfl, hfound', rfl⟩, hspelling⟩

/-- What is read under one spelling is read under the other one. -/
theorem parse_of_isSpelling (h : store.text? path = store.text? other) {tree : Tree}
    (htree : parse ⟨store.toStore, searchDirectories, limits⟩ (.file path) = .ok tree) :
    (store.text? path).isSome = true ∧
      parse ⟨store.toStore, searchDirectories, limits⟩ (.file other) = .ok tree := by
  obtain ⟨text, htext, hrest⟩ := bind_eq_ok_iff.mp htree
  obtain ⟨checked, hchecked, hparse⟩ := bind_eq_ok_iff.mp hrest
  have hfound : store.text? path = some text := MemoryStore.read_eq_ok_iff.mp htext
  refine ⟨Option.isSome_iff_exists.mpr ⟨text, hfound⟩, ?_⟩
  refine bind_eq_ok_iff.mpr ⟨text, MemoryStore.read_eq_ok_iff.mpr (h.symm.trans hfound), ?_⟩
  refine bind_eq_ok_iff.mpr ⟨checked, hchecked, ?_⟩
  unfold Tree.parse at hparse ⊢
  split at hparse
  · exact hparse
  · cases hparse

/-- **All spellings of a path stand for the same file** of a memory store: its includes refer to
spellings of the same files. -/
theorem exists_links_of_isSpelling (hstore : store.IsApart) {location location' : Location}
    (h : location.IsSpelling location') {targets : List Location}
    (htargets : links ⟨store.toStore, searchDirectories, limits⟩ location = .ok targets) :
    ∃ targets', links ⟨store.toStore, searchDirectories, limits⟩ location' = .ok targets' ∧
      Forall₂ Location.IsSpelling targets targets' := by
  cases location with
  | inline text =>
    cases location' with
    | file other => cases h
    | inline other =>
      obtain rfl := Sum.inr.inj h
      exact ⟨targets, htargets, forall₂_same.mpr fun path _ => rfl⟩
  | file path =>
    cases location' with
    | inline text => cases h
    | file other =>
      have hsame : store.text? path = store.text? other :=
        MemoryStore.text?_congr (Location.isSpelling_file_iff.mp h).1
      obtain ⟨tree, htree, -⟩ := bind_eq_ok_iff.mp htargets
      exact exists_links_of_parse (fun tree htree => (parse_of_isSpelling hsame htree).2)
        (fun href path => exists_target_of_isSpelling hstore (parse_of_isSpelling hsame htree).1 h)
        htargets

theorem areSame_isSpelling (hstore : store.IsApart) :
    AreSame ⟨store.toStore, searchDirectories, limits⟩ Location.IsSpelling := by
  rintro location other path hspelling ⟨targets, htargets, hmem⟩
  obtain ⟨targets', htargets', hall⟩ := exists_links_of_isSpelling hstore hspelling htargets
  obtain ⟨path', hmem', hpath'⟩ := exists_right_of_forall₂ hall hmem
  exact ⟨path', ⟨targets', htargets', hmem'⟩, hpath'⟩

/-- Files that only include each other, under whatever spellings, are all usable. -/
theorem isUsable_of_reflTransGen (hstore : store.IsApart) {locations : List Location}
    (hclosed : ∀ location ∈ locations, ∃ targets,
      links ⟨store.toStore, searchDirectories, limits⟩ location = .ok targets ∧
        ∀ path ∈ targets, ∃ known ∈ locations, known.IsSpelling path)
    {first last : Location} (hfirst : first ∈ locations)
    (h : Relation.ReflTransGen (LinksTo ⟨store.toStore, searchDirectories, limits⟩) first last) :
    IsUsable ⟨store.toStore, searchDirectories, limits⟩ last := by
  have hknown : ∃ known ∈ locations, known.IsSpelling last := by
    induction h with
    | refl => exact ⟨first, hfirst, rfl⟩
    | tail _ hlink ih =>
      obtain ⟨known, hmem, hspelling⟩ := ih
      obtain ⟨targets, htargets, hall⟩ := hclosed known hmem
      obtain ⟨targets', htargets', hsame⟩ := exists_links_of_isSpelling hstore hspelling htargets
      obtain ⟨path, hpath, hspelled⟩ :=
        exists_right_of_forall₂ hsame.flip ((linksTo_iff htargets').mp hlink)
      obtain ⟨known', hmem', hknown'⟩ := hall path hpath
      exact ⟨known', hmem', Eq.trans hknown' hspelled⟩
  obtain ⟨known, hmem, hspelling⟩ := hknown
  obtain ⟨targets, htargets, -⟩ := hclosed known hmem
  obtain ⟨targets', htargets', -⟩ := exists_links_of_isSpelling hstore hspelling htargets
  exact ⟨targets', htargets'⟩

end Memory

end Loader

end RelaxSchema
