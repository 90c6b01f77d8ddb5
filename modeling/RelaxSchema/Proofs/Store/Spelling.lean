import RelaxSchema.Grammar.Location
import RelaxSchema.Proofs.Store.Path

/-!
# Spellings of a path, and what is found under them

Two texts are spellings of one path if parts that say nothing and detours through a directory lead
from one to the other (`Path.AreSpellings`).

* `Path.areSpellings_iff`: these are the texts with the same normal form;
* `Path.normalise_join_congr`: from spellings of one directory, spellings of one path lead to the
  same;
* `MemoryStore.answersAlike_of_areSpellings`: so a memory store gives the same answers for all of
  them, and from spellings of the same directories an address is found at the same place of the list
  of candidates.

Behind other parts, the normal form of a path leads to the same as the path
(`Path.foldl_reduce_foldl`). So it makes no difference that a step upward in the path may take back
a part of the directory.
-/

namespace RelaxSchema

open List

namespace Path

variable {part : List Char}

/-! ### The normal form in the place of a path -/

theorem reduce_of_isVoid (h : isVoid part = true) (reversed : List (List Char)) :
    reduce reversed part = reversed :=
  if_pos h

theorem reduce_of_ne_up (hvoid : isVoid part = false) (hup : part ≠ up)
    (reversed : List (List Char)) : reduce reversed part = part :: reversed := by
  rw [reduce.eq_def, hvoid, if_neg Bool.false_ne_true, if_neg hup]

/-- A detour takes back the part that it began with. -/
theorem reduce_detour (hvoid : isVoid part = false) (hup : part ≠ up)
    (reversed : List (List Char)) : reduce (reduce reversed part) up = reversed := by
  rw [reduce_of_ne_up hvoid hup]
  exact if_neg hup

/-- One more part does the same behind a normal form. -/
theorem foldl_reduce_reduce {normal : List (List Char)}
    (hnormal : ∀ part ∈ normal, isVoid part = false) (part : List Char)
    (reversed : List (List Char)) :
    (reduce normal part).reverse.foldl reduce reversed
      = reduce (normal.reverse.foldl reduce reversed) part := by
  fun_cases reduce normal part with
  | case1 normal hvoid => exact (reduce_of_isVoid hvoid _).symm
  | case2 _ hup => rw [hup, reverse_cons, foldl_concat]
  | case3 _ hup => rw [hup, reverse_cons, foldl_concat]
  | case4 _ hup last before hlast =>
    rw [hup, reverse_cons, foldl_concat, reduce_detour (hnormal last mem_cons_self) hlast]
  | case5 => rw [reverse_cons, foldl_concat]

/-- **The normal form of some parts does what the parts do**, whatever stands before them. -/
theorem foldl_reduce_foldl (parts reversed : List (List Char)) :
    (parts.foldl reduce []).reverse.foldl reduce reversed = parts.foldl reduce reversed := by
  induction parts using reverseRecOn with
  | nil => rfl
  | append_singleton parts part ih =>
    rw [foldl_concat, foldl_concat, foldl_reduce_reduce (fun _ => isVoid_eq_false_of_mem_foldl), ih]

theorem foldl_reduce_normalParts (path : List Char) (reversed : List (List Char)) :
    (normalParts path).foldl reduce reversed = (essential path).foldl reduce reversed := by
  rw [normalParts_eq, foldl_reduce_foldl]

/-- The normal form has the normal form of the path. -/
theorem normalParts_normalise (path : String) :
    normalParts (normalise path).toList = normalParts path.toList := by
  by_cases h : normalParts path.toList = []
  · rw [normalise, h]
    rfl
  · rw [normalParts, split_normalise h, foldl_reduce_normalParts, ← normalParts_eq]

theorem normalise_eq_iff {path other : String} :
    normalise path = normalise other ↔ normalParts path.toList = normalParts other.toList := by
  constructor
  · intro h
    rw [← normalParts_normalise path, h, normalParts_normalise]
  · intro h
    rw [normalise, normalise, h]

/-! ### Joining -/

/-- **From spellings of one directory, spellings of one path lead to the same.** -/
theorem normalise_join_congr {directory directory' path path' : String}
    (hdirectory : normalise directory = normalise directory')
    (hpath : normalise path = normalise path') (habsolute : isAbsolute path = isAbsolute path') :
    normalise (join directory path) = normalise (join directory' path') := by
  cases hroot : isAbsolute path with
  | true => rw [join_absolute hroot, join_absolute (habsolute ▸ hroot), hpath]
  | false =>
    rw [normalise_eq_iff] at hdirectory hpath ⊢
    rw [normalParts_eq_iff] at hdirectory ⊢
    rw [essential_join hroot, essential_join (habsolute ▸ hroot), foldl_append, foldl_append,
      hdirectory, ← foldl_reduce_normalParts path.toList, hpath, foldl_reduce_normalParts]

/-! ### Spellings -/

/-- The parts of a path when one that says nothing, or a detour, is put in. -/
inductive Respelling : List (List Char) → List (List Char) → Prop
  /-- An empty part or a dot, so one more slash or a step that stays. -/
  | void (before after : List (List Char)) {part : List Char} :
      isVoid part = true → Respelling (before ++ after) (before ++ part :: after)
  /-- A step into a directory and back. -/
  | detour (before after : List (List Char)) {part : List Char} :
      isVoid part = false → part ≠ up → Respelling (before ++ after) (before ++ part :: up :: after)

/-- Changes of spelling lead from one path to the other. -/
def AreSpellings (path other : String) : Prop :=
  Relation.EqvGen Respelling (split path.toList) (split other.toList)

theorem Respelling.foldl_reduce_eq {parts parts' : List (List Char)} (h : Respelling parts parts') :
    parts.foldl reduce [] = parts'.foldl reduce [] := by
  cases h with
  | void before after hvoid => rw [foldl_append, foldl_append, foldl_cons, reduce_of_isVoid hvoid]
  | detour before after hvoid hup =>
    rw [foldl_append, foldl_append, foldl_cons, foldl_cons, reduce_detour hvoid hup]

theorem Respelling.concat {parts parts' : List (List Char)} (h : Respelling parts parts')
    (part : List Char) : Respelling (parts ++ [part]) (parts' ++ [part]) := by
  cases h with
  | void before after hvoid =>
    rw [append_assoc, append_assoc]
    exact .void before (after ++ [part]) hvoid
  | detour before after hvoid hup =>
    rw [append_assoc, append_assoc]
    exact .detour before (after ++ [part]) hvoid hup

theorem foldl_reduce_eq_of_eqvGen {parts parts' : List (List Char)}
    (h : Relation.EqvGen Respelling parts parts') :
    parts.foldl reduce [] = parts'.foldl reduce [] := by
  induction h with
  | rel _ _ h => exact h.foldl_reduce_eq
  | refl => rfl
  | symm _ _ _ ih => exact ih.symm
  | trans _ _ _ _ _ ih ih' => exact ih.trans ih'

theorem eqvGen_concat {parts parts' : List (List Char)}
    (h : Relation.EqvGen Respelling parts parts') (part : List Char) :
    Relation.EqvGen Respelling (parts ++ [part]) (parts' ++ [part]) := by
  induction h with
  | rel _ _ h => exact .rel _ _ (h.concat part)
  | refl => exact .refl _
  | symm _ _ _ ih => exact .symm _ _ ih
  | trans _ _ _ _ _ ih ih' => exact .trans _ _ _ ih ih'

/-- One more part makes a spelling of the next normal form. -/
theorem eqvGen_reduce {normal : List (List Char)} (hnormal : ∀ part ∈ normal, isVoid part = false)
    (part : List Char) :
    Relation.EqvGen Respelling (normal.reverse ++ [part]) (reduce normal part).reverse := by
  fun_cases reduce normal part with
  | case1 normal hvoid =>
    have h := Respelling.void normal.reverse [] hvoid
    rw [append_nil] at h
    exact .symm _ _ (.rel _ _ h)
  | case2 _ hup => exact hup ▸ .refl _
  | case3 _ hup =>
    rw [hup, ← reverse_cons]
    exact .refl _
  | case4 _ hup last before hlast =>
    have h := Respelling.detour before.reverse [] (hnormal last mem_cons_self) hlast
    rw [append_nil] at h
    rw [hup, reverse_cons, append_assoc]
    exact .symm _ _ (.rel _ _ h)
  | case5 =>
    rw [← reverse_cons]
    exact .refl _

theorem eqvGen_foldl_reduce (parts : List (List Char)) :
    Relation.EqvGen Respelling parts (parts.foldl reduce []).reverse := by
  induction parts using reverseRecOn with
  | nil => exact .refl _
  | append_singleton parts part ih =>
    rw [foldl_concat]
    refine .trans _ _ _ ?_ (eqvGen_reduce (fun _ => isVoid_eq_false_of_mem_foldl) part)
    exact eqvGen_concat ih part

/-- **Paths are spellings of each other exactly if they have the same normal form.** -/
theorem areSpellings_iff {path other : String} :
    AreSpellings path other ↔ normalise path = normalise other := by
  rw [normalise_eq_iff, normalParts, normalParts, reverse_inj]
  refine ⟨foldl_reduce_eq_of_eqvGen, fun h => .trans _ _ _ (eqvGen_foldl_reduce _) ?_⟩
  rw [h]
  exact .symm _ _ (eqvGen_foldl_reduce _)

end Path

/-! ### Looking up an address -/

open RelaxSchema.Path

section Candidates

variable {href href' : String} {directory directory' : Option String} {search search' : List String}
  (hhref : normalise href = normalise href') (habsolute : isAbsolute href = isAbsolute href')
  (hdirectory : directory.map normalise = directory'.map normalise)
  (hsearch : search.map normalise = search'.map normalise)

include hhref habsolute hdirectory hsearch

/-- From spellings of the same directories, the candidates for an address are spellings of the same
paths. -/
theorem map_normalise_candidates :
    (candidates href directory search).map normalise =
      (candidates href' directory' search').map normalise := by
  have hall : (directory.toList ++ search).map normalise =
      (directory'.toList ++ search').map normalise := by
    rw [map_append, map_append, ← Option.toList_map, ← Option.toList_map, hdirectory, hsearch]
  rw [← forall₂_eq_eq_eq, forall₂_map_left_iff, forall₂_map_right_iff] at hall
  rw [candidates, candidates, map_cons, map_cons, hhref, map_map, map_map, ← forall₂_eq_eq_eq,
    forall₂_cons, forall₂_map_left_iff, forall₂_map_right_iff]
  exact ⟨rfl, hall.imp fun _ _ h => normalise_join_congr h hhref habsolute⟩

/-- The candidate that is taken stands at the same place. -/
theorem findIdx?_candidates_eq (store : MemoryStore) :
    (candidates href directory search).findIdx? store.toStore.isFile
      = (candidates href' directory' search').findIdx? store.toStore.isFile := by
  have hisFile : store.toStore.isFile = (fun name => (Catalogue.find? store name).isSome) ∘
      normalise := rfl
  rw [hisFile, ← findIdx?_map,
    map_normalise_candidates hhref habsolute hdirectory hsearch, findIdx?_map]

end Candidates

/-! ### Answers of a memory store -/

namespace MemoryStore

/-- Both paths are those of files or neither is. The same text is read, or each path is reported
missing as it was spelled. -/
structure AnswersAlike (store : MemoryStore) (path other : String) : Prop where
  /-- There is a file under both or under neither. -/
  isFile_eq : store.toStore.isFile path = store.toStore.isFile other
  /-- What is read. -/
  read_cases :
    (∃ text, store.toStore.read path = .ok text ∧ store.toStore.read other = .ok text) ∨
      store.toStore.read path = .error (.resolution (.noSuchFile path)) ∧
        store.toStore.read other = .error (.resolution (.noSuchFile other))

theorem answersAlike_of_normalise_eq {path other : String} (h : normalise path = normalise other)
    (store : MemoryStore) : store.AnswersAlike path other := by
  rw [normalise_eq_iff] at h
  have htext : store.text? path = store.text? other := text?_congr h
  refine ⟨isFile_congr h, ?_⟩
  cases hother : store.text? other with
  | none => exact .inr ⟨read_eq_error (htext.trans hother), read_eq_error hother⟩
  | some text => exact .inl ⟨text, read_eq_ok_iff.mpr (htext.trans hother),
      read_eq_ok_iff.mpr hother⟩

/-- **All spellings of a path lead to the same file.** The normal form is its own normal form, and a
path that does not begin at the root leads to the same from a directory and from its normal form. A
memory store answers alike for spellings of a path, also if they are made of spellings of a
directory and of an address; an address that begins at the root is the same from everywhere, so of
two spellings both begin there or neither does. From spellings of the same directories, the
candidate that is taken for an address stands at the same place. -/
theorem answersAlike_of_areSpellings :
    (∀ path, normalise (normalise path) = normalise path) ∧
    (∀ directory path, isAbsolute path = false →
      normalise (join directory path) = normalise (join (normalise directory) path)) ∧
    (∀ (store : MemoryStore) (path other : String), AreSpellings path other →
      store.AnswersAlike path other) ∧
    (∀ (store : MemoryStore) (directory directory' href href' : String),
      AreSpellings directory directory' →
      AreSpellings href href' → isAbsolute href = isAbsolute href' →
        store.AnswersAlike (join directory href) (join directory' href')) ∧
    ∀ (store : MemoryStore) (href href' : String) (directory directory' : Option String)
      (search search' : List String), AreSpellings href href' → isAbsolute href = isAbsolute href' →
      directory.map normalise = directory'.map normalise →
        search.map normalise = search'.map normalise → ∃ position : Option Nat,
          (candidates href directory search).findIdx? store.toStore.isFile = position ∧
          (candidates href' directory' search').findIdx? store.toStore.isFile = position ∧
          lookUp? store.toStore href directory search
            = position.bind (fun place => (candidates href directory search)[place]?) ∧
          lookUp? store.toStore href' directory' search'
            = position.bind fun place => (candidates href' directory' search')[place]? := by
  have hidempotent : ∀ path, normalise (normalise path) = normalise path :=
    fun path => normalise_eq_iff.mpr (normalParts_normalise path)
  refine ⟨hidempotent, fun directory path _ =>
    normalise_join_congr (hidempotent directory).symm rfl rfl,
    fun store path other h => answersAlike_of_normalise_eq (areSpellings_iff.mp h) store,
    fun store directory directory' href href' hdirectory hhref habsolute => ?_,
    fun store href href' directory directory' search search' hhref habsolute hdirectory hsearch =>
      ?_⟩
  · exact answersAlike_of_normalise_eq (normalise_join_congr (areSpellings_iff.mp hdirectory)
      (areSpellings_iff.mp hhref) habsolute) store
  · have hposition :=
      findIdx?_candidates_eq (areSpellings_iff.mp hhref) habsolute hdirectory hsearch store
    refine ⟨_, rfl, hposition.symm, find?_eq_bind_findIdx?_getElem?, ?_⟩
    rw [hposition]
    exact find?_eq_bind_findIdx?_getElem?

/-- A file that is spelled with a detour, one that is reached by a step upward which takes back a
part of the directory, and an address that is found from the second search directory. -/
theorem answersAlike_of_areSpellings_detours :
    let store := ofFiles [("./lib/main.rng", "main"), ("common.rng", "common")]
    normalise (normalise "lib//x/.././main.rng") = "lib/main.rng" ∧
      normalise (join (normalise "lib//x/..") "../common.rng") = "common.rng" ∧
      store.AnswersAlike "lib//x/.././main.rng" "lib/main.rng" ∧
      store.AnswersAlike (join "lib/x/.." "y/../../common.rng") (join "./lib" "../common.rng") ∧
      lookUp? store.toStore "main.rng" none ["vendor", "lib//x/.."] = some "lib//x/../main.rng" ∧
      lookUp? store.toStore "./main.rng" none ["./vendor", "lib/"] = some "lib/./main.rng" := by
  intro store
  obtain ⟨hidempotent, hjoin, hanswers, hjoined, hlookUp⟩ := answersAlike_of_areSpellings
  have hsearch : ["vendor", "lib//x/.."].map normalise = ["./vendor", "lib/"].map normalise := by
    decide
  obtain ⟨position, hposition, -, hfirst, hsecond⟩ :=
    hlookUp store "main.rng" "./main.rng" none none
    ["vendor", "lib//x/.."] ["./vendor", "lib/"] (areSpellings_iff.mpr (by decide)) rfl rfl hsearch
  have htwo : position = some 2 := hposition.symm.trans (by decide)
  rw [htwo] at hfirst hsecond
  refine ⟨(hidempotent _).trans (by decide), ?_, ?_, ?_, hfirst.trans (by decide),
    hsecond.trans (by decide)⟩
  · exact (hjoin "lib//x/.." "../common.rng" rfl).symm.trans (by decide)
  · exact hanswers store _ _ (areSpellings_iff.mpr (by decide))
  · exact hjoined store _ _ _ _ (areSpellings_iff.mpr (by decide))
      (areSpellings_iff.mpr (by decide)) rfl

/-- The answers are not the same in every word: a missing file is reported as it was asked for. -/
theorem not_forall_read_eq_of_areSpellings :
    ¬ ∀ (store : MemoryStore) (path other : String), AreSpellings path other →
      store.toStore.read path = store.toStore.read other := by
  intro h
  have hread := h .empty "./x" "x" (areSpellings_iff.mpr (by decide))
  have hpath : "./x" = "x" := by
    injection hread with hread
    injection hread with hread
    injection hread
  exact absurd hpath (by decide)

end MemoryStore

end RelaxSchema
