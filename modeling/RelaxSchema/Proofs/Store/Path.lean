import Mathlib
import RelaxSchema.Store.Basic
import RelaxSchema.Proofs.Catalogue

/-!
# Spellings of paths

Joining and taking the parent work on the text of a path. What they do to the parts that say
something is simple:

* `Path.essential_join`: the parts of the directory stand before those of the path;
* `Path.essential_parent`: the last part is missing.

The normal form depends on nothing else (`Path.normalParts_eq`). So from two spellings of a
directory a path leads to two spellings of one file (`Path.normalParts_join_congr`), and these are
in two spellings of one directory (`Path.normalParts_parent_join_congr`).

A memory store gives the same answers for all spellings (`MemoryStore.text?_congr`). Where no file
is kept under the path of a directory, nothing is found there either, however it is spelled
(`MemoryStore.text?_parent`).
-/

namespace RelaxSchema

open List

namespace Path

/-- The parts of a path that say something. -/
def essential (path : List Char) : List (List Char) := (split path).filter fun part => !isVoid part

/-! ### Splitting -/

theorem split_ne_nil (path : List Char) : split path ≠ [] := by
  cases path with
  | nil => exact cons_ne_nil _ _
  | cons c rest =>
    rw [split]
    split
    · exact cons_ne_nil _ _
    · split <;> exact cons_ne_nil _ _

theorem split_slash (rest : List Char) : split ('/' :: rest) = [] :: split rest := if_pos rfl

/-- A letter belongs to the first part. -/
theorem exists_split_cons {c : Char} (hc : c ≠ '/') (rest : List Char) :
    ∃ part parts, split rest = part :: parts ∧ split (c :: rest) = (c :: part) :: parts := by
  obtain ⟨part, parts, hrest⟩ := exists_cons_of_ne_nil (split_ne_nil rest)
  refine ⟨part, parts, hrest, ?_⟩
  rw [split, if_neg hc, hrest]

theorem split_append_slash (directory path : List Char) :
    split (directory ++ '/' :: path) = split directory ++ split path := by
  induction directory with
  | nil => exact split_slash path
  | cons c rest ih =>
    by_cases hc : c = '/'
    · subst hc
      rw [cons_append, split_slash, split_slash, ih, cons_append]
    · obtain ⟨part, parts, hrest, hsplit⟩ := exists_split_cons hc rest
      rw [cons_append, split, if_neg hc, ih, hsplit, hrest, cons_append, cons_append]

theorem slash_notMem_of_mem_split {path part : List Char} (h : part ∈ split path) : '/' ∉ part := by
  induction path generalizing part with
  | nil =>
    obtain rfl := mem_singleton.mp h
    exact not_mem_nil
  | cons c rest ih =>
    by_cases hc : c = '/'
    · subst hc
      rw [split_slash] at h
      rcases mem_cons.mp h with rfl | h
      · exact not_mem_nil
      · exact ih h
    · obtain ⟨first, parts, hrest, hsplit⟩ := exists_split_cons hc rest
      rw [hsplit] at h
      rw [hrest] at ih
      rcases mem_cons.mp h with rfl | h
      · exact not_mem_cons_of_ne_of_not_mem (Ne.symm hc) (ih mem_cons_self)
      · exact ih (mem_cons_of_mem _ h)

theorem split_of_slash_notMem {part : List Char} (h : '/' ∉ part) : split part = [part] := by
  induction part with
  | nil => rfl
  | cons c rest ih =>
    obtain ⟨hc, hrest⟩ := not_or.mp (mem_cons.not.mp h)
    rw [split, if_neg (Ne.symm hc), ih hrest]

/-- Parts without slashes are found again in their text. -/
theorem split_unsplit {parts : List (List Char)} (hne : parts ≠ [])
    (h : ∀ part ∈ parts, '/' ∉ part) :
    split (unsplit parts) = parts := by
  induction parts with
  | nil => exact absurd rfl hne
  | cons part rest ih =>
    obtain ⟨hpart, hrest⟩ := forall_mem_cons.mp h
    cases rest with
    | nil => exact split_of_slash_notMem hpart
    | cons next rest =>
      rw [unsplit, split_append_slash, ih (cons_ne_nil _ _) hrest, split_of_slash_notMem hpart]
      · rfl
      · exact cons_ne_nil _ _

/-! ### Parts that say something -/

@[simp]
theorem essential_nil : essential [] = [] := rfl

theorem essential_append_slash (directory path : List Char) :
    essential (directory ++ '/' :: path) = essential directory ++ essential path := by
  rw [essential, split_append_slash, filter_append, essential, essential]

theorem essential_of_slash_notMem {part : List Char} (h : '/' ∉ part) :
    essential part = [part].filter fun part => !isVoid part := by
  rw [essential, split_of_slash_notMem h]

/-- **Parts that say nothing make no difference** for the normal form. -/
theorem foldl_reduce_filter (parts reversed : List (List Char)) :
    (parts.filter fun part => !isVoid part).foldl reduce reversed =
      parts.foldl reduce reversed := by
  rw [foldl_filter]
  congr 1
  funext reversed part
  cases hvoid : isVoid part with
  | false => rfl
  | true => exact (if_pos hvoid).symm

theorem normalParts_eq (path : List Char) :
    normalParts path = ((essential path).foldl reduce []).reverse := by
  rw [essential, foldl_reduce_filter, normalParts]

theorem isVoid_eq_false_of_mem_essential {path part : List Char} (h : part ∈ essential path) :
    isVoid part = false := by
  simpa using (mem_filter.mp h).2

/-! ### Joining -/

theorem essential_join {path : String} (h : isAbsolute path = false) (directory : String) :
    essential (join directory path).toList = essential directory.toList ++
      essential path.toList := by
  rw [join, if_neg (by rw [h]; exact Bool.false_ne_true)]
  split
  · rename_i hempty
    rw [getLast?_eq_none_iff.mp hempty, essential_nil, nil_append]
  -- A slash at the end of the directory separates nothing.
  · rename_i hslash
    obtain ⟨before, hbefore⟩ := getLast?_eq_some_iff.mp hslash
    rw [String.toList_append, hbefore, append_assoc, singleton_append, essential_append_slash,
      essential_append_slash, essential_nil, append_nil]
  · rw [String.toList_append, String.toList_append, append_assoc]
    exact essential_append_slash _ _

theorem join_absolute {path : String} (h : isAbsolute path = true) (directory : String) :
    join directory path = path := if_pos h

/-! ### The parent -/

theorem filter_dropWhile_isVoid (parts : List (List Char)) :
    ((parts.dropWhile isVoid).filter fun part => !isVoid part) = parts.filter fun part =>
      !isVoid part := by
  induction parts with
  | nil => rfl
  | cons part rest ih =>
    cases hvoid : isVoid part with
    | true => rw [dropWhile_cons_of_pos hvoid, ih, filter_cons_of_neg (by simp [hvoid])]
    | false => rw [dropWhile_cons_of_neg (by simp [hvoid])]

theorem filter_dropVoid (parts : List (List Char)) :
    ((dropVoid parts).filter fun part => !isVoid part) = parts.filter fun part => !isVoid part := by
  rw [dropVoid, filter_reverse, filter_dropWhile_isVoid, filter_reverse, reverse_reverse]

/-- The last part that is left says something. -/
theorem filter_dropLast_dropVoid (parts : List (List Char)) :
    ((dropVoid parts).dropLast.filter fun part => !isVoid part) =
      (parts.filter fun part => !isVoid part).dropLast := by
  rw [← filter_dropVoid parts, dropVoid, dropLast_reverse, filter_reverse, filter_reverse,
    dropLast_reverse]
  cases hparts : parts.reverse.dropWhile isVoid with
  | nil => rfl
  | cons last rest =>
    have hlast : isVoid last = false := by
      have hhead := head?_dropWhile_not isVoid parts.reverse
      rw [hparts] at hhead
      simpa using hhead
    rw [filter_cons_of_pos (by simp [hlast]), tail_cons, tail_cons]

theorem sublist_dropVoid (parts : List (List Char)) : dropVoid parts <+ parts := by
  have hsublist := (dropWhile_sublist isVoid (l := parts.reverse)).reverse
  rwa [reverse_reverse] at hsublist

/-- A path begins with the root, with a dot or with a part; nothing of that says anything. -/
theorem anchor_cases (path : List Char) :
    (anchor path).1 ∈ [[], ['.'], ['/']] ∧ (anchor path).2 ⊆ split path ∧
      essential path = (anchor path).2.filter fun part => !isVoid part := by
  unfold anchor
  split
  · rename_i rest
    refine ⟨by simp, ?_, ?_⟩
    · rw [split_slash]
      exact subset_cons_self _ _
    · rw [essential, split_slash]
      rfl
  · split
    · rename_i parts hparts
      refine ⟨by simp, ?_, ?_⟩
      · rw [hparts]
        exact subset_cons_self _ _
      · rw [essential, hparts]
        rfl
    · exact ⟨by simp, Subset.refl _, rfl⟩

theorem essential_append_flatMap (start : List Char) {parts : List (List Char)}
    (h : ∀ part ∈ parts, '/' ∉ part) : essential (start ++ parts.flatMap fun part => '/' :: part) =
      essential start ++ parts.filter fun part => !isVoid part := by
  induction parts generalizing start with
  | nil => rw [flatMap_nil, append_nil, filter_nil, append_nil]
  | cons part rest ih =>
    obtain ⟨hpart, hrest⟩ := forall_mem_cons.mp h
    rw [flatMap_cons, ← append_assoc, ih _ hrest, essential_append_slash,
      essential_of_slash_notMem hpart, append_assoc, ← filter_append, singleton_append]

theorem essential_unsplit {parts : List (List Char)} (h : ∀ part ∈ parts, '/' ∉ part) :
    essential (unsplit parts) = parts.filter fun part => !isVoid part := by
  cases parts with
  | nil => rfl
  | cons part rest => rw [essential, split_unsplit (cons_ne_nil _ _) h]

theorem essential_withAnchor {start : List Char} (hstart : start ∈ [[], ['.'], ['/']])
    {parts : List (List Char)} (h : ∀ part ∈ parts, '/' ∉ part) :
    essential (withAnchor start parts) = parts.filter fun part => !isVoid part := by
  unfold withAnchor
  split
  · rename_i hdot
    rw [hdot]
    exact essential_append_flatMap ['.'] h
  · rename_i hdot
    obtain rfl | rfl : start = [] ∨ start = ['/'] := by simpa [hdot] using hstart
    · exact essential_unsplit h
    · exact (essential_append_slash [] (unsplit parts)).trans (essential_unsplit h)

/-- **The directory of a path** has all its parts but the last one. -/
theorem essential_parent (path : String) :
    essential (parent path).toList = (essential path.toList).dropLast := by
  obtain ⟨hstart, hsubset, hparts⟩ := anchor_cases path.toList
  -- What comes before the parts is kept, and says nothing.
  have htext : essential (parentText path.toList) = (essential path.toList).dropLast := by
    rw [hparts, ← filter_dropLast_dropVoid]
    unfold parentText
    split
    rename_i start parts hanchor
    rw [hanchor] at hstart hsubset
    split
    · rename_i hnone
      rw [hanchor, hnone]
      rfl
    · rw [hanchor, essential_withAnchor hstart, filter_dropVoid]
      intro part hpart
      have hmem := (dropLast_sublist _).mem ((sublist_dropVoid _).mem hpart)
      exact slash_notMem_of_mem_split (hsubset ((sublist_dropVoid _).mem hmem))
  rw [← htext]
  unfold parent
  split
  · rename_i hempty
    rw [hempty]
    rfl
  · rw [String.toList_ofList]

/-! ### Spellings of a directory -/

section Spellings

variable {directory other path : String}

theorem normalParts_eq_iff {path other : List Char} :
    normalParts path = normalParts other ↔
      (essential path).foldl reduce [] = (essential other).foldl reduce [] := by
  rw [normalParts_eq, normalParts_eq, reverse_inj]

theorem normalParts_join_congr (h : normalParts directory.toList = normalParts other.toList)
    (path : String) : normalParts (join directory path).toList =
      normalParts (join other path).toList := by
  rw [normalParts_eq_iff] at h ⊢
  cases habsolute : isAbsolute path with
  | true => rw [join_absolute habsolute, join_absolute habsolute]
  | false => rw [essential_join habsolute, essential_join habsolute, foldl_append, foldl_append, h]

/-- A path that says nothing leads to the directory itself. -/
theorem normalParts_join_of_essential (habsolute : isAbsolute path = false)
    (h : essential path.toList = []) (directory : String) :
    normalParts (join directory path).toList = normalParts directory.toList := by
  rw [normalParts_eq_iff, essential_join habsolute, h, append_nil]

theorem normalParts_parent_join_congr (h : normalParts directory.toList = normalParts other.toList)
    (hpath : essential path.toList ≠ []) :
    normalParts (parent (join directory path)).toList =
      normalParts (parent (join other path)).toList := by
  cases habsolute : isAbsolute path with
  | true => rw [join_absolute habsolute, join_absolute habsolute]
  | false =>
    rw [normalParts_eq_iff] at h ⊢
    rw [essential_parent, essential_parent, essential_join habsolute, essential_join habsolute,
      dropLast_append_of_ne_nil hpath, dropLast_append_of_ne_nil hpath, foldl_append,
      foldl_append, h]

end Spellings

/-! ### Normal forms -/

/-- One more part is one more or one less in the normal form. -/
theorem reduce_cases (reversed : List (List Char)) {part : List Char} (h : isVoid part = false) :
    ∃ last, reduce reversed part = last :: reversed ∨ reversed = last :: reduce reversed part := by
  fun_cases reduce reversed part with
  | case1 reversed hvoid => exact absurd (h.symm.trans hvoid) Bool.false_ne_true
  | case2 => exact ⟨up, .inl rfl⟩
  | case3 => exact ⟨up, .inl rfl⟩
  | case4 _ _ last => exact ⟨last, .inr rfl⟩
  | case5 => exact ⟨part, .inl rfl⟩

theorem reduce_subset (reversed : List (List Char)) (part : List Char) :
    reduce reversed part ⊆ up :: part :: reversed := by
  intro other hother
  revert hother
  fun_cases reduce reversed part <;> grind

/-- **A path and its directory** differ by one part in their normal forms, one way or the other. -/
theorem normalParts_parent_cases {path : String} (h : essential path.toList ≠ []) :
    ∃ last, normalParts path.toList = normalParts (parent path).toList ++ [last] ∨
      normalParts (parent path).toList = normalParts path.toList ++ [last] := by
  have hlast := isVoid_eq_false_of_mem_essential (getLast_mem h)
  obtain ⟨last, hreduce⟩ := reduce_cases ((essential path.toList).dropLast.foldl reduce []) hlast
  have hpath : (essential path.toList).foldl reduce [] =
      reduce ((essential path.toList).dropLast.foldl reduce [])
        ((essential path.toList).getLast h) := by
    conv_lhs => rw [← dropLast_concat_getLast h]
    rw [foldl_append]
    rfl
  refine ⟨last, ?_⟩
  rw [normalParts_eq, normalParts_eq, essential_parent, hpath, ← reverse_cons, ← reverse_cons,
    reverse_inj, reverse_inj]
  exact hreduce

/-- The normal form consists of parts that say something, and of steps upward. -/
theorem foldl_reduce_subset (parts : List (List Char)) :
    parts.foldl reduce [] ⊆ up :: parts.filter fun part => !isVoid part := by
  rw [← foldl_reduce_filter]
  induction parts.filter fun part => !isVoid part using reverseRecOn with
  | nil => exact nil_subset _
  | append_singleton parts part ih =>
    rw [foldl_concat]
    intro other hother
    rcases mem_cons.mp (reduce_subset _ _ hother) with rfl | hother
    · exact mem_cons_self
    · rcases mem_cons.mp hother with rfl | hother
      · exact mem_cons_of_mem _ mem_concat_self
      · exact cons_subset_cons _ (subset_append_left _ _) (ih hother)

theorem isVoid_eq_false_of_mem_foldl {parts : List (List Char)} {part : List Char}
    (h : part ∈ parts.foldl reduce []) : isVoid part = false := by
  rcases mem_cons.mp (foldl_reduce_subset parts h) with rfl | hpart
  · rfl
  · simpa using (mem_filter.mp hpart).2

theorem slash_notMem_of_mem_normalParts {path part : List Char} (h : part ∈ normalParts path) :
    '/' ∉ part := by
  rcases mem_cons.mp (foldl_reduce_subset _ (mem_reverse.mp h)) with rfl | hpart
  · decide
  · exact slash_notMem_of_mem_split (mem_filter.mp hpart).1

/-- The normal form has the normal parts, if there are any. -/
theorem split_normalise {path : String} (h : normalParts path.toList ≠ []) :
    split (normalise path).toList = normalParts path.toList := by
  rw [normalise, String.toList_ofList]
  exact split_unsplit h fun part => slash_notMem_of_mem_normalParts

end Path

/-! ### Memory stores -/

namespace MemoryStore

variable {store : MemoryStore} {path other : String}

theorem text?_congr (h : Path.normalParts path.toList = Path.normalParts other.toList) :
    store.text? path = store.text? other := by
  rw [text?, text?, Path.normalise, Path.normalise, h]

theorem isFile_congr (h : Path.normalParts path.toList = Path.normalParts other.toList) :
    store.toStore.isFile path = store.toStore.isFile other :=
  congrArg Option.isSome (text?_congr h)

theorem read_eq_ok_iff {text : String} :
    store.toStore.read path = .ok text ↔ store.text? path = some text := by
  simp only [toStore]
  cases store.text? path <;> simp

/-- A file that is not there is reported under the path as it was spelled. -/
theorem read_eq_error (h : store.text? path = none) :
    store.toStore.read path = .error (.resolution (.noSuchFile path)) := by
  simp only [toStore, h]

/-- No file is kept under the path of a directory that another one is in. -/
def IsApart (store : MemoryStore) : Prop :=
  "" ∉ store.names ∧ ∀ path ∈ store.names, ∀ other ∈ store.names,
    Path.split path.toList <+: Path.split other.toList → path = other

instance (store : MemoryStore) : Decidable store.IsApart :=
  inferInstanceAs (Decidable ("" ∉ store.names ∧ ∀ path ∈ store.names, ∀ other ∈ store.names,
    Path.split path.toList <+: Path.split other.toList → path = other))

/-- The directory of a file is no file. -/
theorem text?_parent (h : store.IsApart) (hpath : (store.text? path).isSome = true) :
    store.text? (Path.parent path) = none := by
  obtain ⟨hroot, hprefix⟩ := h
  -- Since no file is kept under the empty path, a file has the parts of its normal form.
  have hparts : ∀ path : String, (store.text? path).isSome = true →
      Path.normalise path ∈ store.names ∧
        Path.split (Path.normalise path).toList = Path.normalParts path.toList := by
    intro path hpath
    have hmem : Path.normalise path ∈ store.names :=
      Catalogue.mem_names_iff.mpr (Option.isSome_iff_exists.mp hpath)
    refine ⟨hmem, Path.split_normalise fun hnil => hroot ?_⟩
    rw [Path.normalise, hnil] at hmem
    exact hmem
  by_contra hsome
  obtain ⟨hmem, hsplit⟩ := hparts path hpath
  obtain ⟨hmem', hsplit'⟩ := hparts _ (Option.isSome_iff_ne_none.mpr hsome)
  have hne : Path.essential path.toList ≠ [] := by
    intro hnil
    rw [Path.normalParts_eq, hnil] at hsplit
    exact Path.split_ne_nil _ hsplit
  -- Whichever is one part longer, the other one is kept under the path of a directory.
  have happart : ∀ path ∈ store.names, ∀ other ∈ store.names, ∀ last,
      Path.split other.toList ≠ Path.split path.toList ++ [last] := by
    intro path hpath other hother last hlonger
    obtain rfl := hprefix path hpath other hother ⟨_, hlonger.symm⟩
    have hlength := congrArg length hlonger
    rw [length_append, length_singleton] at hlength
    omega
  obtain ⟨last, hlonger⟩ := Path.normalParts_parent_cases hne
  rw [← hsplit, ← hsplit'] at hlonger
  rcases hlonger with hlonger | hlonger
  · exact happart _ hmem' _ hmem last hlonger
  · exact happart _ hmem _ hmem' last hlonger

end MemoryStore

end RelaxSchema
