import Mathlib
import RelaxSchema.Catalogue

/-!
# Catalogues

* `distinct_eq_self`: distinct names stay as they are;
* `pairwise_distinct`: distinct names stand in the order of their first occurrence;
* `Catalogue.mem_insert`: what is entered afterwards;
* `Catalogue.entries_insert`: a new name comes last, with its entry;
* `Catalogue.find?_of_mem`, `Catalogue.mem_entries_of_find?`: looking up finds the entries;
* `Catalogue.entries_perm`: where the same is found, there are the same entries;
* `Catalogue.mem_names_iff`, `Catalogue.filterMap_find?_names`: the names are those for which there
  is an entry, and lead to the entries in their order.
-/

namespace RelaxSchema

universe u

theorem distinct_eq_self {names : List String} (hnodup : names.Nodup) : distinct names = names := by
  have hstep : ∀ (names seen : List String), (seen ++ names).Nodup →
      names.foldl addNew seen = seen ++ names := by
    intro names
    induction names with
    | nil => exact fun seen _ => (List.append_nil seen).symm
    | cons name rest ih =>
      intro seen hseen
      have hnew : name ∉ seen := by
        have hdisjoint := List.disjoint_of_nodup_append hseen
        exact fun hmem => hdisjoint hmem List.mem_cons_self
      have happend : seen ++ [name] ++ rest = seen ++ name :: rest := by
        rw [List.append_assoc, List.singleton_append]
      rw [List.foldl_cons, addNew, if_neg hnew, ih _ (by rwa [happend]), happend]
  exact hstep names [] hnodup

/-! ### Order of first occurrence -/

theorem distinct_concat (names : List String) (name : String) :
    distinct (names ++ [name]) = addNew (distinct names) name := by
  rw [distinct, List.foldl_append]
  rfl

/-- **Distinct names stand in the order of their first occurrence.** -/
theorem pairwise_distinct (names : List String) :
    (distinct names).Pairwise fun first second => names.idxOf first < names.idxOf second := by
  induction names using List.reverseRecOn with
  | nil => exact .nil
  | append_singleton names name ih =>
    have hkept : ∀ other ∈ distinct names, (names ++ [name]).idxOf other = names.idxOf other :=
      fun other hother => List.idxOf_append_of_mem (mem_distinct.mp hother)
    have hfirst : (distinct names).Pairwise fun first second =>
        (names ++ [name]).idxOf first < (names ++ [name]).idxOf second :=
      ih.imp_of_mem fun hfirst hsecond hlt => by rwa [hkept _ hfirst, hkept _ hsecond]
    rw [distinct_concat, addNew]
    split
    · exact hfirst
    · -- A new name occurs at the end, behind all others.
      rename_i hnew
      refine List.pairwise_append.mpr
        ⟨hfirst, List.pairwise_singleton _ _, fun first hmem second hsecond => ?_⟩
      obtain rfl := List.mem_singleton.mp hsecond
      rw [hkept first hmem, List.idxOf_append_of_notMem fun h => hnew (mem_distinct.mpr h),
        List.idxOf_cons_self, Nat.add_zero]
      exact List.idxOf_lt_length_of_mem (mem_distinct.mp hmem)

/-- Two entries of a list without repetition are in one order only. -/
theorem not_sublist_swap {α : Type u} {first second : α} {entries : List α} (hnodup : entries.Nodup)
    (h : [first, second].Sublist entries) : ¬ [second, first].Sublist entries := by
  induction entries with
  | nil => cases h
  | cons head rest ih =>
    obtain ⟨hhead, hrest⟩ := List.nodup_cons.mp hnodup
    intro h'
    cases h with
    | cons _ h =>
      cases h' with
      | cons _ h' => exact ih hrest h h'
      | cons_cons _ _ => exact hhead (h.subset (List.mem_cons_of_mem _ List.mem_cons_self))
    | cons_cons _ _ =>
      cases h' with
      | cons _ h' => exact hhead (h'.subset (List.mem_cons_of_mem _ List.mem_cons_self))
      | cons_cons _ h' => exact hhead (h'.subset List.mem_cons_self)

/-- Two different entries of a list are in one order or the other. -/
theorem sublist_or_sublist {α : Type u} {first second : α} {entries : List α}
    (hfirst : first ∈ entries) (hsecond : second ∈ entries) (hne : first ≠ second) :
    [first, second].Sublist entries ∨ [second, first].Sublist entries := by
  obtain ⟨before, after, rfl⟩ := List.append_of_mem hfirst
  rcases List.mem_append.mp hsecond with hbefore | hafter
  · exact .inr ((List.singleton_sublist.mpr hbefore).append
      (List.singleton_sublist.mpr List.mem_cons_self))
  · have hrest := (List.mem_cons.mp hafter).resolve_left (Ne.symm hne)
    exact .inl (((List.singleton_sublist.mpr hrest).cons_cons first).trans
      (List.sublist_append_right before _))

/-! ### Entries -/

theorem insertEntry_of_notMem {α : Type u} {name : String} {entry : α} {entries : List (String × α)}
    (h : name ∉ entries.map Prod.fst) :
    insertEntry name entry entries = entries ++ [(name, entry)] := by
  induction entries with
  | nil => rfl
  | cons first rest ih =>
    obtain ⟨other, old⟩ := first
    rw [List.map_cons, List.mem_cons, not_or] at h
    obtain ⟨hne, hrest⟩ := h
    rw [insertEntry, if_neg (Ne.symm hne), ih hrest, List.cons_append]

theorem mem_insertEntry {α : Type u} {name : String} {entry : α} {entries : List (String × α)}
    {pair : String × α} (h : pair ∈ insertEntry name entry entries) :
    pair = (name, entry) ∨ pair ∈ entries := by
  induction entries with
  | nil => exact Or.inl (List.mem_singleton.mp h)
  | cons first rest ih =>
    obtain ⟨other, old⟩ := first
    rw [insertEntry] at h
    split at h
    · rcases List.mem_cons.mp h with rfl | h
      · exact Or.inl rfl
      · exact Or.inr (List.mem_cons_of_mem _ h)
    · rcases List.mem_cons.mp h with rfl | h
      · exact Or.inr List.mem_cons_self
      · rcases ih h with rfl | h
        · exact Or.inl rfl
        · exact Or.inr (List.mem_cons_of_mem _ h)

theorem lookup_eq_none_of_notMem {α : Type u} {name : String} {entries : List (String × α)}
    (h : name ∉ entries.map Prod.fst) : entries.lookup name = none := by
  rw [List.lookup_eq_none_iff]
  intro entry hentry
  have hne : name ≠ entry.1 := fun hname => h (List.mem_map.mpr ⟨entry, hentry, hname.symm⟩)
  simpa using hne

/-- With distinct names, looking up is membership. -/
theorem lookup_eq_some_iff_mem {α : Type u} {name : String} {entry : α}
    {entries : List (String × α)} (hnodup : (entries.map Prod.fst).Nodup) :
    entries.lookup name = some entry ↔ (name, entry) ∈ entries := by
  constructor
  · intro h
    obtain ⟨before, after, rfl, -⟩ := List.lookup_eq_some_iff.mp h
    exact List.mem_append_cons_self
  · intro hmem
    obtain ⟨before, after, rfl⟩ := List.append_of_mem hmem
    rw [List.map_append, List.map_cons] at hnodup
    refine List.lookup_eq_some_iff.mpr ⟨before, after, rfl, fun other hother => ?_⟩
    have hne : name ≠ other.1 := by
      rintro rfl
      exact List.disjoint_of_nodup_append hnodup (List.mem_map_of_mem hother) List.mem_cons_self
    simpa using hne

/-- With distinct keys, looking for a key is membership. -/
theorem find?_key_eq_some_iff {α : Type u} {key : α → String} {entries : List α}
    (hnodup : (entries.map key).Nodup) {name : String} {entry : α} :
    (entries.find? fun entry => key entry = name) = some entry ↔
      entry ∈ entries ∧ key entry = name := by
  constructor
  · intro h
    exact ⟨List.mem_of_find?_eq_some h, of_decide_eq_true (List.find?_some h :)⟩
  · rintro ⟨hmem, rfl⟩
    have hsome : (entries.find? fun other => key other = key entry).isSome = true :=
      List.find?_isSome.mpr ⟨entry, hmem, decide_eq_true rfl⟩
    obtain ⟨other, hother⟩ := Option.isSome_iff_exists.mp hsome
    have hkey : key other = key entry := of_decide_eq_true (List.find?_some hother :)
    rw [hother, List.inj_on_of_nodup_map hnodup (List.mem_of_find?_eq_some hother) hmem hkey]

/-- With distinct keys, the order does not matter for what is found. -/
theorem find?_key_of_perm {α : Type u} {key : α → String} {entries entries' : List α}
    (hnodup : (entries.map key).Nodup) (hperm : entries'.Perm entries) (name : String) :
    (entries'.find? fun entry => key entry = name) = entries.find? fun entry =>
      key entry = name := by
  apply Option.ext
  intro entry
  rw [find?_key_eq_some_iff hnodup, find?_key_eq_some_iff ((hperm.map key).nodup_iff.mpr hnodup),
    hperm.mem_iff]

namespace Catalogue

variable {α : Type u} {catalogue : Catalogue α} {name : String} {entry : α}

theorem ext_entries :
    ∀ {first second : Catalogue α}, first.entries = second.entries → first = second
  | ⟨_, _⟩, ⟨_, _⟩, rfl => rfl

theorem mem_insert {pair : String × α} (h : pair ∈ (catalogue.insert name entry).entries) :
    pair = (name, entry) ∨ pair ∈ catalogue.entries :=
  mem_insertEntry h

theorem entries_insert (h : name ∉ catalogue.names) :
    (catalogue.insert name entry).entries = catalogue.entries ++ [(name, entry)] :=
  insertEntry_of_notMem h

/-- Entries of other names are entered in their order, behind those that are there. -/
theorem entries_foldl_insert {pairs : List (String × α)} {done : Catalogue α}
    (hnodup : ((done.entries ++ pairs).map Prod.fst).Nodup) :
    (pairs.foldl (fun catalogue pair => catalogue.insert pair.1 pair.2) done).entries =
      done.entries ++ pairs := by
  induction pairs generalizing done with
  | nil => exact (List.append_nil _).symm
  | cons pair rest ih =>
    have hnew : pair.1 ∉ done.names := by
      rw [List.map_append, List.map_cons] at hnodup
      exact fun hmem => List.disjoint_of_nodup_append hnodup hmem List.mem_cons_self
    have hentries : (done.insert pair.1 pair.2).entries ++ rest = done.entries ++ pair :: rest := by
      rw [entries_insert hnew, List.append_assoc, List.singleton_append]
    rw [List.foldl_cons, ih (hentries ▸ hnodup), hentries]

/-- A catalogue is made of its entries. -/
theorem ofList_entries (catalogue : Catalogue α) : ofList catalogue.entries = catalogue :=
  ext_entries (entries_foldl_insert catalogue.nodup)

theorem mem_entries_of_find? (h : catalogue.find? name = some entry) :
    (name, entry) ∈ catalogue.entries :=
  (lookup_eq_some_iff_mem catalogue.nodup).mp h

theorem find?_of_mem (h : (name, entry) ∈ catalogue.entries) : catalogue.find? name = some entry :=
  (lookup_eq_some_iff_mem catalogue.nodup).mpr h

theorem find?_map {β : Type u} (f : α → β) (catalogue : Catalogue α) (name : String) :
    (catalogue.map f).find? name = (catalogue.find? name).map f := by
  obtain ⟨entries, hnodup⟩ := catalogue
  show (entries.map fun entry => (entry.1, f entry.2)).lookup name = (entries.lookup name).map f
  clear hnodup
  induction entries with
  | nil => rfl
  | cons first rest ih =>
    rw [List.map_cons, List.lookup_cons, List.lookup_cons, ih]
    cases name == first.1 <;> rfl

/-- Only the entries that are there are changed. -/
theorem map_congr_of_find? {β : Type u} {f g : α → β}
    (h : ∀ name entry, catalogue.find? name = some entry → f entry = g entry) :
    catalogue.map f = catalogue.map g :=
  ext_entries <| List.map_congr_left fun pair hpair =>
    congrArg _ (h pair.1 pair.2 (find?_of_mem hpair))

theorem map_insert {β : Type u} (f : α → β) (catalogue : Catalogue α) (name : String) (entry : α) :
    (catalogue.insert name entry).map f = (catalogue.map f).insert name (f entry) := by
  obtain ⟨entries, hnodup⟩ := catalogue
  refine ext_entries ?_
  show (insertEntry name entry entries).map (fun pair => (pair.1, f pair.2)) =
    insertEntry name (f entry) (entries.map fun pair => (pair.1, f pair.2))
  clear hnodup
  induction entries with
  | nil => rfl
  | cons first rest ih =>
    rw [List.map_cons, insertEntry, insertEntry]
    split
    · rfl
    · rw [List.map_cons, ih]

/-- Entries of different names may be entered in either order. -/
theorem find?_insert_comm {other : String} {entry' : α} (h : name ≠ other) :
    ((catalogue.insert name entry).insert other entry').find? =
      ((catalogue.insert other entry').insert name entry).find? := by
  funext key
  rw [find?_insert, find?_insert, find?_insert, find?_insert]
  split
  · rename_i hother
    rw [if_neg fun hname => h (hname.symm.trans hother)]
  · rfl

/-- What is found after an entry is put in depends on what was found before. -/
theorem find?_insert_congr {catalogue' : Catalogue α} (h : catalogue'.find? = catalogue.find?)
    (name : String) (entry : α) :
    (catalogue'.insert name entry).find? = (catalogue.insert name entry).find? := by
  funext key
  rw [find?_insert, find?_insert, h]

/-- Where the same is found, the entries are the same up to their order. -/
theorem entries_perm {catalogue' : Catalogue α} (h : catalogue'.find? = catalogue.find?) :
    catalogue'.entries.Perm catalogue.entries := by
  rw [List.perm_ext_iff_of_nodup catalogue'.nodup.of_map catalogue.nodup.of_map]
  rintro ⟨name, entry⟩
  constructor
  · intro hmem
    exact mem_entries_of_find? (h ▸ find?_of_mem hmem)
  · intro hmem
    exact mem_entries_of_find? (h ▸ find?_of_mem hmem)

theorem mem_names_iff : name ∈ catalogue.names ↔ ∃ entry, catalogue.find? name = some entry := by
  constructor
  · intro h
    obtain ⟨⟨_, entry⟩, hentry, rfl⟩ := List.mem_map.mp h
    exact ⟨entry, find?_of_mem hentry⟩
  · rintro ⟨entry, hentry⟩
    exact List.mem_map_of_mem (mem_entries_of_find? hentry)

/-- The names lead to the entries, in their order. -/
theorem filterMap_find?_names (catalogue : Catalogue α) :
    catalogue.names.filterMap catalogue.find? = catalogue.values := by
  rw [names, values, List.filterMap_map, ← List.filterMap_eq_map]
  exact List.filterMap_congr fun entry hentry => find?_of_mem hentry

end Catalogue

end RelaxSchema
