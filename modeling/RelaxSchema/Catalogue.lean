/-!
# Catalogues

Named entries, each name once, in the order in which the names were first entered. Attributes,
definitions and the elements of a schema are kept in this way. Entering a name again replaces its
entry in place: looking up sees the new entry (`Catalogue.find?_insert`), the order of names stays
(`Catalogue.names_insert`).
-/

namespace RelaxSchema

universe u v

/-! ### Distinct names -/

/-- Adds a name at the end, unless it is there already. -/
def addNew (names : List String) (name : String) : List String :=
  if name ∈ names then names else names ++ [name]

/-- The distinct names of a list, in the order of their first occurrence. -/
def distinct (names : List String) : List String := names.foldl addNew []

theorem mem_addNew {names : List String} {name other : String} :
    other ∈ addNew names name ↔ other ∈ names ∨ other = name := by
  unfold addNew
  split
  · rename_i known
    exact ⟨Or.inl, fun h => h.elim id fun e => e ▸ known⟩
  · simp

theorem nodup_addNew {names : List String} {name : String} (nodup : names.Nodup) :
    (addNew names name).Nodup := by
  unfold addNew
  split
  · exact nodup
  · rename_i absent
    refine List.nodup_append.2 ⟨nodup, by simp, ?_⟩
    intro a ha b hb e
    rw [List.mem_singleton] at hb
    exact absent (hb ▸ e ▸ ha)

@[simp] theorem mem_distinct {names : List String} {name : String} :
    name ∈ distinct names ↔ name ∈ names := by
  have step : ∀ (names seen : List String),
      name ∈ names.foldl addNew seen ↔ name ∈ seen ∨ name ∈ names := by
    intro names
    induction names with
    | nil => simp
    | cons head rest ih =>
      intro seen
      rw [List.foldl_cons, ih, mem_addNew, List.mem_cons, or_assoc]
  simp [distinct, step]

theorem nodup_distinct (names : List String) : (distinct names).Nodup := by
  have step : ∀ (names seen : List String), seen.Nodup → (names.foldl addNew seen).Nodup := by
    intro names
    induction names with
    | nil => exact fun _ h => h
    | cons head rest ih => exact fun seen h => ih _ (nodup_addNew h)
  exact step names [] List.nodup_nil

/-! ### Entries -/

/-- Puts `entry` under `name`: in the place of the entry of that name, or else at the end. -/
def insertEntry {α : Type u} (name : String) (entry : α) :
    List (String × α) → List (String × α)
  | [] => [(name, entry)]
  | (other, old) :: rest =>
    if other = name then (name, entry) :: rest else (other, old) :: insertEntry name entry rest

/-- The names after an entry is put in. -/
theorem map_fst_insertEntry {α : Type u} (name : String) (entry : α)
    (entries : List (String × α)) :
    (insertEntry name entry entries).map Prod.fst =
      if name ∈ entries.map Prod.fst then entries.map Prod.fst
      else entries.map Prod.fst ++ [name] := by
  induction entries with
  | nil => simp [insertEntry]
  | cons head rest ih =>
    obtain ⟨other, old⟩ := head
    by_cases h : other = name
    · simp [insertEntry, h]
    · have h' : ¬ name = other := fun e => h e.symm
      simp only [insertEntry, h, ↓reduceIte, List.map_cons, List.mem_cons, h', false_or, ih]
      split <;> simp_all

/-- Putting an entry in repeats no name. -/
theorem nodup_insertEntry {α : Type u} (name : String) (entry : α)
    {entries : List (String × α)} (nodup : (entries.map Prod.fst).Nodup) :
    ((insertEntry name entry entries).map Prod.fst).Nodup := by
  rw [map_fst_insertEntry]
  split
  · exact nodup
  · rename_i absent
    refine List.nodup_append.2 ⟨nodup, by simp, ?_⟩
    intro a ha b hb
    simp only [List.mem_singleton] at hb
    subst hb
    intro e
    exact absent (e ▸ ha)

/-- Named entries, each name once, in order of first entry. -/
structure Catalogue (α : Type u) where
  /-- The entries with their names. -/
  entries : List (String × α)
  /-- No name occurs twice. -/
  nodup : (entries.map Prod.fst).Nodup
  deriving DecidableEq

namespace Catalogue

variable {α : Type u} {β : Type v}

/-- The catalogue without entries. -/
def empty : Catalogue α := ⟨[], List.nodup_nil⟩

instance : Inhabited (Catalogue α) := ⟨empty⟩

/-- The names in order. -/
def names (catalogue : Catalogue α) : List String := catalogue.entries.map Prod.fst

/-- The entries in order. -/
def values (catalogue : Catalogue α) : List α := catalogue.entries.map Prod.snd

/-- The number of entries. -/
def size (catalogue : Catalogue α) : Nat := catalogue.entries.length

/-- The entry of that name. -/
def find? (catalogue : Catalogue α) (name : String) : Option α := catalogue.entries.lookup name

/-- Whether there is an entry of that name. -/
def contains (catalogue : Catalogue α) (name : String) : Bool := (catalogue.find? name).isSome

/-- Enters a name, or replaces its entry in place. -/
def insert (catalogue : Catalogue α) (name : String) (entry : α) : Catalogue α :=
  ⟨insertEntry name entry catalogue.entries, nodup_insertEntry name entry catalogue.nodup⟩

/-- Enters all pairs from left to right. -/
def ofList (entries : List (String × α)) : Catalogue α :=
  entries.foldl (fun catalogue entry => catalogue.insert entry.1 entry.2) empty

/-- The catalogue of the same names with changed entries. -/
def map (f : α → β) (catalogue : Catalogue α) : Catalogue β where
  entries := catalogue.entries.map fun entry => (entry.1, f entry.2)
  nodup := by
    have := catalogue.nodup
    simpa [List.map_map, Function.comp_def] using this

/-- What looking up sees after an entry is put in. -/
theorem lookup_insertEntry (name other : String) (entry : α) (entries : List (String × α)) :
    (insertEntry name entry entries).lookup other =
      if other = name then some entry else entries.lookup other := by
  induction entries with
  | nil =>
    by_cases h : other = name
    · simp [insertEntry, h]
    · have : (other == name) = false := by simpa using h
      simp [insertEntry, List.lookup_cons, h, this]
  | cons head rest ih =>
    obtain ⟨key, old⟩ := head
    by_cases hk : key = name
    · subst hk
      by_cases h : other = key
      · simp [insertEntry, h]
      · have : (other == key) = false := by simpa using h
        simp [insertEntry, List.lookup_cons, h, this]
    · simp only [insertEntry, hk, ↓reduceIte, List.lookup_cons, ih]
      by_cases h : other = key
      · subst h
        simp [hk]
      · have : (other == key) = false := by simpa using h
        simp [this]

/-- Looking up sees the latest entry of a name. -/
theorem find?_insert (catalogue : Catalogue α) (name other : String) (entry : α) :
    (catalogue.insert name entry).find? other =
      if other = name then some entry else catalogue.find? other :=
  lookup_insertEntry name other entry catalogue.entries

/-- A new name comes last, a known one keeps its place. -/
theorem names_insert (catalogue : Catalogue α) (name : String) (entry : α) :
    (catalogue.insert name entry).names =
      if name ∈ catalogue.names then catalogue.names else catalogue.names ++ [name] :=
  map_fst_insertEntry name entry catalogue.entries

end Catalogue

end RelaxSchema
