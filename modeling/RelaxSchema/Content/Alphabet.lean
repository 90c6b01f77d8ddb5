/-!
# Alphabets

Sets of tokens, written as lists in strictly ascending order. The order is that of the code
points, so an alphabet has one written form and its listing is canonical. Main statements:
`Alphabet.mem_insert`, `Alphabet.ordered_insert` and what follows from them for `Alphabet.ofList`.
-/

namespace RelaxSchema.Alphabet

/-- Whether tokens stand in strictly ascending order. -/
def Ordered (tokens : List String) : Prop := tokens.Pairwise (· < ·)

/-- Puts a token in its place. -/
def insert (token : String) : List String → List String
  | [] => [token]
  | head :: rest =>
    if token < head then token :: head :: rest
    else if token = head then head :: rest
    else head :: insert token rest

/-- The alphabet of the tokens of a list. -/
def ofList (tokens : List String) : List String := tokens.foldr insert []

/-- The alphabet of the tokens of several lists. -/
def union (lists : List (List String)) : List String :=
  lists.foldr (fun l acc => l.foldr insert acc) []

@[simp] theorem mem_insert {token other : String} {tokens : List String} :
    other ∈ insert token tokens ↔ other = token ∨ other ∈ tokens := by
  induction tokens with
  | nil => simp [insert]
  | cons head rest ih =>
    rw [insert]
    split
    · simp
    · split
      · rename_i same
        simp [same]
      · simp only [List.mem_cons, ih]
        constructor
        · rintro (h | h | h) <;> simp [h]
        · rintro (h | h | h) <;> simp [h]

theorem ordered_insert {token : String} {tokens : List String} (ordered : Ordered tokens) :
    Ordered (insert token tokens) := by
  induction tokens with
  | nil => simp [insert, Ordered]
  | cons head rest ih =>
    obtain ⟨below, ordered'⟩ := List.pairwise_cons.1 ordered
    rw [insert]
    split
    · rename_i less
      refine List.pairwise_cons.2 ⟨fun other h => ?_, ordered⟩
      rcases List.mem_cons.1 h with rfl | h
      · exact less
      · exact String.lt_trans less (below other h)
    · split
      · exact ordered
      · rename_i notLess differs
        refine List.pairwise_cons.2 ⟨fun other h => ?_, ih ordered'⟩
        rcases mem_insert.1 h with rfl | h
        · have le : head ≤ other := String.not_lt.1 notLess
          exact Decidable.byContradiction fun n =>
            differs (String.le_antisymm (String.not_lt.1 n) le)
        · exact below other h

@[simp] theorem mem_ofList {token : String} {tokens : List String} :
    token ∈ ofList tokens ↔ token ∈ tokens := by
  induction tokens with
  | nil => simp [ofList]
  | cons head rest ih =>
    have : ofList (head :: rest) = insert head (ofList rest) := rfl
    simp [this, ih]

theorem ordered_ofList (tokens : List String) : Ordered (ofList tokens) := by
  induction tokens with
  | nil => simp [ofList, Ordered]
  | cons head rest ih => exact ordered_insert ih

theorem union_eq_ofList (lists : List (List String)) : union lists = ofList lists.flatten := by
  induction lists with
  | nil => rfl
  | cons head rest ih =>
    have : union (head :: rest) = head.foldr insert (union rest) := rfl
    rw [this, ih, ofList, ofList, List.flatten_cons, List.foldr_append]

@[simp] theorem mem_union {token : String} {lists : List (List String)} :
    token ∈ union lists ↔ ∃ tokens ∈ lists, token ∈ tokens := by
  simp [union_eq_ofList]

theorem ordered_union (lists : List (List String)) : Ordered (union lists) := by
  rw [union_eq_ofList]
  exact ordered_ofList _

/-- Two alphabets with the same tokens are the same list. -/
theorem ext {left right : List String} (orderedLeft : Ordered left) (orderedRight : Ordered right)
    (same : ∀ token, token ∈ left ↔ token ∈ right) : left = right := by
  induction left generalizing right with
  | nil =>
    cases right with
    | nil => rfl
    | cons head rest => exact absurd ((same head).2 (by simp)) (by simp)
  | cons head rest ih =>
    cases right with
    | nil => exact absurd ((same head).1 (by simp)) (by simp)
    | cons head' rest' =>
      obtain ⟨below, ordered⟩ := List.pairwise_cons.1 orderedLeft
      obtain ⟨below', ordered'⟩ := List.pairwise_cons.1 orderedRight
      have heads : head = head' := by
        rcases List.mem_cons.1 ((same head).1 (by simp)) with h | h
        · exact h
        · rcases List.mem_cons.1 ((same head').2 (by simp)) with h' | h'
          · exact h'.symm
          · exact absurd (String.lt_trans (below head' h') (below' head h)) (String.lt_irrefl head)
      subst heads
      congr 1
      refine ih ordered ordered' fun token => ?_
      constructor
      · intro h
        rcases List.mem_cons.1 ((same token).1 (List.mem_cons_of_mem _ h)) with rfl | h'
        · exact absurd (below token h) (String.lt_irrefl token)
        · exact h'
      · intro h
        rcases List.mem_cons.1 ((same token).2 (List.mem_cons_of_mem _ h)) with rfl | h'
        · exact absurd (below' token h) (String.lt_irrefl token)
        · exact h'

end RelaxSchema.Alphabet
