import RelaxSchema.Schema.Basic

/-!
# Literal tables

The compact format writes each name of a schema once, in a table, and refers to it by its place
there, the rank. Names that are used more often come first; names of the same number of uses stand
in the order of their first use.
-/

namespace RelaxSchema

/-- The names that the entry of an element uses, as often as it uses them. -/
def ElementSchema.literals (element : ElementSchema) : List String :=
  element.name :: element.attributes ++ element.expression.model.occurrences

/-- The names that a schema uses, as often as it uses them. -/
def Schema.literals (schema : Schema) : List String :=
  schema.start :: schema.elements.values.flatMap ElementSchema.literals

/-- The distinct names of a list by descending number of uses. -/
def rankedLiterals (uses : List String) : List String :=
  let counted := (distinct uses).map fun name => (name, uses.count name)
  (counted.mergeSort fun a b => b.2 ≤ a.2).map Prod.fst

/-- The literal table of a schema. -/
def Schema.literalTable (schema : Schema) : List String := rankedLiterals schema.literals

/-- The rank of a name. -/
def rankOf (table : List String) (name : String) : Except Error Nat :=
  match table.idxOf? name with
  | some rank => .ok rank
  | none => .error (.compact (.unregisteredLiteral name))

/-- The name of a rank. -/
def literalAt (table : List String) (rank : Nat) : Except Error String :=
  match table[rank]? with
  | some name => .ok name
  | none => .error (.compact (.rankOutOfRange rank))

end RelaxSchema
