import RelaxSchema.Compact.Literals
import RelaxSchema.Json.Printer

/-!
# Contents in the compact format

A content model as JSON: a token is its rank, any other model a pair of an operator and what it is
applied to. Reading accepts what writing produces and nothing else.
-/

namespace RelaxSchema.Model

/-- An operator applied to a value. -/
def applied (operator : String) (payload : Json) : Json := .array [.string operator, payload]

/-! ### Writing -/

mutual

/-- A content model as JSON. -/
def encode (table : List String) : Model → Except Error Json
  | token name => .nat <$> rankOf table name
  | sequence blocks => do
    let items ← encodeAll table blocks
    .ok (applied "," (.array items))
  | choice blocks => do
    let items ← encodeAll table blocks
    .ok (applied "|" (.array items))
  | interleave blocks => do
    let items ← encodeAll table blocks
    .ok (applied "~" (.array items))
  | optional block => applied "?" <$> encode table block
  | kleene block => applied "*" <$> encode table block
  | plus block => applied "+" <$> encode table block

/-- Several content models as JSON. -/
def encodeAll (table : List String) : List Model → Except Error (List Json)
  | [] => .ok []
  | block :: rest => do
    let item ← encode table block
    let items ← encodeAll table rest
    .ok (item :: items)

end

/-! ### Reading -/

mutual

/-- The content model that a value stands for. -/
def decode (table : List String) : Json → Except Error Model
  | .number (.natural rank) => token <$> literalAt table rank
  | .number value => .error (.compact (.invalidRank value.text))
  | .array [.string operator, payload] =>
    match operator with
    | "," => sequence <$> decodeList table payload
    | "|" => choice <$> decodeList table payload
    | "~" => interleave <$> decodeList table payload
    | "?" => optional <$> decode table payload
    | "*" => kleene <$> decode table payload
    | "+" => plus <$> decode table payload
    | operator => .error (.compact (.unknownOperator operator))
  | value => .error (.compact (.invalidContent value.render))

/-- The content models that a list stands for. -/
def decodeList (table : List String) : Json → Except Error (List Model)
  | .array items => decodeAll table items
  | value => .error (.compact (.listExpected value.render))

/-- The content models that several values stand for. -/
def decodeAll (table : List String) : List Json → Except Error (List Model)
  | [] => .ok []
  | item :: rest => do
    let block ← decode table item
    let blocks ← decodeAll table rest
    .ok (block :: blocks)

end

end RelaxSchema.Model
