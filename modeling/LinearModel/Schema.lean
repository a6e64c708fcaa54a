
/-!
# Types and schemas

Parameters, set elements and record fields have a type: one of the scalar types, or the name of a
record type. A record type is declared by a schema, which lists its fields in order and names the
fields that identify a record.
-/
namespace LinearModel

/-- The type of a value. The two truth types differ in name only. -/
inductive TypeName where
  | int
  | float
  | bool
  | boolean
  | string
  | record (schema : String)
  deriving DecidableEq, Repr, Inhabited

namespace TypeName

/-- The type that a word denotes. A word that is no scalar type names a record type. -/
def ofName : String → TypeName
  | "int" => .int
  | "float" => .float
  | "bool" => .bool
  | "boolean" => .boolean
  | "string" => .string
  | s => .record s

def name : TypeName → String
  | .int => "int"
  | .float => "float"
  | .bool => "bool"
  | .boolean => "boolean"
  | .string => "string"
  | .record s => s

end TypeName

/-- A record type: its name, its fields with their types in order, and the fields that identify a
record. -/
structure Schema where
  symbol : String
  fields : List (String × TypeName)
  keys : List String
  deriving DecidableEq, Repr, Inhabited

namespace Schema

def hasField (s : Schema) (field : String) : Bool := s.fields.any (·.1 == field)

def literal (s : Schema) : String :=
  let field (f : String × TypeName) : String :=
    (if s.keys.contains f.1 then "key " else "") ++ f.2.name ++ " " ++ f.1 ++ ";"
  "tuple " ++ s.symbol ++ " \x7b " ++ String.intercalate " " (s.fields.map field) ++ " \x7d"

end Schema

end LinearModel
