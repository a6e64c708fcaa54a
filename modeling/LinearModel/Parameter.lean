import LinearModel.Value.Coercion

/-!
# Parameters

A parameter holds a value of its type, or one value for each index it was given one for. Its
values are written in the model, supplied from outside, or derived from a definition. A derived
parameter is evaluated when it is first read, and again after its inputs may have changed.
-/
namespace LinearModel

structure Parameter (K : Type) where
  symbol : String
  type : TypeName
  /-- The schema of a parameter declared as a record. -/
  schema : Option Schema := none
  domains : List String := []
  isExternal : Bool := false
  /-- The expression that the values are derived from. -/
  definition : Option (Expr K) := none
  iterators : List (Iter K) := []
  /-- Whether the definition has been evaluated. -/
  isDefined : Bool := false
  value : Option (Value K) := none
  values : Table (Index K) (Value K) := Table.empty

namespace Parameter

variable {K : Type} [Scalar K]

def dim (p : Parameter K) : Nat := p.domains.length

def isIndexed (p : Parameter K) : Bool := !p.domains.isEmpty

def hasValue (p : Parameter K) : Bool :=
  if p.isIndexed then !p.values.toList.isEmpty else p.value.isSome

/-- The parameter with its index domains. -/
def text (p : Parameter K) : String :=
  p.symbol ++ String.join (p.domains.map fun d => "[" ++ d ++ "]")

/-- The declaration of the parameter as it stands. -/
def literal (p : Parameter K) : String :=
  let head := p.type.name ++ " " ++ p.text
  if p.isExternal then head ++ " = ..."
  else
    match p.definition, p.value with
    | some e, _ => head ++ " = " ++ e.literal
    | none, some v => if p.isIndexed then head else head ++ " = " ++ v.literal
    | none, none => head

/-- The stored value at an index. The empty index asks for the value of a scalar parameter. -/
def get (p : Parameter K) (idx : Index K) : Except (Cause K) (Value K) :=
  if idx.isEmpty then
    if p.isIndexed then .error (.missingIndex p.text)
    else
      match p.value with
      | some v => .ok v
      | none => .error (.noValue p.symbol)
  else if idx.length ≠ p.dim then
    .error (.parameterIndexCount p.text p.dim idx.length)
  else
    let idx := idx.map Value.normalize
    if !Value.areKeys idx then .error .wrongKind
    else
      match p.values.find? idx with
      | some v => .ok v
      | none => .error (.noValueAt p.symbol idx)

/-- A value to be stored: a record parameter builds its record first. -/
def prepare (p : Parameter K) (v : Value K) : Except (Cause K) (Value K) :=
  match p.schema with
  | some s => v.asRecord s
  | none => .ok v

/-- Store the value of a scalar parameter. -/
def set (p : Parameter K) (v : Value K) : Except (Cause K) (Parameter K) := do
  let v ← p.prepare v
  if p.isIndexed then .error (.scalarForIndexed p.text)
  else return { p with value := some (← v.coerce p.type) }

/-- Store the value at an index. -/
def setAt (p : Parameter K) (idx : Index K) (v : Value K) : Except (Cause K) (Parameter K) := do
  -- the record comes first, so its errors come before those of the index
  let v ← p.prepare v
  if idx.length ≠ p.dim then .error (.parameterIndexCount p.text p.dim idx.length)
  else
    let idx := idx.map Value.normalize
    let w ← v.coerce p.type
    if !Value.areKeys idx then .error .wrongKind
    else return { p with values := p.values.insert idx w }

/-- The index that a value stands for: a sequence is one, any other value is its only element. -/
def indexOf : Value K → Index K
  | .seq vs => vs
  | v => [v]

def clear (p : Parameter K) : Parameter K :=
  { p with value := none, values := Table.empty, isDefined := false }

end Parameter

end LinearModel
