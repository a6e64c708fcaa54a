import LinearModel.Error
import LinearModel.Decimal.Reading

/-!
# Coercion

A value is stored in the form of the declared type: whole numbers for `int`, scalars for `float`,
the scalars zero and one for truth values, texts for `string`, and records of the named schema.
Texts that spell a number or a truth value are accepted where one is wanted.
-/
namespace LinearModel

variable {K : Type} [Scalar K]

def scalarOfInt (i : Int) : Except (Cause K) K :=
  match Scalar.ofInt? i with
  | some x => .ok x
  | none => .error .outOfRange

namespace Value

/-- Whether a text spells a truth value, and which. -/
def readBool? (s : String) : Option Bool :=
  let word := s.toList.map Char.toLower
  if word = "true".toList then some true
  else if word = "false".toList then some false
  else none

/-- A value in the form of a type. -/
def coerce (t : TypeName) (v : Value K) : Except (Cause K) (Value K) :=
  let refused : Except (Cause K) (Value K) := .error (.notOfType v t)
  match t with
  | .int =>
    match v with
    | .bool b => .ok (.int (if b then 1 else 0))
    | .int i => .ok (.int i)
    | .real x =>
      match Scalar.toInt? x with
      | some i => .ok (.int i)
      | none => refused
    | .str s =>
      match Decimal.readInt? s.toList with
      | some i => .ok (.int i)
      | none => refused
    | _ => refused
  | .float =>
    match v with
    | .bool b => .ok (.real (Scalar.ofBool b))
    | .int i => (scalarOfInt i).map .real
    | .real x => .ok (.real x)
    | .str s =>
      match Decimal.readReal? s.toList with
      | some x => .ok (.real x)
      | none => refused
    | _ => refused
  | .bool | .boolean =>
    match v with
    | .bool b => .ok (.real (Scalar.ofBool b))
    | .int i =>
      if i = 0 then .ok (.real Scalar.zero)
      else if i = 1 then .ok (.real Scalar.one)
      else refused
    -- a scalar is a truth value up to the tolerance
    | .real x =>
      if Scalar.isZero x then .ok (.real Scalar.zero)
      else if Scalar.isTrue x then .ok (.real Scalar.one)
      else refused
    | .str s =>
      match readBool? s with
      | some b => .ok (.real (Scalar.ofBool b))
      | none => refused
    | _ => refused
  | .string =>
    match v with
    | .str s => .ok (.str s)
    | _ => refused
  | .record name =>
    match v with
    | .record s vs => if s.symbol = name then .ok (.record s vs) else refused
    | _ => refused

/-- A value as a scalar, where a number is wanted. The context names the thing it is a value of. -/
def toScalar (v : Value K) (context : Option String) : Except (Cause K) K :=
  match v with
  | .bool b => .ok (Scalar.ofBool b)
  | .int i => scalarOfInt i
  | .real x => .ok x
  | _ => .error (.notNumeric v context)

/-- A value as a scalar, where a text that spells a number will also do. -/
def readScalar : Value K → Except (Cause K) K
  | .bool b => .ok (Scalar.ofBool b)
  | .int i => scalarOfInt i
  | .real x => .ok x
  | .str s =>
    match Decimal.readReal? s.toList with
    | some x => .ok x
    | none => .error .badDigits
  | _ => .error .wrongKind

/-- A scalar times a value that has to be a number. -/
def scaleBy (c : K) : Value K → Except (Cause K) K
  | .bool b => .ok (c * Scalar.ofBool b)
  | .int i => (scalarOfInt i).map (c * ·)
  | .real x => .ok (c * x)
  | _ => .error .wrongKind

/-- The map with given entries. A key that is given twice keeps its first place and its last
entry. -/
def ofEntries (es : List (Value K × Value K)) : Value K :=
  let t : Table (Value K) (Value K) := Table.ofList es
  .map t.keys t.values

end Value

namespace Number

/-- The difference of two numbers: exact between whole numbers. -/
def sub : Number K → Number K → Except (Cause K) (Number K)
  | .int i, .int j => .ok (.int (i - j))
  | .int i, .real y => (scalarOfInt i).map fun x => .real (x - y)
  | .real x, .int j => (scalarOfInt j).map fun y => .real (x - y)
  | .real x, .real y => .ok (.real (x - y))

/-- A number shifted by a scalar. -/
def shift (n : Number K) (d : K) : Except (Cause K) K :=
  match n with
  | .int i => (scalarOfInt i).map (· + d)
  | .real x => .ok (x + d)

/-- Whether a number is within the tolerance of zero. -/
def isZero : Number K → Bool
  | .int i => i = 0
  | .real x => Scalar.isZero x

/-- Strict order between a number and a scalar, without rounding. -/
def lt : Number K → K → Bool
  | .int i, y => Scalar.intLt i y
  | .real x, y => Scalar.lt x y

/-- Strict order between a scalar and a number, without rounding. -/
def gt : Number K → K → Bool
  | .int i, y => Scalar.intGt i y
  | .real x, y => Scalar.lt y x

/-- Weak order between a number and a scalar, without rounding. -/
def le : Number K → K → Bool
  | .int i, y => Scalar.intLt i y || Scalar.intEq i y
  | .real x, y => Scalar.le x y

/-- Weak order between a scalar and a number, without rounding. -/
def ge : Number K → K → Bool
  | .int i, y => Scalar.intGt i y || Scalar.intEq i y
  | .real x, y => Scalar.le y x

/-- Compare two numbers up to the tolerance. -/
def compare (op : RelOp) (a b : Number K) : Except (Cause K) Bool :=
  match op with
  | .eq => (sub a b).map isZero
  | .ne => (sub a b).map fun d =>
      match d with
      | .int i => i ≠ 0
      | .real x => Scalar.le Scalar.epsilon (Scalar.abs x)
  | .lt => (shift b (-Scalar.epsilon)).map (lt a)
  | .le => (shift b Scalar.epsilon).map (le a)
  | .gt => (shift b Scalar.epsilon).map (gt a)
  | .ge => (shift b (-Scalar.epsilon)).map (ge a)

end Number

namespace Value

/-- Compare two texts by their code points. -/
def compareText (op : RelOp) (s t : String) : Bool :=
  match op with
  | .eq => s == t
  | .ne => s != t
  | .lt => s < t
  | .le => !(t < s)
  | .gt => t < s
  | .ge => !(s < t)

def isRecord : Value K → Bool
  | .record _ _ => true
  | _ => false

/-- Compare two values. Numbers are compared up to the tolerance, other values by equality or, if
neither is a record, by the order of their data texts. -/
def compare (op : RelOp) (v w : Value K) : Except (Cause K) Bool :=
  let v := v.normalize
  let w := w.normalize
  match v.number?, w.number? with
  | some a, some b => Number.compare op a b
  | _, _ =>
    match op with
    | .eq => .ok (v == w)
    | .ne => .ok (!(v == w))
    | _ =>
      if v.isRecord || w.isRecord then .error (.recordsUnordered op)
      else .ok (compareText op v.text w.text)

def field (schema : Schema) (values : List (Value K)) (f : String) : Except (Cause K) (Value K) :=
  match fieldIn? f schema.fields values with
  | some v => .ok v
  | none => .error (.unknownField schema.symbol f)

/-- The key of a record: its identifying fields. -/
def recordKey (schema : Schema) (values : List (Value K)) : List (Value K) :=
  schema.keys.filterMap fun f => fieldIn? f schema.fields values

/-- Coerce values to the types of fields, one by one. -/
def coerceFields : List (String × TypeName) → List (Value K) → Except (Cause K) (List (Value K))
  | f :: fs, v :: vs => do
    let w ← v.coerce f.2
    let ws ← coerceFields fs vs
    return w :: ws
  | _, _ => .ok []

/-- The values of a map in the order of the fields. -/
def fieldsOfMap (schema : Schema) (keys values : List (Value K)) :
    Except (Cause K) (List (Value K)) :=
  let isField : Value K → Bool
    | .str s => schema.hasField s
    | _ => false
  match keys.find? (!isField ·) with
  | some k => .error (.unknownField schema.symbol k.text)
  | none =>
    schema.fields.mapM fun f =>
      match mapEntry? (.str f.1) keys values with
      | some v => .ok v
      | none => .error (.missingField schema.symbol f.1)

/-- The record of a schema with the given values: in field order, or by field name in a map. -/
def toRecord (schema : Schema) (v : Value K) : Except (Cause K) (Value K) := do
  let values ← match v with
    | .map ks vs => fieldsOfMap schema ks vs
    | v =>
      match v.items? with
      | some vs => .ok vs
      | none => .error .wrongKind
  if values.length ≠ schema.fields.length then
    .error (.fieldCount schema.symbol schema.fields.length values.length)
  else
    return .record schema (← coerceFields schema.fields values)

/-- A value as a record of a schema. A value that is a record already is kept, of whatever
schema. -/
def asRecord (schema : Schema) (v : Value K) : Except (Cause K) (Value K) :=
  match v with
  | .record s vs => .ok (.record s vs)
  | v => v.toRecord schema

end Value

namespace Schema

/-- Declare a record type. Without key fields, all fields identify a record. -/
def make (symbol : String) (fields : List (String × TypeName)) (keys : List String) :
    Except (Cause K) Schema :=
  -- the field reported is the one whose second occurrence comes first
  let rec firstSecond (seen : List String) : List String → Option String
    | [] => none
    | f :: fs => if seen.contains f then some f else firstSecond (f :: seen) fs
  match firstSecond [] (fields.map (·.1)) with
  | some f => .error (.duplicateField f symbol)
  | none =>
    let keys := if keys.isEmpty then fields.map (·.1) else keys
    match keys.find? fun k => !(fields.any (·.1 == k)) with
    | some k => .error (.unknownKeyField k symbol)
    | none => .ok ⟨symbol, fields, keys⟩

end Schema

def Expr.ofValue : Value K → Except (Cause K) (Expr K)
  | .record s vs => .ok (.record s vs)
  | .str s => .ok (.str s)
  | .bool b => .ok (.num (Scalar.ofBool b))
  | .int i => (scalarOfInt i).map .num
  | .real x => .ok (.num x)
  | _ => .error .wrongKind

end LinearModel
