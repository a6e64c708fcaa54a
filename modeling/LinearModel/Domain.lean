import LinearModel.Value.Coercion

/-!
# Domains

A domain is a range of whole numbers with fixed or with computed bounds, a set of elements, a set
of records, or a set given by a comprehension, which may be a family with one member per outer
index. Computed bounds and members are kept until data changes.
-/
namespace LinearModel

/-- A range with fixed bounds. -/
structure IndexSet where
  symbol : String
  first : Int
  last : Int

/-- A range with computed bounds, and the bounds computed so far. -/
structure BoundRange (K : Type) where
  symbol : String
  first : Expr K
  last : Expr K
  knownFirst : Option Int := none
  knownLast : Option Int := none

/-- A set of elements of a scalar type. -/
structure PrimitiveSet (K : Type) where
  symbol : String
  type : TypeName
  isExternal : Bool := false
  elements : List (Value K) := []

structure TupleSet (K : Type) where
  symbol : String
  schema : Schema
  isExternal : Bool := false
  records : List (Value K) := []

/-- A set given by a comprehension. Its elements are the values of the output, or of the first
iterator if there is no output. The members computed so far are kept by outer index; a set that
is no family keeps its only member under no value. -/
structure ComputedSet (K : Type) where
  symbol : String
  iterators : List (Iter K)
  condition : Option (Expr K) := none
  output : Option (Expr K) := none
  outer : Option (Iter K) := none
  known : Table (Value K) (List (Value K)) := Table.empty

inductive Domain (K : Type) where
  | tuples (d : TupleSet K)
  | computed (d : ComputedSet K)
  | primitive (d : PrimitiveSet K)
  | index (d : IndexSet)
  | range (d : BoundRange K)

variable {K : Type} [Scalar K]

/-- The whole numbers from one bound to another. -/
def intRange (first last : Int) : List (Value K) :=
  (List.range (last - first + 1).toNat).map fun n : Nat => .int (first + (n : Int))

namespace PrimitiveSet

/-- Replace the elements. Each is fitted to the type of the set, and repeated ones are dropped. -/
def withElements (d : PrimitiveSet K) (vs : List (Value K)) :
    Except (Cause K) (PrimitiveSet K) := do
  let ws ← vs.mapM fun v => (v.coerce d.type).map Value.normalize
  return { d with elements := Value.distinct ws }

end PrimitiveSet

namespace TupleSet

/-- The records that given values stand for, without repetitions. -/
def recordsOf (d : TupleSet K) (vs : List (Value K)) : Except (Cause K) (List (Value K)) := do
  let ws ← vs.mapM fun v => v.asRecord d.schema
  return Value.distinct ws

/-- The name of the record type of a value, if it is a record. -/
def schemaOf : Value K → Option String
  | .record s _ => some s.symbol
  | _ => none

/-- A record of a foreign type among the records of the set. -/
def foreign? (d : TupleSet K) : Option String :=
  (d.records.filterMap schemaOf).find? (· != d.schema.symbol)

def findByKey (d : TupleSet K) (key : Index K) : List (Value K) :=
  let key := key.map Value.normalize
  d.records.filter fun r =>
    match r with
    | .record s vs => Value.recordKey s vs == key
    | _ => false

end TupleSet

def bracesLiteral (vs : List (Value K)) : String :=
  "\x7b" ++ String.intercalate "," (vs.map Value.literal) ++ "\x7d"

namespace ComputedSet

def firstSymbol (d : ComputedSet K) : String :=
  match d.iterators with
  | [] => ""
  | it :: _ => it.symbol

def literal (d : ComputedSet K) : String :=
  let output := match d.output with
    | none => d.firstSymbol
    | some e => e.literal
  "\x7b" ++ output ++ " | " ++ iteratorsLiteral d.iterators d.condition ++ "\x7d"

end ComputedSet

namespace Domain

def symbol : Domain K → String
  | .tuples d => d.symbol
  | .computed d => d.symbol
  | .primitive d => d.symbol
  | .index d => d.symbol
  | .range d => d.symbol

/-- What a domain holds, as a model writes it. -/
def literal : Domain K → String
  | .tuples d => bracesLiteral d.records
  | .computed d => d.literal
  | .primitive d => bracesLiteral d.elements
  | .index d => intText d.first ++ ".." ++ intText d.last
  | .range d => d.first.literal ++ ".." ++ d.last.literal

end Domain

end LinearModel
