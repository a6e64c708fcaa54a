import LinearModel.Environment
import LinearModel.Parameter
import LinearModel.Domain
import LinearModel.Variable

/-!
# Registry

The registry holds what a model declares, by kind and in order of declaration. A symbol is
declared once. Domains are kept in one table per kind, and a symbol is looked up in them in a fixed
order.
-/
namespace LinearModel

/-- What a model has declared. -/
structure Registry (K : Type) where
  schemas : Table String Schema := Table.empty
  tupleSets : Table String (TupleSet K) := Table.empty
  computedSets : Table String (ComputedSet K) := Table.empty
  primitiveSets : Table String (PrimitiveSet K) := Table.empty
  indexSets : Table String IndexSet := Table.empty
  boundRanges : Table String (BoundRange K) := Table.empty
  params : Table String (Parameter K) := Table.empty
  vars : Table String (Variable K) := Table.empty
  dexprs : Table String (DecisionExpression K) := Table.empty

/-- Something that a statement declares. -/
inductive Entity (K : Type) where
  | schema (s : Schema)
  | domain (d : Domain K)
  | parameter (p : Parameter K)
  | decisionVariable (v : Variable K)
  | dexpr (d : DecisionExpression K)

namespace Registry

variable {K : Type} [Scalar K]

instance : Inhabited (Registry K) := ⟨{}⟩

/-- The domain of a symbol: sets of records come first, then comprehensions, sets of elements,
fixed ranges and computed ranges. -/
def domain? (r : Registry K) (symbol : String) : Option (Domain K) :=
  ((r.tupleSets.find? symbol).map .tuples)
    <|> ((r.computedSets.find? symbol).map .computed)
    <|> ((r.primitiveSets.find? symbol).map .primitive)
    <|> ((r.indexSets.find? symbol).map .index)
    <|> ((r.boundRanges.find? symbol).map .range)

/-- All domains, kind by kind. -/
def domains (r : Registry K) : List (Domain K) :=
  r.tupleSets.values.map .tuples ++ r.computedSets.values.map .computed
    ++ r.primitiveSets.values.map .primitive ++ r.indexSets.values.map .index
    ++ r.boundRanges.values.map .range

/-- Whether a symbol is declared as anything. -/
def isDeclared (r : Registry K) (symbol : String) : Bool :=
  r.schemas.contains symbol || (r.domain? symbol).isSome || r.params.contains symbol
    || r.vars.contains symbol || r.dexprs.contains symbol

/-- The number of declarations that can refer to one another. -/
def size (r : Registry K) : Nat :=
  r.computedSets.size + r.boundRanges.size + r.params.size + r.dexprs.size

/-- Enter a domain into the table of its kind. -/
def putDomain (r : Registry K) : Domain K → Registry K
  | .tuples d => { r with tupleSets := r.tupleSets.insert d.symbol d }
  | .computed d => { r with computedSets := r.computedSets.insert d.symbol d }
  | .primitive d => { r with primitiveSets := r.primitiveSets.insert d.symbol d }
  | .index d => { r with indexSets := r.indexSets.insert d.symbol d }
  | .range d => { r with boundRanges := r.boundRanges.insert d.symbol d }

/-- Enter a parameter, or change it. -/
def putParameter (r : Registry K) (p : Parameter K) : Registry K :=
  { r with params := r.params.insert p.symbol p }

/-- Change what a range with computed bounds holds. -/
def changeRange (r : Registry K) (symbol : String) (f : BoundRange K → BoundRange K) :
    Registry K :=
  match r.boundRanges.find? symbol with
  | some d => { r with boundRanges := r.boundRanges.insert d.symbol (f d) }
  | none => r

/-- Change what a comprehension holds. -/
def changeMembers (r : Registry K) (symbol : String) (f : ComputedSet K → ComputedSet K) :
    Registry K :=
  match r.computedSets.find? symbol with
  | some d => { r with computedSets := r.computedSets.insert d.symbol (f d) }
  | none => r

/-- Forget every computed bound and member, and the values of every derived parameter. -/
def invalidate (r : Registry K) : Registry K :=
  { r with
    computedSets := r.computedSets.map fun d => { d with known := Table.empty }
    boundRanges := r.boundRanges.map fun d => { d with knownFirst := none, knownLast := none }
    params := r.params.map fun p => if p.definition.isSome then p.clear else p }

end Registry

namespace Entity

variable {K : Type} [Scalar K]

def symbol : Entity K → String
  | .schema s => s.symbol
  | .domain d => d.symbol
  | .parameter p => p.symbol
  | .decisionVariable v => v.symbol
  | .dexpr d => d.symbol

/-- An entity by name: a parameter with its index domains, others by their symbol. -/
def text : Entity K → String
  | .parameter p => p.text
  | e => e.symbol

def dim : Entity K → Nat
  | .parameter p => p.dim
  | .decisionVariable v => v.dim
  | .dexpr d => d.dim
  | _ => 0

/-- The declaration of an entity as it stands. -/
def literal : Entity K → String
  | .schema s => s.literal
  | .domain d => d.literal
  | .parameter p => p.literal
  | .decisionVariable v => v.literal
  | .dexpr d => d.literal

end Entity

namespace Registry

variable {K : Type} [Scalar K]

/-- Enter an entity into the table of its kind. -/
def put (r : Registry K) : Entity K → Registry K
  | .schema s => { r with schemas := r.schemas.insert s.symbol s }
  | .domain d => r.putDomain d
  | .parameter p => r.putParameter p
  | .decisionVariable v => { r with vars := r.vars.insert v.symbol v }
  | .dexpr d => { r with dexprs := r.dexprs.insert d.symbol d }

/-- Declare an entity under a symbol that is not declared yet. -/
def declare (r : Registry K) (e : Entity K) : Except (Cause K) (Registry K) :=
  if r.isDeclared e.symbol then .error (.alreadyDeclared e.symbol) else .ok (r.put e)

/-- An entity as it stands now: data may have changed since it was declared. -/
def current (r : Registry K) : Entity K → Entity K
  | .domain (.tuples d) => .domain (.tuples ((r.tupleSets.find? d.symbol).getD d))
  | .domain (.primitive d) => .domain (.primitive ((r.primitiveSets.find? d.symbol).getD d))
  | .parameter p => .parameter ((r.params.find? p.symbol).getD p)
  | e => e

end Registry

end LinearModel
