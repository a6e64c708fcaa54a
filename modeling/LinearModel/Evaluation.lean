import LinearModel.Run

/-!
# Evaluation

An expression is evaluated in an environment against a registry. Evaluation recurses into the
expression itself; what the expression names is looked up through a `Lookup`, which evaluates the
bodies of declared parameters, domains and decision expressions in turn. `lookup n` ties this knot
`n` declarations deep, and a definition that needs more never ends.

Iterators are enumerated in order, outermost first, and the elements of each domain in the order
of the domain. The domain of an inner iterator is resolved anew for each binding of the outer ones,
so it may depend on them.
-/
namespace LinearModel

variable {K : Type} [Scalar K] {α : Type}

/-! ## Enumeration -/

/-- The most iterators that may be bound at once. -/
def maxIterators : Nat := 64

/-- One iterator of an enumeration: the symbol it binds, its elements, and its filter. -/
structure Stage (K : Type) where
  symbol : String
  elements : Env K → Run K (List (Value K))
  admits : Env K → Run K Bool

namespace Stage

/-- Visit every combination of elements that passes the filters, and gather what is found there. -/
def visit : List (Stage K) → (Env K → Run K (List α)) → Env K → Run K (List α)
  | [], last, env => last env
  | s :: rest, last, env => do
    let vs ← s.elements env
    let found ← vs.mapM fun v => do
      let inner := env.bind s.symbol v
      if ← s.admits inner then visit rest last inner else return []
    return found.flatten

/-- Do something for every combination of elements that passes the filters and the condition, and
list the results in order. -/
def enumerate (stages : List (Stage K)) (holds : Env K → Run K Bool) (each : Env K → Run K α)
    (env : Env K) : Run K (List α) :=
  if maxIterators < env.depth + stages.length then Run.fail (.tooManyIterators maxIterators)
  else
    visit stages (fun inner => do if ← holds inner then return [← each inner] else return []) env

end Stage

/-! ## Expressions -/

/-- How the things that an expression names are looked up. -/
structure Lookup (K : Type) where
  /-- The value of a parameter at an index. The index of a scalar parameter is empty. -/
  parameter : String → Index K → Run K (Value K)
  /-- The elements of a domain, at an outer index if one is given. -/
  elements : String → Env K → Option (Value K) → Run K (List (Value K))
  body : Expr K → Env K → Run K K

/-- The value of an expression as a number. -/
def Expr.readNumber (e : Expr K) (v : Value K) : Run K K :=
  match v with
  | .real x => return x
  | .int i => Run.ofExcept (scalarOfInt i)
  | .bool b => return Scalar.ofBool b
  | v => Run.fail (.notNumeric v (some e.literal))

/-- An expression as a number, given how its value is computed. A number literal stands for
itself, and a lookup of a record is no number. -/
def Expr.asNumber (e : Expr K) (value : Run K (Value K)) : Run K K :=
  match e with
  | .num x => pure x
  | .item _ _ => Run.fail (.lookupAsNumber e)
  | _ => do e.readNumber (← value)

/-- The bound of a range, given how it is computed. It must be a whole number. -/
def rangeBound (e : Expr K) (value : Run K (Value K)) : Run K Int := do
  let x ← e.asNumber value
  match Scalar.toInt? x with
  | some i => return i
  | none => Run.fail (.nonIntegralBound e (.real x))

/-- The decision expression of a symbol and the environment of its body. The body sees its own
index and no other binding. -/
def dexprScope (symbol : String) (index : Option (Env K → Run K (Value K))) (env : Env K) :
    Run K (DecisionExpression K × Env K) := do
  match (← Run.registry).dexprs.find? symbol with
  | none => Run.fail (.dexprNotDeclared symbol)
  | some d =>
    match d.index, index with
    | some _, none => Run.fail (.dexprWithoutIndex symbol)
    | some i, some value => return (d, env.spawn.bind i (← value env).normalize)
    | none, some _ => Run.fail (.dexprWithIndex symbol)
    | none, none => return (d, env.spawn)

def declaredVariable (symbol : String) : Run K (Variable K) := do
  match (← Run.registry).vars.find? symbol with
  | none => Run.fail (.variableNotDeclared symbol)
  | some v => return v

/-- The name and the index of a single decision variable. The name must not be that of a scalar
variable. -/
def singleVariable (symbol : String) (v : Variable K) (idx : Index K) :
    Run K (String × Index K) := do
  if idx.length ≠ v.dim then Run.fail (.variableIndexCount symbol v.dim idx.length)
  else
    let name := Variable.nameAt symbol idx
    let isTaken := name != symbol && ((← Run.registry).vars.find? name).any (·.dim == 0)
    if isTaken then Run.fail (.variableNameTaken (symbol ++ Value.indexLiteral idx) name)
    else return (name, idx)

/-- The name and the index of a single decision variable, given how its index is computed. -/
def variableAt (symbol : String) (index : Run K (Index K)) : Run K (String × Index K) := do
  let v ← declaredVariable symbol
  singleVariable symbol v (← index)

/-- A set of records whose keys have a number of parts. -/
def keyedSet (set : String) (count : Nat) : Run K (TupleSet K) := do
  match (← Run.registry).tupleSets.find? set with
  | none => Run.fail (.tupleSetNotDeclared set)
  | some d =>
    if count ≠ d.schema.keys.length then Run.fail (.keyCount set d.schema.keys.length count)
    else return d

/-- The record of a set with a key. The first of several is taken, with a warning. -/
def recordOf (set : String) (d : TupleSet K) (key : Index K) : Run K (Value K) := do
  match d.findByKey key with
  | [] => Run.fail (.keyNotFound set key)
  | [r] => return r
  | r :: rs =>
    Run.warn ("Tuple set '" ++ set ++ "' has " ++ natText (rs.length + 1)
      ++ " elements with key " ++ Value.keyLiteral key ++ "; the first is used")
    return r

/-- The record of a set with a key, given how the key is computed. -/
def recordAt (set : String) (count : Nat) (key : Run K (Index K)) : Run K (Value K) := do
  let d ← keyedSet set count
  recordOf set d (← key)

namespace Expr

mutual
def value (L : Lookup K) : Expr K → Env K → Run K (Value K)
  | .num x, _ => return (Value.real x).normalize
  | .str s, _ => return .str s
  | .record s vs, _ => return .record s vs
  | .name s, env => do
    match env.get? s with
    | some v => return v
    | none =>
      if (← Run.registry).params.contains s then L.parameter s []
      else Run.fail (.nameNotBound s)
  | .param s idx, env => do L.parameter s (← elements L idx env)
  | .var n _ _, env => do return .real (← Run.ofExcept (env.variableValue n))
  | .ivar s idx, env => do
    let (n, _) ← variableAt s (elements L idx env)
    return .real (← Run.ofExcept (env.variableValue n))
  | .dexpr s none, env => do
    let env ← Run.ofExcept (env.enter s)
    let (d, inner) ← dexprScope s none env
    return .real (← L.body d.body inner)
  | .dexpr s (some e), env => do
    let env ← Run.ofExcept (env.enter s)
    let (d, inner) ← dexprScope s (some fun env => value L e env) env
    return .real (← L.body d.body inner)
  | .arith op l r, env => do
    let x ← l.asNumber (value L l env)
    let y ← r.asNumber (value L r env)
    return .real (op.apply x y)
  | .neg e, env => do return .real (-(← e.asNumber (value L e env)))
  | .rel op l r, env => do
    let x ← value L l env
    let y ← value L r env
    return .real (Scalar.ofBool (← Run.ofExcept (Value.compare op x y)))
  | .logic .not es, env => do
    match ← firstTruth L es env with
    | some b => return .real (Scalar.ofBool (!b))
    | none => Run.fail .noOperand
  | .logic .and es, env => do return .real (Scalar.ofBool (← allTrue L es env))
  | .logic .or es, env => do return .real (Scalar.ofBool (← anyTrue L es env))
  | .field e f, env => do
    match ← value L e env with
    | .record s vs => Run.ofExcept (Value.field s vs f)
    | _ => Run.fail (.fieldOfNonRecord f e)
  | .item set key, env => recordAt set key.length (elements L key env)
  | .sum its body none, env => do
    let terms ← Stage.enumerate (stages L its) (fun _ => pure true)
      (fun inner => body.asNumber (value L body inner)) env
    return .real (terms.foldl (· + ·) Scalar.zero)
  | .sum its body (some c), env => do
    let terms ← Stage.enumerate (stages L its)
      (fun inner => do return Scalar.isTrue (← c.asNumber (value L c inner)))
      (fun inner => body.asNumber (value L body inner)) env
    return .real (terms.foldl (· + ·) Scalar.zero)

/-- The values of expressions as elements of an index. -/
def elements (L : Lookup K) : List (Expr K) → Env K → Run K (Index K)
  | [], _ => return []
  | e :: es, env => do
    let v ← value L e env
    let vs ← elements L es env
    return v.normalize :: vs

/-- The truth of the first expression of a list. -/
def firstTruth (L : Lookup K) : List (Expr K) → Env K → Run K (Option Bool)
  | [], _ => return none
  | e :: _, env => do return some (Scalar.isTrue (← e.asNumber (value L e env)))

/-- Whether all expressions are true. The first that is not ends the search. -/
def allTrue (L : Lookup K) : List (Expr K) → Env K → Run K Bool
  | [], _ => return true
  | e :: es, env => do
    if Scalar.isTrue (← e.asNumber (value L e env)) then allTrue L es env else return false

/-- Whether some expression is true. The first that is ends the search. -/
def anyTrue (L : Lookup K) : List (Expr K) → Env K → Run K Bool
  | [], _ => return false
  | e :: es, env => do
    if Scalar.isTrue (← e.asNumber (value L e env)) then return true else anyTrue L es env

def stages (L : Lookup K) : List (Iter K) → List (Stage K)
  | [] => []
  | it :: its => stage L it :: stages L its

def stage (L : Lookup K) : Iter K → Stage K
  | .mk s src none =>
    { symbol := s, elements := fun env => sourceElements L src env, admits := fun _ => pure true }
  | .mk s src (some f) =>
    { symbol := s
      elements := fun env => sourceElements L src env
      admits := fun env => do return Scalar.isTrue (← f.asNumber (value L f env)) }

/-- The elements that an iterator runs over. -/
def sourceElements (L : Lookup K) : Source K → Env K → Run K (List (Value K))
  | .named s none, env => L.elements s env none
  | .named s (some e), env => do
    let v ← value L e env
    L.elements s env (some v)
  | .range a b, env => do
    let first ← rangeBound a (value L a env)
    let last ← rangeBound b (value L b env)
    return intRange first last
end

def number (L : Lookup K) (e : Expr K) (env : Env K) : Run K K := e.asNumber (e.value L env)

/-- Whether an expression counts as true. -/
def truth (L : Lookup K) (e : Expr K) (env : Env K) : Run K Bool :=
  return Scalar.isTrue (← e.number L env)

/-- Whether a condition holds. No condition always does. -/
def holds (L : Lookup K) : Option (Expr K) → Env K → Run K Bool
  | none, _ => pure true
  | some c, env => c.truth L env

end Expr

/-- Do something for every admitted combination of iterator values. -/
def enumerate (L : Lookup K) (its : List (Iter K)) (condition : Option (Expr K)) (env : Env K)
    (each : Env K → Run K α) : Run K (List α) :=
  Stage.enumerate (Expr.stages L its) (Expr.holds L condition) each env

/-- The values that iterators are bound to. -/
def boundValues (its : List (Iter K)) (env : Env K) : Run K (List (Value K)) :=
  its.mapM fun it => Run.ofExcept (env.get it.symbol)

/-- The admitted combinations of iterator values, in order. -/
def combinations (L : Lookup K) (its : List (Iter K)) (condition : Option (Expr K))
    (env : Env K) : Run K (List (List (Value K))) :=
  enumerate L its condition env (boundValues its)

/-! ## Parameters -/

/-- Store the value at an index of a registered parameter. -/
def storeAt (symbol : String) (idx : Index K) (v : Value K) : Run K Unit := do
  match (← Run.registry).params.find? symbol with
  | none => Run.fail (.parameterNotDeclared symbol)
  | some p =>
    let p ← Run.ofExcept (p.setAt idx v)
    Run.modifyRegistry (·.putParameter p)

/-- Store the value of a registered scalar parameter. -/
def store (symbol : String) (v : Value K) : Run K Unit := do
  match (← Run.registry).params.find? symbol with
  | none => Run.fail (.parameterNotDeclared symbol)
  | some p =>
    let p ← Run.ofExcept (p.set v)
    Run.modifyRegistry (·.putParameter p)

/-- Evaluate the definition of a parameter and store the values one by one. -/
def defineParameter (L : Lookup K) (p : Parameter K) (definition : Expr K) : Run K Unit := do
  -- an evaluation that failed may have left values
  Run.modifyRegistry (·.putParameter { p with value := none, values := Table.empty })
  if p.isIndexed then
    let _ ← enumerate L p.iterators none Env.empty fun env => do
      let idx ← boundValues p.iterators env
      storeAt p.symbol idx (← definition.value L env)
  else
    store p.symbol (← definition.value L Env.empty)
  -- marked only here, so that a definition that fails is evaluated anew
  Run.modifyRegistry fun r =>
    match r.params.find? p.symbol with
    | some q => r.putParameter { q with isDefined := true }
    | none => r

/-- The stored value of a registered parameter at an index. -/
def storedValue (symbol : String) (idx : Index K) : Run K (Value K) := do
  match (← Run.registry).params.find? symbol with
  | none => Run.fail (.parameterNotDeclared symbol)
  | some p => Run.ofExcept (p.get idx)

/-- The value of a parameter at an index. A derived parameter is evaluated on first use. -/
def parameterValue (L : Lookup K) (symbol : String) (idx : Index K) : Run K (Value K) := do
  match (← Run.registry).params.find? symbol with
  | none => Run.fail (.parameterNotDeclared symbol)
  | some p =>
    match p.definition with
    | some definition => if !p.isDefined then defineParameter L p definition
    | none => pure ()
    storedValue symbol idx

/-! ## Domains -/

/-- A bound of a range: the one that is known, or else the one computed, which is kept. -/
def boundOf (L : Lookup K) (symbol : String) (e : Expr K) (bound : Option Int)
    (note : Int → BoundRange K → BoundRange K) (env : Env K) : Run K Int :=
  match bound with
  | some i => pure i
  | none => do
    let i ← rangeBound e (e.value L env.spawn)
    Run.modifyRegistry (·.changeRange symbol (note i))
    return i

/-- The elements of a range with computed bounds. Each bound is kept as soon as it is known. -/
def rangeElements (L : Lookup K) (d : BoundRange K) (env : Env K) : Run K (List (Value K)) := do
  let first ← boundOf L d.symbol d.first d.knownFirst
    (fun i d => { d with knownFirst := some i }) env
  -- the computation of the first bound may have led to the last one
  let known := ((← Run.registry).boundRanges.find? d.symbol).bind (·.knownLast)
  let last ← boundOf L d.symbol d.last known (fun i d => { d with knownLast := some i }) env
  return intRange first last

/-- The elements of a comprehension, computed. -/
def comprehend (L : Lookup K) (d : ComputedSet K) (env : Env K) : Run K (List (Value K)) := do
  let found ← enumerate L d.iterators d.condition env fun inner => do
    match d.output with
    | none => return (← Run.ofExcept (inner.get d.firstSymbol)).normalize
    | some e => return (← e.value L inner).normalize
  return Value.distinct found

/-- The outer index at which a family of sets is asked for: the one given, or else the one its
iterator is bound to. -/
def outerIndex (d : ComputedSet K) (outer : Iter K) (env : Env K) (given : Option (Value K)) :
    Except (Cause K) (Value K) :=
  let bound := match env.get? outer.symbol with
    | some v => .ok v.normalize
    | none => .error (.outerIndexNotBound d.symbol outer.symbol)
  match given with
  | none | some .null => bound
  | some v => .ok v.normalize

/-- The key under which a member of a comprehension is kept, and the environment it is computed in,
where only its own outer index is bound. -/
def memberScope (d : ComputedSet K) (env : Env K) (given : Option (Value K)) :
    Except (Cause K) (Value K × Env K) :=
  match d.outer with
  | none => .ok (.null, env.spawn)
  | some outer => do
    let v ← outerIndex d outer env given
    if v.isKey then return (v, env.spawn.bind outer.symbol v) else .error .wrongKind

/-- The elements of a comprehension. Each member is computed once. -/
def memberElements (L : Lookup K) (d : ComputedSet K) (env : Env K) (given : Option (Value K)) :
    Run K (List (Value K)) := do
  let (key, scope) ← Run.ofExcept (memberScope d env given)
  match d.known.find? key with
  | some vs => return vs
  | none =>
    let vs ← comprehend L d scope
    Run.modifyRegistry
      (·.changeMembers d.symbol fun d => { d with known := d.known.insert key vs })
    return vs

def domainElements (L : Lookup K) (symbol : String) (env : Env K) (given : Option (Value K)) :
    Run K (List (Value K)) := do
  match (← Run.registry).domain? symbol with
  | none => Run.fail (.domainNotDeclared symbol)
  | some (.tuples d) => return d.records
  | some (.primitive d) => return d.elements
  | some (.index d) => return intRange d.first d.last
  | some (.range d) => rangeElements L d env
  | some (.computed d) => memberElements L d env given

/-! ## Looking up through declarations -/

/-- Lookup that goes `n` declarations deep. -/
def lookup : Nat → Lookup K
  | 0 =>
    { parameter := fun _ _ => Run.fail .endless
      elements := fun _ _ _ => Run.fail .endless
      body := fun _ _ => Run.fail .endless }
  | n + 1 =>
    { parameter := fun s idx => parameterValue (lookup n) s idx
      elements := fun s env given => domainElements (lookup n) s env given
      body := fun e env => e.number (lookup n) env }

/-- How many declarations deep a family of sets may lead into itself. -/
def familyDepth : Nat := 500

/-- The lookup that is deep enough for a registry: a chain of distinct declarations is no longer
than the registry, and a family of sets may refer to other members of itself. -/
def Registry.lookup (r : Registry K) : Lookup K := LinearModel.lookup (r.size + familyDepth)

def Run.lookup : Run K (Lookup K) := return (← Run.registry).lookup

def Expr.evaluate (e : Expr K) (env : Env K) : Run K K := do e.number (← Run.lookup) env

def Expr.evaluateValue (e : Expr K) (env : Env K) : Run K (Value K) := do
  e.value (← Run.lookup) env

def resolveDomain (symbol : String) (env : Env K) (given : Option (Value K)) :
    Run K (List (Value K)) := do
  (← Run.lookup).elements symbol env given

def readParameter (symbol : String) (idx : Index K) : Run K (Value K) := do
  (← Run.lookup).parameter symbol idx

/-- The bounds of a decision variable. Without bounds of its own it is unbounded, and a Boolean
variable lies between zero and one in any case. -/
def Variable.bounds (v : Variable K) : Run K (K × K) := do
  let isBoolean := v.type = .boolean
  let lower : K := if isBoolean then Scalar.zero else -Scalar.infinity
  let upper : K := if isBoolean then Scalar.one else Scalar.infinity
  let lower ← match v.lower with
    | none => pure lower
    | some e => do pure (Scalar.larger lower (← e.evaluate Env.empty))
  let upper ← match v.upper with
    | none => pure upper
    | some e => do pure (Scalar.smaller upper (← e.evaluate Env.empty))
  return (lower, upper)

end LinearModel
