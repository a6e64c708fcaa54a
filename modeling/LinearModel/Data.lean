import LinearModel.Evaluation

/-!
# Data

Parameters and sets that a model leaves open are assigned from outside. After an assignment, what
was computed from older data is forgotten. An assignment of several values stores them one by one,
and those before a value that does not fit stay.
-/
namespace LinearModel

variable {K : Type} [Scalar K]

/-- Forget what was computed from older data. -/
def invalidate : Run K Unit := Run.modifyRegistry Registry.invalidate

/-- Assign the value of a parameter, at an index if one is given. -/
def assignParameter (symbol : String) (idx : Option (Index K)) (v : Value K) : Run K Unit := do
  match idx with
  | none => store symbol v
  | some idx => storeAt symbol idx v
  invalidate

/-- Assign the values of an indexed parameter, given by their indices. -/
def assignParameters (symbol : String) (v : Value K) : Run K Unit := do
  if !(← Run.registry).params.contains symbol then Run.fail (.parameterNotDeclared symbol)
  match v with
  | .map keys values =>
    -- a failure half way leaves the values before it
    (keys.zip values).forM fun e => storeAt symbol (Parameter.indexOf e.1) e.2
    invalidate
  | _ => Run.fail .notAMap

/-- The items of a value that has to be a collection. -/
def itemsOf (v : Value K) : Run K (List (Value K)) :=
  match v.items? with
  | some vs => pure vs
  | none => Run.fail .wrongKind

/-- Assign the elements of a set. Only a set that the model leaves open takes elements. -/
def assignElements (symbol : String) (v : Value K) : Run K Unit := do
  match (← Run.registry).domain? symbol with
  | some (.primitive d) =>
    if !d.isExternal then Run.fail (.setHasElements symbol)
    let d ← Run.ofExcept (d.withElements (← itemsOf v))
    Run.modifyRegistry (·.putDomain (.primitive d))
    invalidate
  | _ => Run.fail (.primitiveSetNotDeclared symbol)

/-- Assign the records of a set. Records of a foreign type are found out after the assignment. -/
def assignRecords (symbol : String) (v : Value K) : Run K Unit := do
  match (← Run.registry).tupleSets.find? symbol with
  | none => Run.fail (.tupleSetNotDeclared symbol)
  | some d =>
    let records ← Run.ofExcept (d.recordsOf (← itemsOf v))
    let d := { d with records }
    Run.modifyRegistry (·.putDomain (.tuples d))
    match d.foreign? with
    | some given => Run.fail (.foreignRecord symbol d.schema.symbol given)
    | none => invalidate

/-- Assign a value to whatever a symbol names. -/
def assign (symbol : String) (v : Value K) : Run K Unit := do
  let r ← Run.registry
  if r.tupleSets.contains symbol then assignRecords symbol v
  else if (r.domain? symbol).isSome then assignElements symbol v
  else
    match r.params.find? symbol with
    | some p => if p.isIndexed then assignParameters symbol v else assignParameter symbol none v
    | none => Run.fail (.symbolNotDeclared symbol)

def assignAll (data : Table String (Value K)) : Run K Unit :=
  data.toList.forM fun e => assign e.1 e.2

end LinearModel
