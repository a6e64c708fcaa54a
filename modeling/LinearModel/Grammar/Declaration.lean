import LinearModel.Grammar.Model

/-!
# Grammar of declarations

Ranges, record types, sets, parameters, decision variables and decision expressions are declared
by statements of their own. The elements of a set and the values of a parameter that are written
in the model are evaluated as they are read, against what has been declared before.
-/
namespace LinearModel

open LinearModel.Parser

/-- A step that reads something at a cursor and may evaluate it. -/
abbrev Reading (K : Type) := StateT (Cursor K) (Run K)

variable {K : Type} [Scalar K] {α : Type}

namespace Reading

/-- A step that evaluates nothing. -/
def ofParser (p : Parser K α) : Reading K α := fun c => Run.ofExcept (p c)

/-- A computation that reads nothing. -/
def ofRun (x : Run K α) : Reading K α := fun c => do return (← x, c)

def fail (c : Cause K) : Reading K α := ofRun (Run.fail c)

/-- Items up to a closing token. The opening token is at hand. The list may be empty, and its last
item may be followed by a comma. -/
def enclosed (closing : String) (item : Reading K α) (size : Nat) : Reading K (List α) := do
  ofParser advance
  let items ← loop size
  ofParser (expect closing)
  return items
where
  /-- The items up to the closing token, at most `n` of them. -/
  loop : Nat → Reading K (List α)
    | 0 => fail .endless
    | n + 1 => do
      if (← ofParser here).isOperator closing then return []
      else
        let a ← item
        if ← ofParser (accept ",") then return a :: (← loop n) else return [a]

/-- The value of an expression that stands for an element or a value. -/
def evaluated (e : Expr K) : Reading K (Value K) :=
  ofRun do return (← e.evaluateValue Env.empty).normalize

def evaluatedAll (es : List (Expr K)) : Reading K (List (Value K)) := es.mapM evaluated

end Reading

open LinearModel.Reading

/-- Whether a type is one that elements and fields may have without a declaration. -/
def isElementType (type : String) : Bool := ["int", "float", "string"].contains type

/-- Whether a type is one that decision variables may have. -/
def isVariableType (type : String) : Bool := ["int", "float", "boolean"].contains type

/-- The whole number that an expression is written as. -/
def Expr.wholeNumber? : Expr K → Option Int
  | .num x => Scalar.toInt? x
  | _ => none

/-- The range with given bounds: its bounds are fixed if both are written as whole numbers. -/
def rangeDomain (symbol : String) (first last : Expr K) : Domain K :=
  match first.wholeNumber?, last.wholeNumber? with
  | some a, some b => .index { symbol, first := a, last := b }
  | _, _ => .range { symbol, first, last }

namespace Grammar

/-! ## Ranges and record types -/

def rangeDeclaration (g : Grammar K) : Parser K (Entity K) := do
  advance
  let symbol ← identifier
  expect "="
  let (first, last) ← g.range
  return .domain (rangeDomain symbol first last)

/-- A field of a record type, and whether it identifies records. -/
structure FieldItem where
  name : String
  type : TypeName
  isKey : Bool

/-- The fields of a record type, up to a closing brace. -/
def fieldItems (r : Registry K) (schema : String) : Nat → Parser K (List FieldItem)
  | 0 => Parser.fail .endless
  | n + 1 => do
    if (← here).isOperator "\x7d" then
      advance
      return []
    else
      let isKey ← if (← here).isWord "key" then do
          advance
          pure true
        else pure false
      let type ← identifier
      if !isElementType type && !r.schemas.contains type then
        Parser.fail (.unsupportedFieldType type schema)
      let name ← identifier
      expect ";"
      return { name, type := .ofName type, isKey } :: (← fieldItems r schema n)

def schemaDeclaration (g : Grammar K) (r : Registry K) : Parser K (Entity K) := do
  advance
  let symbol ← identifier
  expect "\x7b"
  let items ← fieldItems r symbol g.size
  let fields := items.map fun i => (i.name, i.type)
  let keys := (items.filter (·.isKey)).map (·.name)
  return .schema (← Parser.ofExcept (Schema.make symbol fields keys))

/-! ## Sets -/

/-- Whether tokens that start with an opening brace hold a bar directly inside it. -/
def holdsBar (depth : Int) : List (Token K) → Bool
  | [] => false
  | t :: ts =>
    if t.opens then holdsBar (depth + 1) ts
    else if t.closes then if depth = 1 then false else holdsBar (depth - 1) ts
    else if t.isOperator "|" && depth = 1 then true
    else holdsBar depth ts

/-- The tokens from an operator outside brackets on. -/
def seek? (symbol : String) (depth : Int) : List (Token K) → Option (Token K × List (Token K))
  | [] => none
  | t :: ts =>
    if t.isStop then none
    else if t.opens then seek? symbol (depth + 1) ts
    else if t.closes then seek? symbol (depth - 1) ts
    else if depth = 0 && t.isOperator symbol then some (t, ts)
    else seek? symbol depth ts

/-- Move on to an operator outside brackets. -/
def skipTo (symbol : String) : Parser K Unit := do
  let c ← get
  match seek? symbol 0 (c.here :: c.rest) with
  | some (t, ts) => set { c with here := t, rest := ts }
  | none => Parser.fail (.endBefore symbol)

/-- A comprehension. Its output comes first, but is read after the iterators that it refers to. -/
def comprehension (g : Grammar K) (r : Registry K) (symbol : String) (outer : Option (Iter K)) :
    Parser K (ComputedSet K) := do
  advance
  let start ← get
  skipTo "|"
  advance
  let (its, condition) ← g.iterators r
  require "\x7d"
  let stop ← get
  -- back to the output, with the iterators in scope
  set { stop with here := start.here, rest := start.rest }
  let output ← g.expression
  require "|"
  set stop.next
  closeScope
  let isFirst := match output, its with
    | .name s, it :: _ => s == it.symbol
    | _, _ => false
  return { symbol, iterators := its, condition, output := if isFirst then none else some output,
           outer }

/-- The outer index of a family of sets, if there is one. It stays in scope. -/
def outerIterator (g : Grammar K) (r : Registry K) (symbol : String) :
    Parser K (Option (Iter K)) := do
  if ← opensIterators then
    advance
    match ← g.iterators r with
    | ([it], _) =>
      expect "]"
      return some it
    | _ => Parser.fail (.severalSetIndices symbol)
  else
    openScope []
    return none

def setElements (g : Grammar K) : Reading K (List (Value K)) :=
  enclosed "\x7d" (do evaluated (← ofParser g.arithmetic)) g.size

def setRecords (g : Grammar K) (s : Schema) : Reading K (List (Value K)) :=
  enclosed "\x7d" (do
    let values ← evaluatedAll (← ofParser g.tupleItems)
    ofRun (Run.ofExcept ((Value.list values).toRecord s))) g.size

/-- What a set is declared to hold. -/
def setBody (g : Grammar K) (r : Registry K) (symbol type : String) (outer : Option (Iter K)) :
    Reading K (Domain K) := do
  let c ← get
  let schema := r.schemas.find? type
  if c.here.isOperator "..." then
    ofParser advance
    match schema with
    | some s => return .tuples { symbol, schema := s, isExternal := true }
    | none => return .primitive { symbol, type := .ofName type, isExternal := true }
  else if c.here.isOperator "\x7b" then
    if holdsBar 0 (c.here :: c.rest) then
      return .computed (← ofParser (g.comprehension r symbol outer))
    else
      match schema with
      | some s =>
        return .tuples { symbol, schema := s, records := Value.distinct (← g.setRecords s) }
      | none =>
        let d : PrimitiveSet K := { symbol, type := .ofName type }
        let elements ← g.setElements
        return .primitive (← ofRun (Run.ofExcept (d.withElements elements)))
  else
    let (first, last) ← ofParser g.range
    return rangeDomain symbol first last

def isComputed : Domain K → Bool
  | .computed _ => true
  | _ => false

def setDeclaration (g : Grammar K) (r : Registry K) : Reading K (Entity K) := do
  ofParser advance
  let type ← ofParser identifier
  if !r.schemas.contains type && !isElementType type then
    Reading.fail (.undeclaredElementType type)
  ofParser (expect "\x7d")
  let symbol ← ofParser identifier
  let outer ← ofParser (g.outerIterator r symbol)
  ofParser (expect "=")
  let domain ← g.setBody r symbol type outer
  ofParser closeScope
  -- only a comprehension can depend on an outer index
  if outer.isSome && !isComputed domain then Reading.fail (.indexedSetNotComputed symbol)
  return .domain domain

/-! ## Parameters -/

/-- An index of a parameter: the symbol it is named by, if any, and its domain. -/
def dimension : Parser K (Option String × String) := do
  if (← ahead 1).isWord "in" then
    let symbol ← identifier
    advance
    return (some symbol, ← identifier)
  else return (none, ← identifier)

/-- An array in brackets or braces, nested up to `n` deep. -/
def array (g : Grammar K) : Nat → Reading K (Value K)
  | 0 => Reading.fail .endless
  | n + 1 => do
    let closing := if (← ofParser here).isOperator "[" then "]" else "\x7d"
    let items ← enclosed closing (do
      if (← ofParser here).isOneOf ["[", "\x7b"] then array g n
      else evaluated (← ofParser g.arithmetic)) g.size
    return .list items

end Grammar

/-- A parameter with the values of an array, which has a level for each index domain. Each level
has an item for each element of its domain. -/
def Parameter.withArray (p : Parameter K) :
    List (String × List (Value K)) → Index K → Value K → Except (Cause K) (Parameter K)
  | [], idx, v =>
    match v with
    | .list _ => .error (.arrayTooDeep p.symbol)
    | v => p.setAt idx v
  | (domain, elements) :: rest, idx, v =>
    match v with
    | .list items =>
      if items.length ≠ elements.length then
        .error (.arrayLength p.symbol elements.length domain)
      else
        (elements.zip items).foldlM (fun q e => q.withArray rest (idx ++ [e.1]) e.2) p
    | _ => .error (.arrayLength p.symbol elements.length domain)

namespace Grammar

/-- The values of an indexed parameter, written as an array. -/
def arrayValues (g : Grammar K) (p : Parameter K) (isNamed : Bool) : Reading K (Parameter K) := do
  if isNamed then Reading.fail (.namedIndicesWithArray p.symbol)
  let values ← g.array g.size
  ofRun do
    let domains ← p.domains.mapM fun s => do return (s, ← resolveDomain s Env.empty none)
    Run.ofExcept (p.withArray domains [] values)

/-- The expression that defines a parameter. A scalar parameter that is defined by a literal holds
its value. -/
def definition (g : Grammar K) (p : Parameter K) (dims : List (Option String × String)) :
    Reading K (Parameter K) := do
  let symbols := dims.filterMap (·.1)
  if symbols.length ≠ dims.length then Reading.fail (.unnamedIndices p.symbol)
  let e ← ofParser do
    openScope symbols
    let e ← g.expression
    closeScope
    return e
  if dims.isEmpty then
    let e ← ofRun (Run.ofExcept (e.simplify none))
    match e with
    | .num _ | .str _ => ofRun (Run.ofExcept (p.set e.literalValue))
    | e => return { p with definition := some e }
  else
    let iterators := (symbols.zip p.domains).map fun d => Iter.mk d.1 (.named d.2 none) none
    return { p with definition := some e, iterators }

def parameterDeclaration (g : Grammar K) : Reading K (Entity K) := do
  let type ← ofParser identifier
  -- a sign at the type is read and has no effect
  let _ ← ofParser (accept "+")
  let symbol ← ofParser identifier
  let dims ← ofParser (bracketGroups g.size dimension g.size)
  let p : Parameter K := { symbol, type := .ofName type, domains := dims.map (·.2) }
  if !(← ofParser (accept "=")) then return .parameter { p with isExternal := true }
  else if ← ofParser (accept "...") then return .parameter { p with isExternal := true }
  else if (← ofParser here).isOneOf ["[", "\x7b"] && !dims.isEmpty then
    return .parameter (← g.arrayValues p (dims.any (·.1.isSome)))
  else return .parameter (← g.definition p dims)

/-- A parameter that holds a record. -/
def recordDeclaration (g : Grammar K) (s : Schema) : Reading K (Entity K) := do
  ofParser advance
  let symbol ← ofParser identifier
  -- a record type that is called like a scalar type is taken for the scalar type
  let p : Parameter K := { symbol, type := .ofName s.symbol, schema := some s }
  if !(← ofParser (accept "=")) then return .parameter { p with isExternal := true }
  else if ← ofParser (accept "...") then return .parameter { p with isExternal := true }
  else if (← ofParser here).isOperator "<" then
    let values ← evaluatedAll (← ofParser g.tupleItems)
    ofRun do
      let v ← Run.ofExcept ((Value.list values).toRecord s)
      return .parameter (← Run.ofExcept (p.set v))
  else return .parameter { p with definition := some (← ofParser g.expression) }

/-! ## Decision variables and decision expressions -/

def variableDeclaration (g : Grammar K) : Parser K (Entity K) := do
  advance
  let type ← identifier
  if !isVariableType type then Parser.fail (.unsupportedVariableType type)
  let isNonNegative ← accept "+"
  let symbol ← identifier
  let domains ← bracketGroups g.size identifier g.size
  let sign : Option (Expr K) := if isNonNegative then some Expr.zero else none
  let (lower, upper) ← if ← accept "in" then do
      let lower ← g.arithmetic
      expect ".."
      let upper ← g.arithmetic
      pure (some lower, some upper)
    else pure (sign, none)
  let v ← Parser.ofExcept (Variable.make symbol (.ofName type) domains lower upper)
  return .decisionVariable v

def dexprDeclaration (g : Grammar K) : Parser K (Entity K) := do
  advance
  let type ← identifier
  let _ ← accept "+"
  let symbol ← identifier
  let index ← if ← accept "[" then do
      let index ← identifier
      expect "in"
      let domain ← identifier
      expect "]"
      pure (some (index, domain))
    else pure none
  expect "="
  openScope (index.map (·.1)).toList
  let body ← g.expression
  closeScope
  return .dexpr { symbol, type, body, index := index.map (·.1), domain := index.map (·.2) }

end Grammar

end LinearModel
