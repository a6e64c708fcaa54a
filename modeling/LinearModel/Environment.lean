import LinearModel.Value.Coercion

/-!
# Environments

An environment holds the bindings of iterators, the values of decision variables if there are any,
and the decision expressions that are being looked into. Inner bindings hide outer ones of the
same symbol. A declared body sees a fresh environment that keeps everything but the bindings.
-/
namespace LinearModel

/-- The surroundings of an expression. The innermost binding comes first, and so does the decision
expression entered first. -/
structure Env (K : Type) where
  frames : List (String × Value K) := []
  values : Table String (Value K) := Table.empty
  active : List String := []

namespace Env

variable {K : Type}

/-- The environment without bindings and without values of decision variables. -/
def empty : Env K := {}

instance : Inhabited (Env K) := ⟨empty⟩

def bind (env : Env K) (symbol : String) (v : Value K) : Env K :=
  { env with frames := (symbol, v) :: env.frames }

def get? (env : Env K) (symbol : String) : Option (Value K) :=
  (env.frames.find? (·.1 == symbol)).map (·.2)

def isBound (env : Env K) (symbol : String) : Bool := (env.get? symbol).isSome

/-- The bindings, outermost first. -/
def bindings (env : Env K) : List (String × Value K) := env.frames.reverse

def depth (env : Env K) : Nat := env.frames.length

/-- The environment of a declared body: the same without the bindings. -/
def spawn (env : Env K) : Env K := { env with frames := [] }

/-- The value that a symbol is bound to, or an error. -/
def get (env : Env K) (symbol : String) : Except (Cause K) (Value K) :=
  match env.get? symbol with
  | some v => .ok v
  | none => .error (.nameNotBound symbol)

def variableValue [Scalar K] (env : Env K) (name : String) : Except (Cause K) K :=
  match env.values.find? name with
  | some v => v.readScalar
  | none => .error (.variableWithoutValue name)

/-- Look into a decision expression. It must not be looked into already. -/
def enter (env : Env K) (symbol : String) : Except (Cause K) (Env K) :=
  if env.active.contains symbol then
    .error (.cyclicDexpr symbol (env.active.dropWhile (· != symbol) ++ [symbol]))
  else .ok { env with active := env.active ++ [symbol] }

def text [Scalar K] (env : Env K) : String :=
  "\x7b" ++ String.intercalate ", " (env.bindings.map fun b => b.1 ++ "=" ++ b.2.text) ++ "\x7d"

@[simp] theorem get?_bind_self (env : Env K) (s : String) (v : Value K) :
    (env.bind s v).get? s = some v := by
  simp [bind, get?]

theorem get?_bind_of_ne (env : Env K) {s t : String} (v : Value K) (h : s ≠ t) :
    (env.bind s v).get? t = env.get? t := by
  have hb : (s == t) = false := by simpa using h
  simp [bind, get?, hb]

@[simp] theorem get?_spawn (env : Env K) (s : String) : env.spawn.get? s = none := rfl

@[simp] theorem depth_bind (env : Env K) (s : String) (v : Value K) :
    (env.bind s v).depth = env.depth + 1 := rfl

end Env

end LinearModel
