import LinearModel.Registry

/-!
# Computations

Evaluating a model fills the registry with computed bounds, members and parameter values, and may
issue warnings. A computation that fails keeps what it changed until then, so the state is carried
through errors.
-/
namespace LinearModel

/-- A registry, and the warnings issued so far. -/
structure Store (K : Type) where
  registry : Registry K := {}
  warnings : List String := []

/-- A computation on a store. The store survives a failure. -/
abbrev Run (K : Type) := ExceptT (Failure K) (StateM (Store K))

namespace Run

variable {K : Type} {α : Type}

def fail (c : Cause K) : Run K α := throw { cause := c }

/-- A computation that does not touch the store. -/
def ofExcept : Except (Cause K) α → Run K α
  | .ok a => pure a
  | .error c => fail c

def registry : Run K (Registry K) := return (← get).registry

def modifyRegistry (f : Registry K → Registry K) : Run K Unit :=
  modify fun s => { s with registry := f s.registry }

def warn (w : String) : Run K Unit :=
  modify fun s => { s with warnings := s.warnings ++ [w] }

/-- Note the context of a failure. -/
def mapFailure (f : Failure K → Failure K) (x : Run K α) : Run K α :=
  tryCatch x fun e => throw (f e)

/-- The answer of a computation, and the store it leaves. -/
def start (x : Run K α) (s : Store K) : Except (Failure K) α × Store K :=
  StateT.run (ExceptT.run x) s

end Run

end LinearModel
