import LinearModel.Scalar
import LinearModel.Schema
import LinearModel.Table

/-!
# Values

Models compute with whole numbers, scalars, texts and records. Data from outside may also hold
truth values, missing values, sequences, lists and maps. All of them are values of one type,
because data is checked where it is stored, and not before.
-/
namespace LinearModel

/-- A number, exact when it is whole. -/
inductive Number (K : Type) where
  | int (i : Int)
  | real (x : K)

/-- Equality of numbers, without rounding. -/
def Number.beq {K : Type} [Scalar K] : Number K → Number K → Bool
  | .int i, .int j => i == j
  | .int i, .real y => Scalar.intEq i y
  | .real x, .int j => Scalar.intEq j x
  | .real x, .real y => Scalar.eq x y

/-- A value. A map is given by its keys and, in the same order, their values. -/
inductive Value (K : Type) where
  | null
  | bool (b : Bool)
  | int (i : Int)
  | real (x : K)
  | str (s : String)
  | record (schema : Schema) (values : List (Value K))
  | seq (items : List (Value K))
  | list (items : List (Value K))
  | map (keys : List (Value K)) (values : List (Value K))

/-- A tuple of index elements. -/
abbrev Index (K : Type) := List (Value K)

namespace Value

variable {K : Type} [Scalar K]

instance : Inhabited (Value K) := ⟨.null⟩

/-- The number that a value is. Truth values count as zero and one. -/
def number? : Value K → Option (Number K)
  | .bool b => some (.int (if b then 1 else 0))
  | .int i => some (.int i)
  | .real x => some (.real x)
  | _ => none

mutual
/-- Equality of values. Numbers are equal when their exact values are, whatever their kind.
Records are equal when their types have the same name and their fields are equal. -/
def beq : Value K → Value K → Bool
  | .null, .null => true
  | .str s, .str t => s == t
  | .record s vs, .record t ws => s.symbol == t.symbol && beqAll vs ws
  | .seq vs, .seq ws => beqAll vs ws
  | .list vs, .list ws => beqAll vs ws
  | .map ks vs, .map ls ws => beqAll ks ls && beqAll vs ws
  | v, w =>
    match v.number?, w.number? with
    | some a, some b => a.beq b
    | _, _ => false

def beqAll : List (Value K) → List (Value K) → Bool
  | [], [] => true
  | v :: vs, w :: ws => beq v w && beqAll vs ws
  | _, _ => false
end

instance : BEq (Value K) := ⟨beq⟩

mutual
/-- Whether a value may serve as a key: lists and maps may not, nor what holds one. -/
def isKey : Value K → Bool
  | .list _ => false
  | .map _ _ => false
  | .seq vs => areKeys vs
  | .record _ vs => areKeys vs
  | _ => true

def areKeys : List (Value K) → Bool
  | [] => true
  | v :: vs => isKey v && areKeys vs
end

/-- The form in which a value is used as an element: a number that is whole is a whole number. -/
def normalize : Value K → Value K
  | .bool b => .int (if b then 1 else 0)
  | .real x =>
    match Scalar.toInt? x with
    | some i => .int i
    | none => .real x
  | v => v

@[simp] theorem normalize_normalize (v : Value K) : v.normalize.normalize = v.normalize := by
  cases v with
  | real x =>
    simp only [normalize]
    cases hx : Scalar.toInt? x with
    | some i => rfl
    | none => simp only [hx]
  | _ => rfl

/-- The values that a value holds when it is run through: the items of a sequence or list, the
keys of a map, the characters of a text. Other values hold none. -/
def items? : Value K → Option (List (Value K))
  | .seq vs => some vs
  | .list vs => some vs
  | .map ks _ => some ks
  | .str s => some (s.toList.map fun c => .str (String.singleton c))
  | _ => none

/-- The entry of a map under a key. -/
def mapEntry? (key : Value K) : List (Value K) → List (Value K) → Option (Value K)
  | k :: ks, v :: vs => if k == key then some v else mapEntry? key ks vs
  | _, _ => none

/-- A list of elements without those that equal an earlier one. -/
def distinct (vs : List (Value K)) : List (Value K) :=
  (vs.foldl (fun kept v => if kept.any (· == v) then kept else v :: kept) []).reverse

/-- The value of a field of a record, given its fields and values in order. -/
def fieldIn? (field : String) : List (String × TypeName) → List (Value K) → Option (Value K)
  | f :: fs, v :: vs => if f.1 == field then some v else fieldIn? field fs vs
  | _, _ => none

end Value

end LinearModel
