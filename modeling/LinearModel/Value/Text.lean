import LinearModel.Value
import LinearModel.Text.Quoted

/-!
# Text of values

A value has two texts. Its literal is how a model would write it: whole scalars have no point and
texts are in double quotes. Its data text is how messages show it: a text stands as it is, and is
quoted only inside a sequence, list or map.
-/
namespace LinearModel

open Text (quoted)

/-- A whole number in decimal digits. -/
def intText (i : Int) : String :=
  let ds := String.ofList (Nat.toDigits 10 i.natAbs)
  if i < 0 then "-" ++ ds else ds

/-- A natural number in decimal digits. -/
def natText (n : Nat) : String := String.ofList (Nat.toDigits 10 n)

variable {K : Type} [Scalar K]

/-- The literal of a scalar: whole scalars are written as whole numbers, and infinity by its
name. -/
def Scalar.literal (x : K) : String :=
  if eq x infinity then "infinity"
  else if eq x (-infinity) then "-infinity"
  else
    match toInt? x with
    | some i => intText i
    | none => text x

namespace Value

/-- A text in double quotes, as a model writes it. -/
def quote (s : String) : String := "\"" ++ s ++ "\""

/-- Where a value is written: by itself in a message, as an element of a model, or inside another
value. -/
inductive Place where
  | message
  | model
  | inside

mutual
/-- Write a value. The fields of a record are elements, wherever the record stands. -/
def write (place : Place) : Value K → String
  | .null => "None"
  | .bool b =>
    match place with
    | .model => if b then "1" else "0"
    | _ => if b then "True" else "False"
  | .int i => intText i
  | .real x =>
    match place with
    | .model => Scalar.literal x
    | _ => Scalar.text x
  | .str s =>
    match place with
    | .message => s
    | .model => quote s
    | .inside => quoted s
  | .record s vs =>
    let name := match place with
      | .inside => s.symbol
      | _ => ""
    name ++ "<" ++ String.intercalate "," (writeAll .model vs) ++ ">"
  | .seq vs =>
    match writeAll .inside vs with
    | [t] => "(" ++ t ++ ",)"
    | ts => "(" ++ String.intercalate ", " ts ++ ")"
  | .list vs => "[" ++ String.intercalate ", " (writeAll .inside vs) ++ "]"
  | .map ks vs =>
    let entries :=
      List.zipWith (fun k v => k ++ ": " ++ v) (writeAll .inside ks) (writeAll .inside vs)
    "\x7b" ++ String.intercalate ", " entries ++ "\x7d"

def writeAll (place : Place) : List (Value K) → List String
  | [] => []
  | v :: vs => write place v :: writeAll place vs
end

/-- The data text of a value. -/
def text (v : Value K) : String := v.write .message

/-- The literal of a value as an element. -/
def literal (v : Value K) : String := v.write .model

/-- The data text of a value inside another one. -/
def shown (v : Value K) : String := v.write .inside

/-- A value as a number in a name or listing: numbers as literals, others by their data text. -/
def numberText (v : Value K) : String :=
  match v with
  | .bool _ | .int _ | .real _ => v.literal
  | _ => v.text

def indexLiteral (idx : Index K) : String :=
  String.join (idx.map fun v => "[" ++ v.literal ++ "]")

/-- Key elements between angle brackets. -/
def keyLiteral (key : Index K) : String :=
  "<" ++ String.intercalate "," (key.map literal) ++ ">"

end Value

end LinearModel
