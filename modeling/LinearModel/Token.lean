import LinearModel.Error

/-!
# Tokens

A statement is read as a list of tokens, the last of which marks its end. A token knows the text
it was read from and where that text starts, counted in characters.
-/
namespace LinearModel

/-- What a token is. Numbers and texts carry what they stand for. -/
inductive Lexeme (K : Type) where
  | number (n : Number K)
  | text (s : String)
  | identifier
  | operator
  | stop

structure Token (K : Type) where
  lexeme : Lexeme K
  literal : String
  position : Nat

namespace Token

variable {K : Type}

def isIdentifier (t : Token K) : Bool :=
  match t.lexeme with
  | .identifier => true
  | _ => false

def isAnyOperator (t : Token K) : Bool :=
  match t.lexeme with
  | .operator => true
  | _ => false

def isStop (t : Token K) : Bool :=
  match t.lexeme with
  | .stop => true
  | _ => false

def isOperator (t : Token K) (s : String) : Bool := t.isAnyOperator && t.literal == s

def isOneOf (t : Token K) (ss : List String) : Bool := t.isAnyOperator && ss.contains t.literal

def isWord (t : Token K) (s : String) : Bool := t.isIdentifier && t.literal == s

def opens (t : Token K) : Bool := t.isOneOf ["(", "[", "\x7b"]

def closes (t : Token K) : Bool := t.isOneOf [")", "]", "\x7d"]

end Token

end LinearModel
