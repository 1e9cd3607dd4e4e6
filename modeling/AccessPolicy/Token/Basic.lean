import AccessPolicy.Token.Kind

/-!
# Tokens

A `Token` is a kind, a value and the place of its first character. Numbers carry an
integer and everything else carries text : the name, the content of a string without its
quotes, the spelling of a keyword or symbol.
-/

namespace AccessPolicy

/-- The value of a token. -/
inductive Token.Value where
  | number (n : Int)
  | text (s : String)
deriving DecidableEq, Repr

/-- The value in writing, an integer in decimal. -/
def Token.Value.written : Token.Value → String
  | .number n => n.repr
  | .text s => s

/-- A token with the line and column where it starts. -/
structure Token where
  /-- What the token is. -/
  kind : Token.Kind
  /-- What it says. -/
  value : Token.Value
  /-- The line it starts on, from 1. -/
  line : Nat
  /-- The column it starts at, from 1. -/
  column : Nat
deriving DecidableEq, Repr

namespace Token

/-- The textual value, if it is one. -/
def text? (t : Token) : Option String :=
  match t.value with
  | .text s => some s
  | .number _ => none

/-- The integer value, if it is one. -/
def int? (t : Token) : Option Int :=
  match t.value with
  | .number n => some n
  | .text _ => none

/-- The token in angle brackets : its kind, and its value where kinds share values. -/
def display (t : Token) : String :=
  if t.kind.isLiteral then "<" ++ t.kind.name ++ ":" ++ t.value.written ++ ">"
  else "<" ++ t.kind.name ++ ">"

end Token

end AccessPolicy
