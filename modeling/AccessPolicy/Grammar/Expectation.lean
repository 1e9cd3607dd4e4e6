import AccessPolicy.Token.Kind

/-!
# Expectations

What a reader could have accepted where it got stuck : a kind of token, an identifier with
a fixed name, or the end of the declaration. Expectations are listed in that order, kinds
in the order of `Token.Kind.all` and names by their characters.
-/

namespace AccessPolicy

/-- One thing that could have come next. -/
inductive Expectation where
  | kind (k : Token.Kind)
  | named (name : String)
  | endOfDeclaration
deriving DecidableEq, Repr

namespace Expectation

/-- The expectation in words. -/
def text : Expectation → String
  | kind k => k.name
  | named name => "'" ++ name ++ "'"
  | endOfDeclaration => "end of declaration"

/-- Whether one expectation may be listed before another. -/
def le : Expectation → Expectation → Bool
  | kind j, kind k => j.rank ≤ k.rank
  | kind _, _ => true
  | named _, kind _ => false
  | named s, named t => s ≤ t
  | named _, endOfDeclaration => true
  | endOfDeclaration, endOfDeclaration => true
  | endOfDeclaration, _ => false

/-- Expectations in order. -/
def sort (es : List Expectation) : List Expectation :=
  es.mergeSort le

/-- Expectations in order, each once. -/
def collect (es : List Expectation) : List Expectation :=
  sort es.eraseDups

/-- A list in words : commas, with `or` before the last. -/
def listText (es : List Expectation) : String :=
  match es.map text with
  | [] => "nothing"
  | [only] => only
  | first :: second :: more =>
    ", ".intercalate ((first :: second :: more).dropLast) ++ " or " ++
      ((second :: more).getLast (List.cons_ne_nil _ _))

end Expectation

end AccessPolicy
