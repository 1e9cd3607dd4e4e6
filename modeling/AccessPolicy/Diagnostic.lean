import AccessPolicy.Text.Lines

/-!
# Diagnostics

Every stage reports its findings as a `Diagnostic` : a kind, a message and a position.
Column 0 stands for a finding about a whole line. `Diagnostic.text` is the one-line form
and `Diagnostic.render` shows the source line under it, with a caret below the column.
-/

namespace AccessPolicy

/-- What a diagnostic is about, from the characters of a text up to its meaning. -/
inductive Diagnostic.Kind where
  | illegalCharacter
  | unterminatedString
  | invalidNumber
  | syntaxError
  | duplicateDeclaration
  | undefinedReference
  | unknownNamespace
  | unknownAttribute
  | typeMismatch
  | nonNumericOperand
deriving DecidableEq, Repr

namespace Diagnostic.Kind

/-- The tag shown for a kind. -/
def name : Kind → String
  | illegalCharacter => "IllegalCharacter"
  | unterminatedString => "UnterminatedString"
  | invalidNumber => "InvalidNumber"
  | syntaxError => "SyntaxError"
  | duplicateDeclaration => "DuplicateDeclaration"
  | undefinedReference => "UndefinedReference"
  | unknownNamespace => "UnknownNamespace"
  | unknownAttribute => "UnknownAttribute"
  | typeMismatch => "TypeMismatch"
  | nonNumericOperand => "NonNumericOperand"

/-- Every kind, in stage order. -/
def all : List Kind :=
  [illegalCharacter, unterminatedString, invalidNumber, syntaxError, duplicateDeclaration,
    undefinedReference, unknownNamespace, unknownAttribute, typeMismatch, nonNumericOperand]

/-- The kind with a given tag. -/
def ofName? (s : String) : Option Kind :=
  all.find? fun k => k.name = s

/-- The kinds that cutting a text into tokens can report. -/
def isLexical : Kind → Bool
  | illegalCharacter | unterminatedString | invalidNumber => true
  | _ => false

end Diagnostic.Kind

/-- A finding about a text. -/
structure Diagnostic where
  /-- What it is about. -/
  kind : Diagnostic.Kind
  /-- The finding in words. -/
  message : String
  /-- The line it is on, from 1. -/
  line : Nat
  /-- The column it is at, from 1, or 0 for the whole line. -/
  column : Nat
deriving DecidableEq, Repr

namespace Diagnostic

/-- The one-line form `line:column: error[Kind]: message`. -/
def text (d : Diagnostic) : String :=
  d.line.repr ++ ":" ++ d.column.repr ++ ": error[" ++ d.kind.name ++ "]: " ++ d.message

/-- The source line a diagnostic is on. Line 0 counts as line 1, and a line the source
does not have is empty. -/
def sourceLine (d : Diagnostic) (source : String) : List Char :=
  (textLines source.toList)[d.line - 1]?.getD []

/-- The one-line form over the source line, with a caret under the column if there is
one. -/
def render (d : Diagnostic) (source : String) : String :=
  let shown := d.text ++ "\n  " ++ String.ofList (d.sourceLine source)
  if d.column = 0 then shown
  else shown ++ "\n  " ++ String.ofList (List.replicate (d.column - 1) ' ') ++ "^"

end Diagnostic

end AccessPolicy
