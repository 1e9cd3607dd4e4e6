import AccessPolicy.Analysis.Registry
import AccessPolicy.Analysis.SymbolTable
import AccessPolicy.Diagnostic

/-!
# Problems of meaning

What can be wrong with a program that is well formed : a name declared twice, a reference to a
name that is not declared, an attribute that is not registered, a comparison between numbers
and names, arithmetic on names. Problems are about a line as a whole.
-/

namespace AccessPolicy

/-- A fault in the meaning of a program. -/
inductive Problem where
  | duplicate (kind : NameKind) (name : String) (firstLine line : Nat)
  | undefined (kind : NameKind) (name : String) (line : Nat) (suggestion : Option String)
  | unknownNamespace (object : String) (line : Nat)
  | unknownAttribute (object attributeName : String) (line : Nat)
  | mismatch (left right : Category) (line : Nat)
  | nonNumeric (operator : String) (found : Category) (line : Nat)
deriving DecidableEq, Repr

namespace Problem

/-- The problem in words. -/
def message : Problem → String
  | duplicate kind name firstLine _ =>
    "duplicate " ++ kind.word ++ " '" ++ name ++ "' (first declared on line " ++
      firstLine.repr ++ ")"
  | undefined kind name _ suggestion =>
    "undefined " ++ kind.word ++ " '" ++ name ++ "'" ++
      ((suggestion.map fun s => " (did you mean `" ++ s ++ "`?)").getD "")
  | unknownNamespace object _ => "unknown attribute namespace '" ++ object ++ "'"
  | unknownAttribute object attributeName _ =>
    "'" ++ object ++ "' has no attribute '" ++ attributeName ++ "'"
  | mismatch left right _ => "cannot compare " ++ left.name ++ " with " ++ right.name
  | nonNumeric operator found _ =>
    "operator '" ++ operator ++ "' needs numeric operands, found " ++ found.name

/-- The line of a problem, for a name declared twice that of the second declaration. -/
def line : Problem → Nat
  | duplicate _ _ _ n | undefined _ _ n _ | unknownNamespace _ n | unknownAttribute _ _ n
  | mismatch _ _ n | nonNumeric _ _ n => n

/-- The kind of diagnostic a problem gives. -/
def kind : Problem → Diagnostic.Kind
  | duplicate _ _ _ _ => .duplicateDeclaration
  | undefined _ _ _ _ => .undefinedReference
  | unknownNamespace _ _ => .unknownNamespace
  | unknownAttribute _ _ _ => .unknownAttribute
  | mismatch _ _ _ => .typeMismatch
  | nonNumeric _ _ _ => .nonNumericOperand

/-- The problem as a diagnostic. -/
def diagnostic (p : Problem) : Diagnostic :=
  ⟨p.kind, p.message, p.line, 0⟩

end Problem

end AccessPolicy
