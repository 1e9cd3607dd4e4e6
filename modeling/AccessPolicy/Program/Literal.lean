/-!
# Literals and action sets

A `Literal` is a name, a number, a string or the wildcard. The actions of a role or a
policy are the wildcard alone or one or more names, and an `ActionSet` is exactly that :
the type has no empty set, no wildcard among names and no numbers. `ActionSet.ofLiterals?`
finds the set that a list of literals stands for, and `ActionSet.literals` writes it back
(`ActionSet.ofLiterals?_literals`).
-/

namespace AccessPolicy

/-- A leaf of a program, with the line it is on. -/
inductive Literal where
  | identifier (name : String) (line : Nat)
  | number (value : Int) (line : Nat)
  | string (value : String) (line : Nat)
  | wildcard (line : Nat)
deriving DecidableEq, Repr

namespace Literal

/-- The line a literal is on. -/
def line : Literal → Nat
  | identifier _ n | number _ n | string _ n | wildcard n => n

/-- The literal in writing, a string between quotes. -/
def text : Literal → String
  | identifier name _ => name
  | number value _ => value.repr
  | string value _ => "\"" ++ value ++ "\""
  | wildcard _ => "*"

end Literal

/-- The name of an action : a bare identifier or a quoted string. -/
inductive ActionName where
  | bare (name : String) (line : Nat)
  | quoted (name : String) (line : Nat)
deriving DecidableEq, Repr

namespace ActionName

/-- The name itself. -/
def name : ActionName → String
  | bare s _ | quoted s _ => s

/-- The literal that writes the name. -/
def literal : ActionName → Literal
  | bare s n => .identifier s n
  | quoted s n => .string s n

/-- The name that a literal writes. -/
def ofLiteral? : Literal → Option ActionName
  | .identifier s n => some (bare s n)
  | .string s n => some (quoted s n)
  | _ => none

@[simp] theorem ofLiteral?_literal (a : ActionName) : ofLiteral? a.literal = some a := by
  cases a <;> rfl

end ActionName

/-- The actions of a role or a policy. -/
inductive ActionSet where
  | wildcard (line : Nat)
  | named (first : ActionName) (more : List ActionName)
deriving DecidableEq, Repr

namespace ActionSet

/-- The set of one or more names, if the literals are that. -/
def ofNames? (items : List Literal) : Option ActionSet :=
  match items.mapM ActionName.ofLiteral? with
  | some (first :: more) => some (named first more)
  | _ => none

/-- The set that literals stand for, if any. -/
def ofLiterals? : List Literal → Option ActionSet
  | [.wildcard line] => some (wildcard line)
  | items => ofNames? items

/-- The literals of a set. -/
def literals : ActionSet → List Literal
  | wildcard line => [.wildcard line]
  | named first more => first.literal :: more.map ActionName.literal

/-- The names in a set, the wildcard as `*`. -/
def names : ActionSet → List String
  | wildcard _ => ["*"]
  | named first more => first.name :: more.map ActionName.name

/-- Whether the set is the wildcard. -/
def isWildcard : ActionSet → Bool
  | wildcard _ => true
  | named _ _ => false

/-- The set in writing. -/
def text (a : ActionSet) : String :=
  ", ".intercalate (a.literals.map Literal.text)

theorem mapM_ofLiteral?_literal (names : List ActionName) :
    (names.map ActionName.literal).mapM ActionName.ofLiteral? = some names := by
  induction names with
  | nil => rfl
  | cons a as ih => simp [ih]

theorem ofNames?_literals (first : ActionName) (more : List ActionName) :
    ofNames? (first.literal :: more.map ActionName.literal) = some (named first more) := by
  have h := mapM_ofLiteral?_literal (first :: more)
  rw [List.map_cons] at h
  rw [ofNames?, h]

@[simp] theorem ofLiterals?_literals (a : ActionSet) : ofLiterals? a.literals = some a := by
  cases a with
  | wildcard line => rfl
  | named first more =>
    rw [literals, ofLiterals?]
    · exact ofNames?_literals first more
    · intro line h
      cases first <;> simp [ActionName.literal] at h

end ActionSet

end AccessPolicy
