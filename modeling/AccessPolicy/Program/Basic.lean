import AccessPolicy.Program.Literal
import AccessPolicy.Program.Operator

/-!
# Programs

A program is a list of declarations : roles and what they can do, users and their role,
resources and their path, and policies that allow or deny actions on a resource, perhaps
under a condition. Conditions are comparisons joined by `AND` and `OR`, and the operands
of a comparison are arithmetic expressions.

Every node carries a line. A declaration has the line of its keyword, and a node built
from others the line of the leftmost (`Expr.combine`, `Condition.both`,
`Condition.either`, `Program.ofDeclarations`).
-/

namespace AccessPolicy

/-- An attribute of an object, as in `time.hour`. -/
structure AttributeAccess where
  object : String
  name : String
  line : Nat
deriving DecidableEq, Repr

/-- The access in writing. -/
def AttributeAccess.text (a : AttributeAccess) : String :=
  a.object ++ "." ++ a.name

/-- An operand of a comparison. -/
inductive Expr where
  | binary (op : BinaryOp) (left right : Expr) (line : Nat)
  | unary (sign : Sign) (operand : Expr) (line : Nat)
  | access (a : AttributeAccess)
  | literal (value : Literal)
deriving DecidableEq, Repr

namespace Expr

/-- The line of an operand. -/
def line : Expr → Nat
  | binary _ _ _ n | unary _ _ n => n
  | access a => a.line
  | literal l => l.line

/-- An operation on two operands, on the line of the left one. -/
def combine (op : BinaryOp) (left right : Expr) : Expr :=
  binary op left right left.line

/-- An operand in writing, every binary operation in parentheses. -/
def text : Expr → String
  | binary op left right _ => "(" ++ left.text ++ " " ++ op.symbol ++ " " ++ right.text ++ ")"
  | unary sign operand _ => sign.symbol ++ operand.text
  | access a => a.text
  | literal l => l.text

end Expr

/-- Two operands and the relation between them. -/
structure Comparison where
  relation : Relation
  left : Expr
  right : Expr
  line : Nat
deriving DecidableEq, Repr

/-- The comparison in writing. -/
def Comparison.text (c : Comparison) : String :=
  c.left.text ++ " " ++ c.relation.symbol ++ " " ++ c.right.text

/-- The condition of a policy. -/
inductive Condition where
  | and (left right : Condition) (line : Nat)
  | or (left right : Condition) (line : Nat)
  | comparison (c : Comparison)
deriving DecidableEq, Repr

namespace Condition

/-- The line of a condition. -/
def line : Condition → Nat
  | and _ _ n | or _ _ n => n
  | comparison c => c.line

/-- Both conditions, on the line of the left one. -/
def both (left right : Condition) : Condition :=
  and left right left.line

/-- One of two conditions, on the line of the left one. -/
def either (left right : Condition) : Condition :=
  or left right left.line

/-- A condition in writing, every `AND` and `OR` in parentheses. -/
def text : Condition → String
  | and left right _ => "(" ++ left.text ++ " AND " ++ right.text ++ ")"
  | or left right _ => "(" ++ left.text ++ " OR " ++ right.text ++ ")"
  | comparison c => c.text

end Condition

/-- A role and the actions it can take. -/
structure Role where
  name : String
  actions : ActionSet
  line : Nat
deriving DecidableEq, Repr

/-- A user and the name of their role. -/
structure User where
  name : String
  role : String
  line : Nat
deriving DecidableEq, Repr

/-- A resource and where it is. -/
structure Resource where
  name : String
  path : String
  line : Nat
deriving DecidableEq, Repr

/-- A rule on the actions on a resource. -/
structure Policy where
  effect : Effect
  actions : ActionSet
  resource : String
  condition : Option Condition
  line : Nat
deriving DecidableEq, Repr

/-- A declaration of a program. -/
inductive Declaration where
  | role (r : Role)
  | user (u : User)
  | resource (r : Resource)
  | policy (p : Policy)
deriving DecidableEq, Repr

/-- The line of a declaration. -/
def Declaration.line : Declaration → Nat
  | role r => r.line
  | user u => u.line
  | resource r => r.line
  | policy p => p.line

/-- A list of declarations. -/
structure Program where
  declarations : List Declaration
  line : Nat
deriving DecidableEq, Repr

namespace Program

/-- The program of some declarations, on the line of the first, or on line 0 if there are none. -/
def ofDeclarations (ds : List Declaration) : Program where
  declarations := ds
  line := (ds.head?.map Declaration.line).getD 0

@[simp] theorem declarations_ofDeclarations (ds : List Declaration) :
    (ofDeclarations ds).declarations = ds :=
  rfl

/-- Whether there are no declarations. -/
def isEmpty (p : Program) : Bool :=
  p.declarations.isEmpty

/-- The roles, in order. -/
def roles (p : Program) : List Role :=
  p.declarations.filterMap fun
    | .role r => some r
    | _ => none

/-- The users, in order. -/
def users (p : Program) : List User :=
  p.declarations.filterMap fun
    | .user u => some u
    | _ => none

/-- The resources, in order. -/
def resources (p : Program) : List Resource :=
  p.declarations.filterMap fun
    | .resource r => some r
    | _ => none

/-- The policies, in order. -/
def policies (p : Program) : List Policy :=
  p.declarations.filterMap fun
    | .policy p => some p
    | _ => none

end Program

end AccessPolicy
