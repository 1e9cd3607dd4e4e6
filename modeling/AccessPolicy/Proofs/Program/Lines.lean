import AccessPolicy.Program.Basic

/-!
# Programs up to lines

Two programs are the same up to lines if they become equal when every line is put to 0.
-/

namespace AccessPolicy

/-- The literal on line 0. -/
def Literal.eraseLines : Literal → Literal
  | identifier name _ => identifier name 0
  | number value _ => number value 0
  | string value _ => string value 0
  | wildcard _ => wildcard 0

/-- The name on line 0. -/
def ActionName.eraseLines : ActionName → ActionName
  | bare name _ => bare name 0
  | quoted name _ => quoted name 0

/-- The set with every line put to 0. -/
def ActionSet.eraseLines : ActionSet → ActionSet
  | wildcard _ => wildcard 0
  | named first more => named first.eraseLines (more.map ActionName.eraseLines)

/-- The operand with every line put to 0. -/
def Expr.eraseLines : Expr → Expr
  | binary op left right _ => binary op left.eraseLines right.eraseLines 0
  | unary sign operand _ => unary sign operand.eraseLines 0
  | access a => access { a with line := 0 }
  | literal l => literal l.eraseLines

/-- The comparison with every line put to 0. -/
def Comparison.eraseLines (c : Comparison) : Comparison :=
  ⟨c.relation, c.left.eraseLines, c.right.eraseLines, 0⟩

/-- The condition with every line put to 0. -/
def Condition.eraseLines : Condition → Condition
  | and left right _ => and left.eraseLines right.eraseLines 0
  | or left right _ => or left.eraseLines right.eraseLines 0
  | comparison c => comparison c.eraseLines

/-- The declaration with every line put to 0. -/
def Declaration.eraseLines : Declaration → Declaration
  | role r => role ⟨r.name, r.actions.eraseLines, 0⟩
  | user u => user ⟨u.name, u.role, 0⟩
  | resource r => resource ⟨r.name, r.path, 0⟩
  | policy p =>
    policy ⟨p.effect, p.actions.eraseLines, p.resource, p.condition.map Condition.eraseLines, 0⟩

/-- The program with every line put to 0. -/
def Program.eraseLines (p : Program) : Program :=
  ⟨p.declarations.map Declaration.eraseLines, 0⟩

end AccessPolicy
