import AccessPolicy.Grammar.Reader
import AccessPolicy.Program.Basic
import AccessPolicy.Token.Word

/-!
# The grammar of conditions

From the loosest to the tightest :

* `OR`, then `AND`, both from the left;
* one comparison `== != < > <= >=` between two operands;
* sums `+ -`, then products `* /`, both from the left;
* signs `+ -` in front, as many as there are;
* a number, a string, a name, an attribute of a name, or a sum in parentheses.

Parentheses group operands only and leave no node behind.
-/

namespace AccessPolicy.Reader

/-- Read an identifier : its text and its line. -/
def identifier : Reader (String × Nat) :=
  leaf (.kind .identifier) fun t =>
    if t.kind = .identifier then some (t.value.written, t.line) else none

/-- Read an identifier spelled `name` in any mix of ASCII case. -/
def identifierNamed (name : String) : Reader Unit :=
  leaf (.named name) fun t =>
    match t.kind, t.value with
    | .identifier, .text s =>
      if Token.smallLetters s = Token.smallLetters name then some () else none
    | _, _ => none

/-- Read the name of an attribute : an identifier, or an attribute keyword in lower case. -/
def attributeName : Reader String :=
  leaf (.kind .identifier) fun t =>
    match t.kind with
    | .identifier => some t.value.written
    | .can | .path | .action => some (Token.smallLetters t.value.written)
    | _ => none

/-- Read a number. -/
def number : Reader Expr :=
  leaf (.kind .number) fun t =>
    match t.kind, t.value with
    | .number, .number n => some (.literal (.number n t.line))
    | _, _ => none

/-- Read a string : its content and its line. -/
def string : Reader (String × Nat) :=
  leaf (.kind .string) fun t =>
    if t.kind = .string then some (t.value.written, t.line) else none

/-- Read a string as an operand. -/
def stringOperand : Reader Expr := do
  let (s, line) ← string
  return .literal (.string s line)

/-- Read a name, or an attribute of a name. -/
def nameOrAttribute : Reader Expr := do
  let (name, line) ← identifier
  let attributeName? ← optional do
    let _ ← kind .dot
    attributeName
  match attributeName? with
  | some a => return .access ⟨name, a, line⟩
  | none => return .literal (.identifier name line)

/-- Read what `inner` reads, in parentheses. -/
def parenthesized {α : Type} (inner : Reader α) : Reader α := do
  let _ ← kind .lparen
  let a ← inner
  let _ ← kind .rparen
  return a

/-- Read a number, a string, a name, an attribute or something in parentheses. -/
def primary (inner : Reader Expr) : Reader Expr :=
  number.or (stringOperand.or (nameOrAttribute.or (parenthesized inner)))

/-- Read a sign and its line. -/
def sign : Reader (Sign × Nat) :=
  (leaf (.kind .plus) fun t => if t.kind = .plus then some (.plus, t.line) else none).or
    (leaf (.kind .minus) fun t => if t.kind = .minus then some (.minus, t.line) else none)

/-- Read an operand with any signs in front. -/
def signed (inner : Reader Expr) : Reader Expr := do
  let signs ← many sign
  let e ← primary inner
  return signs.foldr (fun (s, line) operand => .unary s operand line) e

/-- Read `*` or `/`. -/
def productOperator : Reader (Expr → Expr → Expr) :=
  (keyword .times (Expr.combine .mul)).or (keyword .divide (Expr.combine .div))

/-- Read `+` or `-`. -/
def sumOperator : Reader (Expr → Expr → Expr) :=
  (keyword .plus (Expr.combine .add)).or (keyword .minus (Expr.combine .sub))

/-- Read products of operands. -/
def product (inner : Reader Expr) : Reader Expr :=
  chain (signed inner) productOperator

/-- Read sums of products. -/
def sum (inner : Reader Expr) : Reader Expr :=
  chain (product inner) sumOperator

/-- Read an operand in which parentheses nest less than `depth` deep. -/
def nestedOperand : (depth : Nat) → Reader Expr
  | 0 => fun ts => .stuck ts []
  | depth + 1 => sum (nestedOperand depth)

/-- Read an operand of a comparison. -/
def operand : Reader Expr :=
  bounded nestedOperand

/-- Read the operator of a comparison. -/
def relation : Reader Relation :=
  (keyword .eq .eq).or ((keyword .ne .ne).or ((keyword .le .le).or ((keyword .ge .ge).or
    ((keyword .lt .lt).or (keyword .gt .gt)))))

/-- Read a comparison. -/
def comparison : Reader Comparison := do
  let left ← operand
  let r ← relation
  let right ← operand
  return ⟨r, left, right, left.line⟩

/-- Read comparisons joined by `AND`. -/
def conjunction : Reader Condition :=
  chain (Condition.comparison <$> comparison) (keyword .and Condition.both)

/-- Read a condition. -/
def condition : Reader Condition :=
  chain conjunction (keyword .or Condition.either)

end AccessPolicy.Reader
