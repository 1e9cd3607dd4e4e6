import AccessPolicy.Document.Json.Writer
import AccessPolicy.Document.Yaml.Writer
import AccessPolicy.Program.Node

/-!
# Programs as documents

Every node of a program becomes an object with its `type`, its `line` and a field for each of
its parts, in the order of the keys. Lists of nodes become lists of objects, and a missing
condition becomes null.
-/

namespace AccessPolicy

/-- The object of a literal. -/
def Literal.encode : Literal → Document
  | identifier name line =>
    .object [("line", .int line), ("type", .string NodeType.identifier.name),
      ("value", .string name)]
  | number value line =>
    .object [("line", .int line), ("type", .string NodeType.number.name), ("value", .int value)]
  | string value line =>
    .object [("line", .int line), ("type", .string NodeType.string.name),
      ("value", .string value)]
  | wildcard line =>
    .object [("line", .int line), ("type", .string NodeType.wildcard.name)]

/-- The list of the literals of a set. -/
def ActionSet.encode (a : ActionSet) : Document :=
  .list (a.literals.map Literal.encode)

/-- The object of an operand. -/
def Expr.encode : Expr → Document
  | binary op left right line =>
    .object [("left", left.encode), ("line", .int line), ("operator", .string op.symbol),
      ("right", right.encode), ("type", .string NodeType.binary.name)]
  | unary sign operand line =>
    .object [("line", .int line), ("operand", operand.encode), ("operator", .string sign.symbol),
      ("type", .string NodeType.unary.name)]
  | access a =>
    .object [("attribute", .string a.name), ("line", .int a.line), ("object", .string a.object),
      ("type", .string NodeType.access.name)]
  | literal l => l.encode

/-- The object of a comparison. -/
def Comparison.encode (c : Comparison) : Document :=
  .object [("left", c.left.encode), ("line", .int c.line),
    ("operator", .string c.relation.symbol), ("right", c.right.encode),
    ("type", .string NodeType.comparison.name)]

/-- The object of a condition. -/
def Condition.encode : Condition → Document
  | and left right line =>
    .object [("left", left.encode), ("line", .int line), ("right", right.encode),
      ("type", .string NodeType.and.name)]
  | or left right line =>
    .object [("left", left.encode), ("line", .int line), ("right", right.encode),
      ("type", .string NodeType.or.name)]
  | comparison c => c.encode

/-- The object of a declaration. -/
def Declaration.encode : Declaration → Document
  | role r =>
    .object [("actions", r.actions.encode), ("line", .int r.line), ("name", .string r.name),
      ("type", .string NodeType.role.name)]
  | user u =>
    .object [("line", .int u.line), ("name", .string u.name), ("role", .string u.role),
      ("type", .string NodeType.user.name)]
  | resource r =>
    .object [("line", .int r.line), ("name", .string r.name), ("path", .string r.path),
      ("type", .string NodeType.resource.name)]
  | policy p =>
    .object [("actions", p.actions.encode),
      ("condition", (p.condition.map Condition.encode).getD .null),
      ("effect", .string p.effect.keyword), ("line", .int p.line),
      ("resource", .string p.resource), ("type", .string NodeType.policy.name)]

namespace Program

/-- The object of a program. -/
def encode (p : Program) : Document :=
  .object [("declarations", .list (p.declarations.map Declaration.encode)),
    ("line", .int p.line), ("type", .string NodeType.program.name)]

/-- A program as JSON text. -/
def toJson (p : Program) : String :=
  Json.pretty p.encode

/-- A program as YAML text. -/
def toYaml (p : Program) : String :=
  Yaml.write p.encode

end Program

end AccessPolicy
