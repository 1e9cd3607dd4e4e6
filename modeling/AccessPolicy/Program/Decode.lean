import AccessPolicy.Document.Json.Reader
import AccessPolicy.Document.Yaml.Reader
import AccessPolicy.Integer
import AccessPolicy.Program.Basic
import AccessPolicy.Program.NodeType

/-!
# Programs from documents

`Program.decode` finds the program that a document encodes. A node must have the fields that
its type asks for, of the right types and with known operators; other fields are passed over,
and so is the line of the program itself, which becomes that of its first declaration.

A `DecodeError` says what is wrong with one value and where that value is : its `Path` leads
from the root down to it.
-/

namespace AccessPolicy

namespace DecodeError

/-- A step from a value to a part of it. -/
inductive Step where
  | declaration (index : Nat)
  | actions
  | action (index : Nat)
  | condition
  | left
  | right
  | operand
deriving DecidableEq, Repr

/-- The way from the root to a value. -/
abbrev Path : Type :=
  List Step

/-- A step in writing. -/
def Step.text : Step → String
  | declaration i => "declarations[" ++ i.repr ++ "]"
  | actions => ".actions"
  | action i => "[" ++ i.repr ++ "]"
  | condition => ".condition"
  | left => ".left"
  | right => ".right"
  | operand => ".operand"

/-- A path in writing. The root is the program. -/
def pathText (path : Path) : String :=
  if path = [] then "program" else String.join (path.map Step.text)

/-- What is wrong with a value. -/
inductive Cause where
  | notAnObject
  | missingField (field : String)
  | wrongType (field : String)
  | unexpectedType (found expected : String)
  | unknownOperator (operator : String)
  | invalidActions
deriving DecidableEq, Repr

/-- The fault in words. -/
def Cause.text : Cause → String
  | notAnObject => "expected an object"
  | missingField field => "missing field '" ++ field ++ "'"
  | wrongType field => "field '" ++ field ++ "' has the wrong type"
  | unexpectedType found expected =>
    "unknown node type '" ++ found ++ "' (expected " ++ expected ++ ")"
  | unknownOperator operator => "unknown operator '" ++ operator ++ "'"
  | invalidActions => "action list must be a single wildcard or a non-empty list of names"

end DecodeError

/-- A fault of a document that should encode a program. -/
structure DecodeError where
  /-- Where the faulty value is. -/
  path : DecodeError.Path
  /-- What is wrong with it. -/
  cause : DecodeError.Cause
deriving DecidableEq, Repr

/-- The error in words. -/
def DecodeError.message (e : DecodeError) : String :=
  DecodeError.pathText e.path ++ ": " ++ e.cause.text

namespace Document

theorem sizeOf_lastField?_lt {key : String} {fields : List (String × Document)} {d : Document}
    (h : lastField? key fields = some d) : sizeOf d < sizeOf fields := by
  induction fields with
  | nil => simp [lastField?] at h
  | cons f fs ih =>
    obtain ⟨k, e⟩ := f
    rw [lastField?, Option.or_eq_some_iff] at h
    simp only [List.cons.sizeOf_spec, Prod.mk.sizeOf_spec]
    rcases h with h | ⟨-, h⟩
    · have := ih h
      omega
    · split at h
      · rw [Option.some.inj h]
        omega
      · simp at h

theorem sizeOf_get?_lt {d c : Document} {key : String} (h : d.get? key = some c) :
    sizeOf c < sizeOf d := by
  unfold get? at h
  split at h
  · have := sizeOf_lastField?_lt h
    simp only [object.sizeOf_spec]
    omega
  · simp at h

/-! ## Fields of a node -/

variable (path : DecodeError.Path) (d : Document)

/-- The field of an object, which must be there. -/
def child (key : String) : Except DecodeError { c : Document // d.get? key = some c } :=
  match (d.get? key).attach with
  | some c => .ok c
  | none =>
    match d with
    | object _ => .error ⟨path, .missingField key⟩
    | _ => .error ⟨path, .notAnObject⟩

/-- A field of an object that must be a string. -/
def stringField (key : String) : Except DecodeError String := do
  match (← d.child path key).val with
  | string s => return s
  | _ => throw ⟨path, .wrongType key⟩

/-- A field of an object that must be a list. -/
def listField (key : String) : Except DecodeError (List Document) := do
  match (← d.child path key).val with
  | list items => return items
  | _ => throw ⟨path, .wrongType key⟩

/-- A field of an object that must be an integer from `low` to `high`. -/
def intField (key : String) (low high : Int) : Except DecodeError Int := do
  match (← d.child path key).val with
  | int n => if low ≤ n ∧ n ≤ high then return n else throw ⟨path, .wrongType key⟩
  | _ => throw ⟨path, .wrongType key⟩

/-- The line of a node, an unsigned integer of 64 bits. -/
def lineField : Except DecodeError Nat :=
  Int.toNat <$> d.intField path "line" 0 maxUInt64

/-- The operator of a node, which must be one that `ofSymbol?` knows. -/
def operatorField {α : Type} (ofSymbol? : String → Option α) : Except DecodeError α := do
  let symbol ← d.stringField path "operator"
  match ofSymbol? symbol with
  | some a => return a
  | none => throw ⟨path, .unknownOperator symbol⟩

end Document

/-! ## Nodes -/

/-- The literal that a value encodes. -/
def Literal.decode (path : DecodeError.Path) (d : Document) : Except DecodeError Literal := do
  let line ← d.lineField path
  let type ← d.stringField path "type"
  match NodeType.ofName? type with
  | some .identifier => return .identifier (← d.stringField path "value") line
  | some .number =>
    return .number (← d.intField path "value" (-(maxInt64 + 1)) maxInt64) line
  | some .string => return .string (← d.stringField path "value") line
  | some .wildcard => return .wildcard line
  | _ => throw ⟨path, .unexpectedType type "a literal or expression node"⟩

/-- The actions that a node encodes. -/
def ActionSet.decode (path : DecodeError.Path) (d : Document) : Except DecodeError ActionSet := do
  let items ← d.listField path "actions"
  let literals ← items.zipIdx.mapM fun (item, i) =>
    Literal.decode (path ++ [.actions, .action i]) item
  match ActionSet.ofLiterals? literals with
  | some a => return a
  | none => throw ⟨path ++ [.actions], .invalidActions⟩

/-- The operand that a value encodes. -/
def Expr.decode (path : DecodeError.Path) (d : Document) : Except DecodeError Expr := do
  let line ← d.lineField path
  let type ← d.stringField path "type"
  match NodeType.ofName? type with
  | some .binary =>
    let op ← d.operatorField path BinaryOp.ofSymbol?
    let ⟨l, _⟩ ← d.child path "left"
    let left ← Expr.decode (path ++ [.left]) l
    let ⟨r, _⟩ ← d.child path "right"
    let right ← Expr.decode (path ++ [.right]) r
    return .binary op left right line
  | some .unary =>
    let sign ← d.operatorField path Sign.ofSymbol?
    let ⟨o, _⟩ ← d.child path "operand"
    let operand ← Expr.decode (path ++ [.operand]) o
    return .unary sign operand line
  | some .access =>
    let object ← d.stringField path "object"
    let name ← d.stringField path "attribute"
    return .access ⟨object, name, line⟩
  | _ => Expr.literal <$> Literal.decode path d
termination_by sizeOf d
decreasing_by all_goals exact Document.sizeOf_get?_lt ‹_›

/-- The condition that a value encodes. -/
def Condition.decode (path : DecodeError.Path) (d : Document) :
    Except DecodeError Condition := do
  let line ← d.lineField path
  let type ← d.stringField path "type"
  match NodeType.ofName? type with
  | some .and =>
    let ⟨l, _⟩ ← d.child path "left"
    let left ← Condition.decode (path ++ [.left]) l
    let ⟨r, _⟩ ← d.child path "right"
    let right ← Condition.decode (path ++ [.right]) r
    return .and left right line
  | some .or =>
    let ⟨l, _⟩ ← d.child path "left"
    let left ← Condition.decode (path ++ [.left]) l
    let ⟨r, _⟩ ← d.child path "right"
    let right ← Condition.decode (path ++ [.right]) r
    return .or left right line
  | some .comparison =>
    let relation ← d.operatorField path Relation.ofSymbol?
    let ⟨l, _⟩ ← d.child path "left"
    let left ← Expr.decode (path ++ [.left]) l
    let ⟨r, _⟩ ← d.child path "right"
    let right ← Expr.decode (path ++ [.right]) r
    return .comparison ⟨relation, left, right, line⟩
  | _ => throw ⟨path, .unexpectedType type "And, Or or Comparison"⟩
termination_by sizeOf d
decreasing_by all_goals exact Document.sizeOf_get?_lt ‹_›

/-- The policy that a node encodes. The effect is checked after the condition. -/
def Policy.decode (path : DecodeError.Path) (d : Document) (line : Nat) :
    Except DecodeError Policy := do
  let keyword ← d.stringField path "effect"
  let ⟨c, _⟩ ← d.child path "condition"
  let condition ←
    match c with
    | .null => pure none
    | c => some <$> Condition.decode (path ++ [.condition]) c
  match Effect.ofKeyword? keyword with
  | none => throw ⟨path, .unknownOperator keyword⟩
  | some effect =>
    let actions ← ActionSet.decode path d
    let resource ← d.stringField path "resource"
    return ⟨effect, actions, resource, condition, line⟩

/-- The declaration that a value encodes. -/
def Declaration.decode (path : DecodeError.Path) (d : Document) :
    Except DecodeError Declaration := do
  let line ← d.lineField path
  let type ← d.stringField path "type"
  match NodeType.ofName? type with
  | some .role =>
    let name ← d.stringField path "name"
    let actions ← ActionSet.decode path d
    return .role ⟨name, actions, line⟩
  | some .user =>
    let name ← d.stringField path "name"
    let role ← d.stringField path "role"
    return .user ⟨name, role, line⟩
  | some .resource =>
    let name ← d.stringField path "name"
    let resourcePath ← d.stringField path "path"
    return .resource ⟨name, resourcePath, line⟩
  | some .policy => Declaration.policy <$> Policy.decode path d line
  | _ => throw ⟨path, .unexpectedType type "RoleDef, UserDef, ResourceDef or PolicyDef"⟩

namespace Program

/-- The program that a document encodes. -/
def decode (d : Document) : Except DecodeError Program := do
  let type ← d.stringField [] "type"
  match NodeType.ofName? type with
  | some .program =>
    let items ← d.listField [] "declarations"
    let declarations ← items.zipIdx.mapM fun (item, i) =>
      Declaration.decode [.declaration i] item
    return ofDeclarations declarations
  | _ => throw ⟨[], .unexpectedType type NodeType.program.name⟩

/-- A fault of a text that should hold a program : it is no document of its format, or the
document encodes no program. -/
inductive LoadError where
  | malformed
  | undecodable (e : DecodeError)
deriving DecidableEq, Repr

/-- The program of a document that may be missing. -/
def ofDocument? (d? : Option Document) : Except LoadError Program :=
  match d? with
  | none => .error .malformed
  | some d => (decode d).mapError LoadError.undecodable

/-- The program of a JSON text. -/
def ofJson (text : String) : Except LoadError Program :=
  ofDocument? (Json.read Json.maxDepth text)

/-- The program of a YAML text. -/
def ofYaml (text : String) : Except LoadError Program :=
  ofDocument? (Yaml.read text)

end Program

end AccessPolicy
