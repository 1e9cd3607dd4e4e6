/-!
# Node types

Every node of a program has one of fifteen types. Their names are shown in outlines and tell
the objects of an encoded program apart.
-/

namespace AccessPolicy

/-- The type of a node of a program. -/
inductive NodeType where
  | program
  | role
  | user
  | resource
  | policy
  | and
  | or
  | comparison
  | binary
  | unary
  | access
  | identifier
  | number
  | string
  | wildcard
deriving DecidableEq, Repr

namespace NodeType

/-- The name of a type. -/
def name : NodeType → String
  | program => "Program"
  | role => "RoleDef"
  | user => "UserDef"
  | resource => "ResourceDef"
  | policy => "PolicyDef"
  | and => "And"
  | or => "Or"
  | comparison => "Comparison"
  | binary => "ArithmeticExpr"
  | unary => "UnaryExpr"
  | access => "AttributeAccess"
  | identifier => "Identifier"
  | number => "Number"
  | string => "String"
  | wildcard => "Wildcard"

/-- The type with a given name. -/
def ofName? : String → Option NodeType
  | "Program" => some program
  | "RoleDef" => some role
  | "UserDef" => some user
  | "ResourceDef" => some resource
  | "PolicyDef" => some policy
  | "And" => some and
  | "Or" => some or
  | "Comparison" => some comparison
  | "ArithmeticExpr" => some binary
  | "UnaryExpr" => some unary
  | "AttributeAccess" => some access
  | "Identifier" => some identifier
  | "Number" => some number
  | "String" => some string
  | "Wildcard" => some wildcard
  | _ => none

@[simp] theorem ofName?_name (t : NodeType) : ofName? t.name = some t := by
  cases t <;> rfl

theorem name_of_ofName? {text : String} {t : NodeType} (h : ofName? text = some t) :
    t.name = text := by
  unfold ofName? at h
  split at h <;> cases h <;> rfl

end NodeType

end AccessPolicy
