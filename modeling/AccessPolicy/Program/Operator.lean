/-!
# Operators and effects

The comparison, arithmetic and sign operators of conditions, and the two effects of a
policy, each with its spelling.
-/

namespace AccessPolicy

/-- The relation that a comparison asks for. -/
inductive Relation where
  | eq
  | ne
  | lt
  | gt
  | le
  | ge
deriving DecidableEq, Repr

namespace Relation

/-- The spelling of a relation. -/
def symbol : Relation → String
  | eq => "=="
  | ne => "!="
  | lt => "<"
  | gt => ">"
  | le => "<="
  | ge => ">="

/-- The relation with a given spelling. -/
def ofSymbol? : String → Option Relation
  | "==" => some eq
  | "!=" => some ne
  | "<" => some lt
  | ">" => some gt
  | "<=" => some le
  | ">=" => some ge
  | _ => none

@[simp] theorem ofSymbol?_symbol (r : Relation) : ofSymbol? r.symbol = some r := by
  cases r <;> rfl

theorem symbol_of_ofSymbol? {text : String} {r : Relation} (h : ofSymbol? text = some r) :
    r.symbol = text := by
  unfold ofSymbol? at h
  split at h <;> cases h <;> rfl

end Relation

/-- An operation on two numbers. -/
inductive BinaryOp where
  | add
  | sub
  | mul
  | div
deriving DecidableEq, Repr

namespace BinaryOp

/-- The spelling of an operation. -/
def symbol : BinaryOp → String
  | add => "+"
  | sub => "-"
  | mul => "*"
  | div => "/"

/-- The operation with a given spelling. -/
def ofSymbol? : String → Option BinaryOp
  | "+" => some add
  | "-" => some sub
  | "*" => some mul
  | "/" => some div
  | _ => none

@[simp] theorem ofSymbol?_symbol (op : BinaryOp) : ofSymbol? op.symbol = some op := by
  cases op <;> rfl

theorem symbol_of_ofSymbol? {text : String} {op : BinaryOp} (h : ofSymbol? text = some op) :
    op.symbol = text := by
  unfold ofSymbol? at h
  split at h <;> cases h <;> rfl

end BinaryOp

/-- A sign in front of a number. -/
inductive Sign where
  | plus
  | minus
deriving DecidableEq, Repr

namespace Sign

/-- The spelling of a sign. -/
def symbol : Sign → String
  | plus => "+"
  | minus => "-"

/-- The sign with a given spelling. -/
def ofSymbol? : String → Option Sign
  | "+" => some plus
  | "-" => some minus
  | _ => none

@[simp] theorem ofSymbol?_symbol (s : Sign) : ofSymbol? s.symbol = some s := by
  cases s <;> rfl

theorem symbol_of_ofSymbol? {text : String} {s : Sign} (h : ofSymbol? text = some s) :
    s.symbol = text := by
  unfold ofSymbol? at h
  split at h <;> cases h <;> rfl

end Sign

/-- What a policy does with the actions it names. -/
inductive Effect where
  | allow
  | deny
deriving DecidableEq, Repr

namespace Effect

/-- The keyword of an effect. -/
def keyword : Effect → String
  | allow => "ALLOW"
  | deny => "DENY"

/-- The effect with a given keyword. -/
def ofKeyword? : String → Option Effect
  | "ALLOW" => some allow
  | "DENY" => some deny
  | _ => none

@[simp] theorem ofKeyword?_keyword (e : Effect) : ofKeyword? e.keyword = some e := by
  cases e <;> rfl

theorem keyword_of_ofKeyword? {text : String} {e : Effect} (h : ofKeyword? text = some e) :
    e.keyword = text := by
  unfold ofKeyword? at h
  split at h <;> cases h <;> rfl

end Effect

end AccessPolicy
