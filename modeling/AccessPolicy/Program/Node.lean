import AccessPolicy.Program.Basic
import AccessPolicy.Program.NodeType

/-!
# Nodes of a program

A `Node` is a view of any part of a program : every part has a type, a label, a line and
children, and `Node.walk` lists a node and all below it, parents first. The walk goes
strictly down (`Node.weight_lt_of_mem_children`).

A comparison, an attribute or a literal is a node of its own. `Node.logical` and
`Node.arithmetic` are meant for conditions and operands that have parts; such a view of a
bare comparison or of a leaf has that comparison or leaf as its only child.
-/

namespace AccessPolicy

/-- A view of a part of a program. -/
inductive Node where
  | program (p : Program)
  | role (r : Role)
  | user (u : User)
  | resource (r : Resource)
  | policy (p : Policy)
  | logical (c : Condition)
  | comparison (c : Comparison)
  | arithmetic (e : Expr)
  | access (a : AttributeAccess)
  | literal (l : Literal)
deriving DecidableEq, Repr

/-- The type of a literal. -/
def Literal.type : Literal → NodeType
  | identifier _ _ => .identifier
  | number _ _ => .number
  | string _ _ => .string
  | wildcard _ => .wildcard

namespace Expr

/-- The type of an operand. -/
def type : Expr → NodeType
  | binary _ _ _ _ => .binary
  | unary _ _ _ => .unary
  | access _ => .access
  | literal l => l.type

/-- The label of an operand. -/
def label : Expr → String
  | binary op _ _ _ => op.symbol
  | unary sign _ _ => sign.symbol
  | access a => a.text
  | literal l => l.text

end Expr

namespace Condition

/-- The type of a condition. -/
def type : Condition → NodeType
  | and _ _ _ => .and
  | or _ _ _ => .or
  | comparison _ => .comparison

/-- The label of a condition. -/
def label : Condition → String
  | and _ _ _ => "AND"
  | or _ _ _ => "OR"
  | comparison c => c.relation.symbol

end Condition

namespace Node

/-- The node of a declaration. -/
def ofDeclaration : Declaration → Node
  | .role r => role r
  | .user u => user u
  | .resource r => resource r
  | .policy p => policy p

/-- The node of a condition. -/
def ofCondition : Condition → Node
  | .comparison c => comparison c
  | c => logical c

/-- The node of an operand. -/
def ofExpr : Expr → Node
  | .access a => access a
  | .literal l => literal l
  | e => arithmetic e

/-- The type of a node. -/
def type : Node → NodeType
  | program _ => .program
  | role _ => .role
  | user _ => .user
  | resource _ => .resource
  | policy _ => .policy
  | logical c => c.type
  | comparison _ => .comparison
  | arithmetic e => e.type
  | access _ => .access
  | literal l => l.type

/-- A short description of a node. -/
def label : Node → String
  | program p => p.declarations.length.repr ++ " declaration(s)"
  | role r => "ROLE " ++ r.name
  | user u => "USER " ++ u.name ++ " (role: " ++ u.role ++ ")"
  | resource r => "RESOURCE " ++ r.name ++ " (path: \"" ++ r.path ++ "\")"
  | policy p => p.effect.keyword ++ " ON " ++ p.resource
  | logical c => c.label
  | comparison c => c.relation.symbol
  | arithmetic e => e.label
  | access a => a.text
  | literal l => l.text

/-- The line of a node. -/
def line : Node → Nat
  | program p => p.line
  | role r => r.line
  | user u => u.line
  | resource r => r.line
  | policy p => p.line
  | logical c => c.line
  | comparison c => c.line
  | arithmetic e => e.line
  | access a => a.line
  | literal l => l.line

/-- The nodes right below a node, in order. -/
def children : Node → List Node
  | program p => p.declarations.map ofDeclaration
  | role r => r.actions.literals.map literal
  | user _ | resource _ | access _ | literal _ => []
  | policy p => p.actions.literals.map literal ++ (p.condition.map ofCondition).toList
  | logical (.and left right _) | logical (.or left right _) =>
    [ofCondition left, ofCondition right]
  | logical (.comparison c) => [comparison c]
  | comparison c => [ofExpr c.left, ofExpr c.right]
  | arithmetic (.binary _ left right _) => [ofExpr left, ofExpr right]
  | arithmetic (.unary _ operand _) => [ofExpr operand]
  | arithmetic (.access a) => [access a]
  | arithmetic (.literal l) => [literal l]

/-! ## Weights -/

/-- The number of nodes of an operand. -/
def exprSize : Expr → Nat
  | .binary _ left right _ => exprSize left + exprSize right + 1
  | .unary _ operand _ => exprSize operand + 1
  | _ => 1

/-- The number of nodes of a condition. -/
def conditionSize : Condition → Nat
  | .and left right _ | .or left right _ => conditionSize left + conditionSize right + 1
  | .comparison c => exprSize c.left + exprSize c.right + 1

/-- The weight of a declaration. -/
def declarationWeight : Declaration → Nat
  | .policy p => (p.condition.map conditionSize).getD 0 * 2 + 2
  | _ => 2

/-- The weight of some declarations. -/
def declarationsWeight : List Declaration → Nat
  | [] => 0
  | d :: ds => declarationWeight d + declarationsWeight ds

/-- A number that is less for each child of a node than for the node. -/
def weight : Node → Nat
  | program p => declarationsWeight p.declarations + 1
  | role r => declarationWeight (.role r)
  | user u => declarationWeight (.user u)
  | resource r => declarationWeight (.resource r)
  | policy p => declarationWeight (.policy p)
  | logical c => conditionSize c * 2
  | comparison c => (exprSize c.left + exprSize c.right) * 2 + 1
  | arithmetic e => exprSize e * 2
  | access _ | literal _ => 1

theorem weight_ofExpr_le (e : Expr) : (ofExpr e).weight ≤ exprSize e * 2 := by
  cases e <;> simp [ofExpr, weight, exprSize]

theorem weight_ofCondition_le (c : Condition) : (ofCondition c).weight ≤ conditionSize c * 2 := by
  cases c with
  | comparison c =>
    simp only [ofCondition, weight, conditionSize]
    omega
  | _ => exact Nat.le_refl _

theorem weight_ofDeclaration (d : Declaration) :
    (ofDeclaration d).weight = declarationWeight d := by
  cases d <;> rfl

theorem declarationWeight_le {ds : List Declaration} {d : Declaration} (h : d ∈ ds) :
    declarationWeight d ≤ declarationsWeight ds := by
  induction ds with
  | nil => simp at h
  | cons e es ih =>
    simp only [declarationsWeight]
    rcases List.mem_cons.mp h with rfl | h
    · omega
    · have := ih h
      omega

theorem weight_lt_of_mem_literals {ls : List Literal} {c n : Node} (h : c ∈ ls.map literal)
    (hn : 1 < n.weight) : c.weight < n.weight := by
  obtain ⟨l, -, rfl⟩ := List.mem_map.mp h
  exact hn

/-- Children weigh less than their parent. -/
theorem weight_lt_of_mem_children {n c : Node} (h : c ∈ n.children) : c.weight < n.weight := by
  unfold children at h
  split at h
  case h_1 p =>
    obtain ⟨d, hd, rfl⟩ := List.mem_map.mp h
    rw [weight_ofDeclaration]
    exact Nat.lt_succ_of_le (declarationWeight_le hd)
  case h_2 r => exact weight_lt_of_mem_literals h (by simp [weight, declarationWeight])
  case h_7 p =>
    rcases List.mem_append.mp h with h | h
    · exact weight_lt_of_mem_literals h (by simp only [weight, declarationWeight]; omega)
    · cases hp : p.condition with
      | none => simp [hp] at h
      | some d =>
        simp only [hp, Option.map_some, Option.toList_some, List.mem_singleton] at h
        subst h
        refine Nat.lt_of_le_of_lt (weight_ofCondition_le d) ?_
        simp [weight, declarationWeight, hp]
  case h_10 d =>
    rw [List.mem_singleton.mp h]
    simp only [weight, conditionSize]
    omega
  case h_8 l r _ | h_9 l r _ =>
    simp only [List.mem_cons, List.not_mem_nil, or_false] at h
    rcases h with rfl | rfl <;>
      refine Nat.lt_of_le_of_lt (weight_ofCondition_le _) ?_ <;>
        simp only [weight, conditionSize] <;> omega
  case h_11 d =>
    simp only [List.mem_cons, List.not_mem_nil, or_false] at h
    rcases h with rfl | rfl <;>
      refine Nat.lt_of_le_of_lt (weight_ofExpr_le _) ?_ <;>
        simp only [weight] <;> omega
  case h_12 l r _ =>
    simp only [List.mem_cons, List.not_mem_nil, or_false] at h
    rcases h with rfl | rfl <;>
      refine Nat.lt_of_le_of_lt (weight_ofExpr_le _) ?_ <;>
        simp only [weight, exprSize] <;> omega
  case h_13 e _ =>
    rw [List.mem_singleton.mp h]
    refine Nat.lt_of_le_of_lt (weight_ofExpr_le _) ?_
    simp only [weight, exprSize]
    omega
  case h_14 a => simp_all [weight, exprSize]
  case h_15 l => simp_all [weight, exprSize]
  all_goals simp at h

/-- A node and all nodes below it, parents first. -/
def walk (n : Node) : List Node :=
  n :: n.children.attach.flatMap fun ⟨c, _⟩ => walk c
termination_by n.weight
decreasing_by exact weight_lt_of_mem_children ‹_›

theorem walk_eq (n : Node) : n.walk = n :: n.children.flatMap walk := by
  rw [walk]
  simp [List.flatMap_subtype, List.unattach_attach]

end Node

end AccessPolicy
