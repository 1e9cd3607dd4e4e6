import AccessPolicy.Program.Basic
import AccessPolicy.Proofs.Grammar.Phrase

/-!
# The grammar

The rules of the language, one constructor for each way to say a phrase. Operators that
associate to the left are rules that are recursive on the left, and the levels of an operand
(`Level`) say what binds tighter. Nothing here looks ahead, cuts the tokens into pieces or
chooses between rules : a list of tokens derives every program for which there is a
derivation (`Program.Derives`).

The keywords that open declarations are told apart from all other leaves at the end
(`Grammar.exists_opening_of_declared`).
-/

namespace AccessPolicy

/-! ## Operators -/

/-- The token that writes an operation on two operands. -/
def BinaryOp.kind : BinaryOp → Token.Kind
  | add => .plus
  | sub => .minus
  | mul => .times
  | div => .divide

/-- The token that writes a sign. -/
def Sign.kind : Sign → Token.Kind
  | plus => .plus
  | minus => .minus

/-- The token that writes a relation. -/
def Relation.kind : Relation → Token.Kind
  | eq => .eq
  | ne => .ne
  | lt => .lt
  | gt => .gt
  | le => .le
  | ge => .ge

/-- The token that opens a policy. -/
def Effect.kind : Effect → Token.Kind
  | allow => .allow
  | deny => .deny

namespace Leaf.Match

variable {l : Leaf}

/-- The value of the token in writing. -/
def written (m : l.Match) : String :=
  m.token.value.written

/-- The line of the token. -/
def line (m : l.Match) : Nat :=
  m.token.line

/-- The name of an attribute : a keyword is read in lower case. -/
def attributeText (m : l.Match) : String :=
  if m.token.kind = .identifier then m.written else Token.smallLetters m.written

end Leaf.Match

namespace Grammar

/-! ## Operands -/

/-- How tight an operand binds, from the tightest. -/
inductive Level where
  | primary
  | signed
  | product
  | sum
deriving DecidableEq

/-- The operations that are read at a level. -/
def Level.operators : Level → List BinaryOp
  | product => [.mul, .div]
  | sum => [.add, .sub]
  | _ => []

/-- Operands : numbers, strings, names, attributes and sums in parentheses, with any signs in
front, then products, then sums. Parentheses leave no node behind. -/
inductive Operand : Level → Phrase Expr
  | number (m : Leaf.number.Match) {n : Int} (h : m.token.value = .number n) :
    Operand .primary [↑m] (.literal (.number n m.line))
  | string (m : (Leaf.kind .string).Match) :
    Operand .primary [↑m] (.literal (.string m.written m.line))
  | name (m : (Leaf.kind .identifier).Match) :
    Operand .primary [↑m] (.literal (.identifier m.written m.line))
  | access (object : (Leaf.kind .identifier).Match) (dot : (Leaf.kind .dot).Match)
    (name : Leaf.attributeName.Match) :
    Operand .primary [↑object, ↑dot, ↑name]
      (.access ⟨object.written, name.attributeText, object.line⟩)
  | group (left : (Leaf.kind .lparen).Match) {s : List Item} {e : Expr} (h : Operand .sum s e)
    (right : (Leaf.kind .rparen).Match) : Operand .primary (↑left :: (s ++ [(right : Item)])) e
  | unsigned {s : List Item} {e : Expr} (h : Operand .primary s e) : Operand .signed s e
  | signed (sign : Sign) (m : (Leaf.kind sign.kind).Match) {s : List Item} {e : Expr}
    (h : Operand .signed s e) : Operand .signed (↑m :: s) (.unary sign e m.line)
  | factor {s : List Item} {e : Expr} (h : Operand .signed s e) : Operand .product s e
  | product {s u : List Item} {e f : Expr} (he : Operand .product s e) {op : BinaryOp}
    (hop : op ∈ Level.product.operators) (m : (Leaf.kind op.kind).Match)
    (hf : Operand .signed u f) : Operand .product (s ++ ↑m :: u) (.combine op e f)
  | term {s : List Item} {e : Expr} (h : Operand .product s e) : Operand .sum s e
  | sum {s u : List Item} {e f : Expr} (he : Operand .sum s e) {op : BinaryOp}
    (hop : op ∈ Level.sum.operators) (m : (Leaf.kind op.kind).Match)
    (hf : Operand .product u f) : Operand .sum (s ++ ↑m :: u) (.combine op e f)

/-! ## Conditions -/

/-- Two operands and the relation between them. -/
inductive Compared : Phrase Comparison
  | mk {s u : List Item} {e f : Expr} (he : Operand .sum s e) (r : Relation)
    (m : (Leaf.kind r.kind).Match) (hf : Operand .sum u f) :
    Compared (s ++ ↑m :: u) ⟨r, e, f, e.line⟩

/-- Comparisons joined by `AND`, from the left. -/
inductive Conjunction : Phrase Condition
  | one {s : List Item} {c : Comparison} (h : Compared s c) : Conjunction s (.comparison c)
  | more {s u : List Item} {l : Condition} {c : Comparison} (hl : Conjunction s l)
    (m : (Leaf.kind .and).Match) (hc : Compared u c) :
    Conjunction (s ++ ↑m :: u) (.both l (.comparison c))

/-- Conjunctions joined by `OR`, from the left. -/
inductive Disjunction : Phrase Condition
  | one {s : List Item} {c : Condition} (h : Conjunction s c) : Disjunction s c
  | more {s u : List Item} {l c : Condition} (hl : Disjunction s l)
    (m : (Leaf.kind .or).Match) (hc : Conjunction u c) : Disjunction (s ++ ↑m :: u) (.either l c)

/-! ## Declarations -/

/-- The name of an action. -/
inductive Named : Phrase ActionName
  | bare (m : (Leaf.kind .identifier).Match) : Named [↑m] (.bare m.written m.line)
  | quoted (m : (Leaf.kind .string).Match) : Named [↑m] (.quoted m.written m.line)

/-- One or more names with commas between them, and none at the end. -/
inductive Names : Phrase (List ActionName)
  | one {s : List Item} {a : ActionName} (h : Named s a) : Names s [a]
  | more {s u : List Item} {a : ActionName} {as : List ActionName} (h : Named s a)
    (comma : (Leaf.kind .comma).Match) (hs : Names u as) : Names (s ++ ↑comma :: u) (a :: as)

/-- The actions of a role or a policy. -/
inductive Actions : Phrase ActionSet
  | wildcard (m : (Leaf.kind .wildcard).Match) : Actions [↑m] (.wildcard m.line)
  | named {s : List Item} {a : ActionName} {as : List ActionName} (h : Names s (a :: as)) :
    Actions s (.named a as)

/-- The condition of a policy, which may be missing. -/
inductive Guard : Phrase (Option Condition)
  | none : Guard [] .none
  | some (opening : (Leaf.kind .guard).Match) (left : (Leaf.kind .lparen).Match)
    {s : List Item} {c : Condition} (h : Disjunction s c) (right : (Leaf.kind .rparen).Match) :
    Guard (↑opening :: ↑left :: (s ++ [(right : Item)])) (.some c)

/-- A role : its name and what it can do. -/
inductive RoleDef : Phrase Role
  | mk (keyword : (Leaf.kind .role).Match) (name : (Leaf.kind .identifier).Match)
    (left : (Leaf.kind .lbrace).Match) (can : (Leaf.kind .can).Match)
    (colon : (Leaf.kind .colon).Match) {s : List Item} {a : ActionSet} (h : Actions s a)
    (right : (Leaf.kind .rbrace).Match) :
    RoleDef (↑keyword :: ↑name :: ↑left :: ↑can :: ↑colon :: (s ++ [(right : Item)]))
      ⟨name.written, a, keyword.line⟩

/-- A user : their name and their role. -/
inductive UserDef : Phrase User
  | mk (keyword : (Leaf.kind .user).Match) (name : (Leaf.kind .identifier).Match)
    (left : (Leaf.kind .lbrace).Match) (field : (Leaf.named "role").Match)
    (colon : (Leaf.kind .colon).Match) (role : (Leaf.kind .identifier).Match)
    (right : (Leaf.kind .rbrace).Match) :
    UserDef [↑keyword, ↑name, ↑left, ↑field, ↑colon, ↑role, ↑right]
      ⟨name.written, role.written, keyword.line⟩

/-- A resource : its name and its path. -/
inductive ResourceDef : Phrase Resource
  | mk (keyword : (Leaf.kind .resource).Match) (name : (Leaf.kind .identifier).Match)
    (left : (Leaf.kind .lbrace).Match) (field : (Leaf.kind .path).Match)
    (colon : (Leaf.kind .colon).Match) (path : (Leaf.kind .string).Match)
    (right : (Leaf.kind .rbrace).Match) :
    ResourceDef [↑keyword, ↑name, ↑left, ↑field, ↑colon, ↑path, ↑right]
      ⟨name.written, path.written, keyword.line⟩

/-- A policy : its effect, its actions, its resource and perhaps its condition. -/
inductive PolicyDef : Phrase Policy
  | mk (effect : Effect) (keyword : (Leaf.kind effect.kind).Match)
    (action : (Leaf.kind .action).Match) (colon : (Leaf.kind .colon).Match) {s : List Item}
    {a : ActionSet} (h : Actions s a) (on : (Leaf.kind .on).Match)
    (field : (Leaf.named "resource").Match) (colon' : (Leaf.kind .colon).Match)
    (resource : (Leaf.kind .identifier).Match) {u : List Item} {c : Option Condition}
    (hc : Guard u c) :
    PolicyDef (↑keyword :: ↑action :: ↑colon ::
        (s ++ ↑on :: ↑field :: ↑colon' :: ↑resource :: u))
      ⟨effect, a, resource.written, c, keyword.line⟩

/-- The four forms of declaration. -/
inductive Declared : Phrase Declaration
  | role {s : List Item} {r : Role} (h : RoleDef s r) : Declared s (.role r)
  | user {s : List Item} {u : User} (h : UserDef s u) : Declared s (.user u)
  | resource {s : List Item} {r : Resource} (h : ResourceDef s r) : Declared s (.resource r)
  | policy {s : List Item} {p : Policy} (h : PolicyDef s p) : Declared s (.policy p)

/-- Declarations one after the other. -/
inductive Declarations : Phrase (List Declaration)
  | nil : Declarations [] []
  | cons {s u : List Item} {d : Declaration} {ds : List Declaration} (h : Declared s d)
    (hs : Declarations u ds) : Declarations (s ++ u) (d :: ds)

end Grammar

/-- The tokens are those of a derivation of the declaration `d`. -/
def Declaration.Derives (ts : List Token) (d : Declaration) : Prop :=
  ∃ s, Item.tokens s = ts ∧ Grammar.Declared s d

/-- The tokens are those of a derivation of the declarations `ds`. -/
def Declaration.DerivesAll (ts : List Token) (ds : List Declaration) : Prop :=
  ∃ s, Item.tokens s = ts ∧ Grammar.Declarations s ds

/-- The tokens are those of a derivation of the program `p`. -/
def Program.Derives (ts : List Token) (p : Program) : Prop :=
  ∃ ds, Declaration.DerivesAll ts ds ∧ p = .ofDeclarations ds

/-! ## Keywords that open declarations -/

/-- A leaf that stands inside a declaration : no keyword that opens one fits it. -/
def Item.Inner (i : Item) : Prop :=
  ∀ k ∈ i.leaf.expectation.kinds, k.startsDeclaration = false

theorem Item.inner_kind {k : Token.Kind} (h : k.startsDeclaration = false)
    (m : (Leaf.kind k).Match) : Item.Inner m := by
  cases k <;> simp_all [Item.Inner, Leaf.expectation, Expectation.kinds,
    Token.Kind.startsDeclaration]

theorem Item.inner_number (m : Leaf.number.Match) : Item.Inner m := by
  simp [Item.Inner, Leaf.expectation, Expectation.kinds, Token.Kind.startsDeclaration]

theorem Item.inner_named {name : String} (m : (Leaf.named name).Match) : Item.Inner m := by
  simp [Item.Inner, Leaf.expectation, Expectation.kinds, Token.Kind.startsDeclaration]

theorem Item.inner_attributeName (m : Leaf.attributeName.Match) : Item.Inner m := by
  simp [Item.Inner, Leaf.expectation, Expectation.kinds, Token.Kind.startsDeclaration]

namespace Grammar

theorem inner_of_operand : ∀ {l : Level} {s : List Item} {e : Expr}, Operand l s e →
    ∀ i ∈ s, i.Inner
  | _, _, _, .number m _ => List.forall_mem_singleton.mpr (Item.inner_number m)
  | _, _, _, .string m => List.forall_mem_singleton.mpr (Item.inner_kind rfl m)
  | _, _, _, .name m => List.forall_mem_singleton.mpr (Item.inner_kind rfl m)
  | _, _, _, .access object dot name => by
    simp [Item.inner_kind rfl object, Item.inner_kind rfl dot, Item.inner_attributeName name]
  | _, _, _, .group left h right =>
    List.forall_mem_cons.mpr ⟨Item.inner_kind rfl left, List.forall_mem_append.mpr
      ⟨inner_of_operand h, List.forall_mem_singleton.mpr (Item.inner_kind rfl right)⟩⟩
  | _, _, _, .unsigned h => inner_of_operand h
  | _, _, _, .signed sign m h =>
    List.forall_mem_cons.mpr ⟨Item.inner_kind (by cases sign <;> rfl) m, inner_of_operand h⟩
  | _, _, _, .factor h => inner_of_operand h
  | _, _, _, @Operand.product _ _ _ _ he op _ m hf =>
    List.forall_mem_append.mpr ⟨inner_of_operand he, List.forall_mem_cons.mpr
      ⟨Item.inner_kind (by cases op <;> rfl) m, inner_of_operand hf⟩⟩
  | _, _, _, .term h => inner_of_operand h
  | _, _, _, @Operand.sum _ _ _ _ he op _ m hf =>
    List.forall_mem_append.mpr ⟨inner_of_operand he, List.forall_mem_cons.mpr
      ⟨Item.inner_kind (by cases op <;> rfl) m, inner_of_operand hf⟩⟩

theorem inner_of_compared {s : List Item} {c : Comparison} (h : Compared s c) :
    ∀ i ∈ s, i.Inner := by
  obtain ⟨he, r, m, hf⟩ := h
  refine List.forall_mem_append.mpr ⟨inner_of_operand he, List.forall_mem_cons.mpr
    ⟨Item.inner_kind ?_ m, inner_of_operand hf⟩⟩
  cases r <;> rfl

theorem inner_of_conjunction {s : List Item} {c : Condition} (h : Conjunction s c) :
    ∀ i ∈ s, i.Inner := by
  induction h with
  | one h => exact inner_of_compared h
  | more _ m hc ih =>
    exact List.forall_mem_append.mpr ⟨ih, List.forall_mem_cons.mpr
      ⟨Item.inner_kind rfl m, inner_of_compared hc⟩⟩

theorem inner_of_disjunction {s : List Item} {c : Condition} (h : Disjunction s c) :
    ∀ i ∈ s, i.Inner := by
  induction h with
  | one h => exact inner_of_conjunction h
  | more _ m hc ih =>
    exact List.forall_mem_append.mpr ⟨ih, List.forall_mem_cons.mpr
      ⟨Item.inner_kind rfl m, inner_of_conjunction hc⟩⟩

theorem inner_of_names {s : List Item} {as : List ActionName} (h : Names s as) :
    ∀ i ∈ s, i.Inner := by
  have hname : ∀ {s a}, Named s a → ∀ i ∈ s, i.Inner := by
    rintro s a (m | m)
    · exact List.forall_mem_singleton.mpr (Item.inner_kind rfl m)
    · exact List.forall_mem_singleton.mpr (Item.inner_kind rfl m)
  induction h with
  | one h => exact hname h
  | more h comma _ ih =>
    exact List.forall_mem_append.mpr ⟨hname h, List.forall_mem_cons.mpr
      ⟨Item.inner_kind rfl comma, ih⟩⟩

theorem inner_of_actions {s : List Item} {a : ActionSet} (h : Actions s a) :
    ∀ i ∈ s, i.Inner := by
  rcases h with m | h
  · exact List.forall_mem_singleton.mpr (Item.inner_kind rfl m)
  · exact inner_of_names h

theorem inner_of_guard {s : List Item} {c : Option Condition} (h : Guard s c) :
    ∀ i ∈ s, i.Inner := by
  rcases h with _ | ⟨opening, left, h, right⟩
  · simp
  · have := inner_of_disjunction h
    simp_all [Item.inner_kind rfl opening, Item.inner_kind rfl left, Item.inner_kind rfl right,
      or_imp]

/-- A declaration is a keyword that opens one, and leaves that stand inside it. -/
theorem exists_opening_of_declared {s : List Item} {d : Declaration} (h : Declared s d) :
    ∃ i u, s = i :: u ∧ i.token.kind.startsDeclaration = true ∧ ∀ j ∈ u, j.Inner := by
  rcases h with ⟨keyword, name, left, can, colon, ha, right⟩ |
    ⟨keyword, name, left, field, colon, role, right⟩ |
    ⟨keyword, name, left, field, colon, path, right⟩ |
    ⟨effect, keyword, action, colon, ha, on, field, colon', resource, hc⟩
  · refine ⟨keyword, _, rfl, by rw [Item.token, keyword.fits]; rfl, ?_⟩
    have := inner_of_actions ha
    simp_all [Item.inner_kind rfl name, Item.inner_kind rfl left, Item.inner_kind rfl can,
      Item.inner_kind rfl colon, Item.inner_kind rfl right, or_imp]
  · refine ⟨keyword, _, rfl, by rw [Item.token, keyword.fits]; rfl, ?_⟩
    simp [Item.inner_kind rfl name, Item.inner_kind rfl left, Item.inner_named field,
      Item.inner_kind rfl colon, Item.inner_kind rfl role, Item.inner_kind rfl right]
  · refine ⟨keyword, _, rfl, by rw [Item.token, keyword.fits]; rfl, ?_⟩
    simp [Item.inner_kind rfl name, Item.inner_kind rfl left, Item.inner_kind rfl field,
      Item.inner_kind rfl colon, Item.inner_kind rfl path, Item.inner_kind rfl right]
  · refine ⟨keyword, _, rfl, by rw [Item.token, keyword.fits]; cases effect <;> rfl, ?_⟩
    have := inner_of_actions ha
    have := inner_of_guard hc
    simp_all [Item.inner_kind rfl action, Item.inner_kind rfl colon, Item.inner_kind rfl on,
      Item.inner_named field, Item.inner_kind rfl colon', Item.inner_kind rfl resource, or_imp]

end Grammar

end AccessPolicy
