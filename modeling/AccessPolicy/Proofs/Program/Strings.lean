import AccessPolicy.Proofs.Document.Json.Numbers
import AccessPolicy.Proofs.Program.Tree
import AccessPolicy.Proofs.Source.Printing

/-!
# The strings of a program

The names, paths and quoted strings of a program are its strings (`Program.strings`). A program is
unbroken if none of them has a line feed. Then no label of a node has one
(`Node.Unbroken.not_mem_label`). Every program that is parsed from a text is unbroken
(`Program.unbroken_of_ofSource`), as names are words and strings end with their line.
-/

namespace AccessPolicy

/-! ## Strings -/

/-- The string of a literal, if it has one. -/
def Literal.strings : Literal → List String
  | identifier s _ | string s _ => [s]
  | number _ _ | wildcard _ => []

/-- The strings of an action set. -/
def ActionSet.strings (a : ActionSet) : List String :=
  a.literals.flatMap Literal.strings

/-- The strings of an operand. -/
def Expr.strings : Expr → List String
  | binary _ left right _ => left.strings ++ right.strings
  | unary _ operand _ => operand.strings
  | access a => [a.object, a.name]
  | literal l => l.strings

/-- The strings of a comparison. -/
def Comparison.strings (c : Comparison) : List String :=
  c.left.strings ++ c.right.strings

/-- The strings of a condition. -/
def Condition.strings : Condition → List String
  | and left right _ | or left right _ => left.strings ++ right.strings
  | comparison c => c.strings

/-- The strings of a declaration. -/
def Declaration.strings : Declaration → List String
  | role r => r.name :: r.actions.strings
  | user u => [u.name, u.role]
  | resource r => [r.name, r.path]
  | policy p => p.resource :: p.actions.strings ++ (p.condition.map Condition.strings).getD []

/-- The strings of a program. -/
def Program.strings (p : Program) : List String :=
  p.declarations.flatMap Declaration.strings

/-- No string of the program has a line feed. -/
def Program.Unbroken (p : Program) : Prop :=
  ∀ s ∈ p.strings, '\n' ∉ s.toList

namespace Node

/-- The strings of a node and of all nodes below it. -/
def strings : Node → List String
  | program p => p.strings
  | role r => (Declaration.role r).strings
  | user u => (Declaration.user u).strings
  | resource r => (Declaration.resource r).strings
  | policy p => (Declaration.policy p).strings
  | logical c => c.strings
  | comparison c => c.strings
  | arithmetic e => e.strings
  | access a => (Expr.access a).strings
  | literal l => l.strings

/-- No string of the node or of a node below it has a line feed. -/
def Unbroken (n : Node) : Prop :=
  ∀ s ∈ n.strings, '\n' ∉ s.toList

theorem strings_ofExpr (e : Expr) : (ofExpr e).strings = e.strings := by
  cases e <;> rfl

theorem strings_ofCondition (c : Condition) : (ofCondition c).strings = c.strings := by
  cases c <;> rfl

theorem strings_ofDeclaration (d : Declaration) : (ofDeclaration d).strings = d.strings := by
  cases d <;> rfl

theorem strings_subset_of_mem_literals {a : ActionSet} {c : Node}
    (h : c ∈ a.literals.map literal) : c.strings ⊆ a.strings := by
  obtain ⟨l, hl, rfl⟩ := List.mem_map.mp h
  exact fun s hs => List.mem_flatMap.mpr ⟨l, hl, hs⟩

/-- The strings of the children are strings of the parent. -/
theorem strings_subset_of_mem_children {n c : Node} (h : c ∈ n.children) :
    c.strings ⊆ n.strings := by
  intro s hs
  cases n with
  | program p =>
    obtain ⟨d, hd, rfl⟩ := List.mem_map.mp h
    rw [strings_ofDeclaration] at hs
    exact List.mem_flatMap.mpr ⟨d, hd, hs⟩
  | role r => exact List.mem_cons_of_mem _ (strings_subset_of_mem_literals h hs)
  | policy p =>
    refine List.mem_cons_of_mem _ (List.mem_append.mpr ?_)
    rcases List.mem_append.mp h with h | h
    · exact Or.inl (strings_subset_of_mem_literals h hs)
    · obtain ⟨d, hd, rfl⟩ := Option.map_eq_some_iff.mp (Option.mem_toList.mp h)
      rw [strings_ofCondition] at hs
      exact Or.inr (by rwa [hd])
  | logical d =>
    cases d with
    | comparison d => rwa [List.mem_singleton.mp h] at hs
    | _ =>
      refine List.mem_append.mpr ?_
      rcases List.mem_pair.mp h with rfl | rfl <;> rw [strings_ofCondition] at hs
      · exact Or.inl hs
      · exact Or.inr hs
  | comparison d =>
    refine List.mem_append.mpr ?_
    rcases List.mem_pair.mp h with rfl | rfl <;> rw [strings_ofExpr] at hs
    · exact Or.inl hs
    · exact Or.inr hs
  | arithmetic e =>
    cases e with
    | binary =>
      refine List.mem_append.mpr ?_
      rcases List.mem_pair.mp h with rfl | rfl <;> rw [strings_ofExpr] at hs
      · exact Or.inl hs
      · exact Or.inr hs
    | unary => rwa [List.mem_singleton.mp h, strings_ofExpr] at hs
    | _ => rwa [List.mem_singleton.mp h] at hs
  | _ => exact absurd h List.not_mem_nil

theorem Unbroken.of_follow? {n m : Node} {path : List Nat} (h : n.Unbroken)
    (hm : n.follow? path = some m) : m.Unbroken := by
  induction path generalizing n with
  | nil => rwa [← Option.some.inj hm]
  | cons i path ih =>
    obtain ⟨c, hc, hm⟩ := follow?_cons_eq_some_iff.mp hm
    have hsubset := strings_subset_of_mem_children (List.mem_of_getElem? hc)
    exact ih (fun s hs => h s (hsubset hs)) hm

end Node

/-! ## Labels -/

theorem newline_not_mem_natRepr (n : Nat) : '\n' ∉ n.repr.toList := by
  rw [Nat.toList_repr]
  exact fun h => nomatch isDigit_of_mem_toDigits _ h

theorem Literal.newline_not_mem_text {l : Literal} (h : ∀ s ∈ l.strings, '\n' ∉ s.toList) :
    '\n' ∉ l.text.toList := by
  cases l with
  | identifier s line => exact h s List.mem_cons_self
  | number k line => exact fun hmem => nomatch Json.isNumberPart_of_mem_repr hmem
  | string s line =>
    have hs : '\n' ∉ s.toList := h s List.mem_cons_self
    simpa [text] using hs
  | wildcard line => simp [text]

theorem Expr.newline_not_mem_label {e : Expr} (h : ∀ s ∈ e.strings, '\n' ∉ s.toList) :
    '\n' ∉ e.label.toList := by
  cases e with
  | binary op left right line => cases op <;> simp [label, BinaryOp.symbol]
  | unary sign operand line => cases sign <;> simp [label, Sign.symbol]
  | access a => simpa [label, AttributeAccess.text, strings] using h
  | literal l => exact Literal.newline_not_mem_text h

theorem Relation.newline_not_mem_symbol (r : Relation) : '\n' ∉ r.symbol.toList := by
  cases r <;> simp [symbol]

theorem Condition.newline_not_mem_label (c : Condition) : '\n' ∉ c.label.toList := by
  cases c with
  | comparison c => exact c.relation.newline_not_mem_symbol
  | _ => simp [label]

theorem Effect.newline_not_mem_keyword (e : Effect) : '\n' ∉ e.keyword.toList := by
  cases e <;> simp [keyword]

/-- The label of a node has a line feed only if a string of the node has one. -/
theorem Node.Unbroken.not_mem_label {n : Node} (h : n.Unbroken) : '\n' ∉ n.label.toList := by
  cases n with
  | program p =>
    have hcount := newline_not_mem_natRepr p.declarations.length
    simp only [label, String.toList_append, List.mem_append]
    exact fun hmem => hmem.elim hcount (by decide)
  | role r =>
    have hname : '\n' ∉ r.name.toList := h r.name List.mem_cons_self
    simpa [label] using hname
  | user u => simpa [label, strings, Unbroken, Declaration.strings] using h
  | resource r => simpa [label, strings, Unbroken, Declaration.strings] using h
  | policy p =>
    have hresource : '\n' ∉ p.resource.toList := h p.resource List.mem_cons_self
    simpa [label, p.effect.newline_not_mem_keyword] using hresource
  | logical c => exact c.newline_not_mem_label
  | comparison c => exact c.relation.newline_not_mem_symbol
  | arithmetic e => exact Expr.newline_not_mem_label h
  | access a => exact Expr.newline_not_mem_label (e := .access a) h
  | literal l => exact Literal.newline_not_mem_text h

/-! ## Parsed programs -/

theorem newline_not_mem_of_isWord {w : String} (h : Lexeme.isWord w = true) : '\n' ∉ w.toList := by
  obtain ⟨c, cs, hw, hc, hcs⟩ := Lexeme.exists_cons_of_isWord h
  rw [hw, List.mem_cons]
  rintro (rfl | hmem)
  · cases hc
  · cases hcs _ hmem

theorem newline_not_mem_of_isQuotable {s : String} (h : Lexeme.isQuotable s = true) :
    '\n' ∉ s.toList :=
  fun hmem => nomatch List.all_eq_true.mp h _ hmem

theorem Literal.unbroken_of_normal {l : Literal} (h : l.Normal) :
    ∀ s ∈ l.strings, '\n' ∉ s.toList := by
  cases l with
  | identifier w line => simpa [strings] using newline_not_mem_of_isWord h.1
  | string w line => simpa [strings] using newline_not_mem_of_isQuotable h
  | _ => simp [strings]

theorem ActionSet.unbroken_of_normal {a : ActionSet} (h : a.Normal) :
    ∀ s ∈ a.strings, '\n' ∉ s.toList := by
  intro s hs
  obtain ⟨l, hl, hs⟩ := List.mem_flatMap.mp hs
  cases a with
  | wildcard line =>
    obtain rfl : l = .wildcard line := List.mem_singleton.mp hl
    exact absurd hs List.not_mem_nil
  | named first more =>
    have hmap : l ∈ (first :: more).map ActionName.literal := hl
    obtain ⟨name, hname, rfl⟩ := List.mem_map.mp hmap
    exact Literal.unbroken_of_normal (h name hname) s hs

theorem Expr.unbroken_of_normal {e : Expr} (h : e.Normal) : ∀ s ∈ e.strings, '\n' ∉ s.toList := by
  induction e with
  | binary op left right line ihl ihr =>
    exact fun s hs => (List.mem_append.mp hs).elim (ihl h.1 s) (ihr h.2 s)
  | unary sign operand line ih => exact ih h
  | access a =>
    have hobject := newline_not_mem_of_isWord h.1.1
    have hname := newline_not_mem_of_isWord (isWord_of_isAttributeName h.2)
    simpa [strings] using ⟨hobject, hname⟩
  | literal l => exact Literal.unbroken_of_normal h

theorem Comparison.unbroken_of_normal {c : Comparison} (h : c.Normal) :
    ∀ s ∈ c.strings, '\n' ∉ s.toList :=
  fun s hs => (List.mem_append.mp hs).elim (Expr.unbroken_of_normal h.1 s)
    (Expr.unbroken_of_normal h.2 s)

theorem Condition.unbroken_of_isConjunction {c : Condition} (h : c.IsConjunction) :
    ∀ s ∈ c.strings, '\n' ∉ s.toList := by
  induction c with
  | and left right line ihl =>
    cases right with
    | comparison c =>
      exact fun s hs =>
        (List.mem_append.mp hs).elim (ihl h.1 s) (Comparison.unbroken_of_normal h.2 s)
    | _ => exact h.elim
  | or => exact h.elim
  | comparison c => exact Comparison.unbroken_of_normal h

theorem Condition.unbroken_of_normal {c : Condition} (h : c.Normal) :
    ∀ s ∈ c.strings, '\n' ∉ s.toList := by
  induction c with
  | or left right line ihl =>
    exact fun s hs => (List.mem_append.mp hs).elim (ihl h.1 s) (unbroken_of_isConjunction h.2 s)
  | _ => exact unbroken_of_isConjunction h

theorem Declaration.unbroken_of_normal {d : Declaration} (h : d.Normal) :
    ∀ s ∈ d.strings, '\n' ∉ s.toList := by
  cases d with
  | role r =>
    exact List.forall_mem_cons.mpr
      ⟨newline_not_mem_of_isWord h.1.1, ActionSet.unbroken_of_normal h.2⟩
  | user u =>
    simpa [strings] using ⟨newline_not_mem_of_isWord h.1.1, newline_not_mem_of_isWord h.2.1⟩
  | resource r =>
    simpa [strings] using ⟨newline_not_mem_of_isWord h.1.1, newline_not_mem_of_isQuotable h.2⟩
  | policy p =>
    obtain ⟨hactions, hresource, hcondition⟩ := h
    refine List.forall_mem_cons.mpr ⟨newline_not_mem_of_isWord hresource.1, fun s hs => ?_⟩
    refine (List.mem_append.mp hs).elim (ActionSet.unbroken_of_normal hactions s) fun hs => ?_
    cases hc : p.condition with
    | none => simp [hc] at hs
    | some c =>
      rw [hc] at hs
      exact Condition.unbroken_of_normal (hcondition c hc) s hs

/-- The strings of a parsed program have no line feeds. -/
theorem Program.unbroken_of_ofSource {source : String} {p : Program} (h : ofSource source = .ok p) :
    p.Unbroken := by
  intro s hs
  obtain ⟨d, hd, hs⟩ := List.mem_flatMap.mp hs
  exact Declaration.unbroken_of_normal (normal_of_ofSource h d hd) s hs

end AccessPolicy
