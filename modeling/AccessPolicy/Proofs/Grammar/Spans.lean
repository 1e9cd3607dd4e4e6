import AccessPolicy.Proofs.Grammar.Parse
import AccessPolicy.Proofs.Program.Tree

/-!
# The tokens of a node

A derivation gives every node of a program tokens of its own : a phrase of the grammar that says the
node, with the tokens of its children inside, one child after the other. `Node.Spans` lists them in
the order of the walk, and there is such a list for every program that is derived
(`Grammar.spanned_declarations`).

The line of a node is that of its leftmost token, apart from parentheses, which only group
(`Node.Derives.exists_leading`). That token is the keyword of a declaration, the sign of a signed
operand, the object of an access and the whole of a literal; a node that starts with an operand
starts as the operand does (`Node.OpensWith`). So where the lines of tokens never decrease, those of
the nodes do not either (`Node.Spans.pairwise_line`).
-/

namespace AccessPolicy

open Grammar

/-! ## Spans -/

/-- The items are a phrase of the grammar that says the node. A literal is an operand, the name of
an action or the wildcard. -/
def Node.Says (s : List Item) : Node → Prop
  | program p => Declarations s p.declarations
  | role r => RoleDef s r
  | user u => UserDef s u
  | resource r => ResourceDef s r
  | policy p => PolicyDef s p
  | logical c => Disjunction s c
  | comparison c => Compared s c
  | arithmetic e => Operand .sum s e
  | access a => Operand .sum s (.access a)
  | literal l => Operand .sum s (.literal l) ∨ (∃ a, Named s a ∧ a.literal = l) ∨
    ∃ line, Actions s (.wildcard line) ∧ l = .wildcard line

/-- The node is derived from the tokens. -/
def Node.Derives (ts : List Token) (n : Node) : Prop :=
  ∃ s, Item.tokens s = ts ∧ n.Says s

/-- The nodes are derived from pieces of the tokens, one after the other, and all nodes below them
from pieces of these in turn. The list has each node with its piece, in the order of the walk. -/
inductive Node.Spans : List Token → List Node → List (Node × List Token) → Prop
  | nil (gap : List Token) : Spans gap [] []
  | cons (gap : List Token) {ts us : List Token} {n : Node} {ns : List Node}
    {below more : List (Node × List Token)} (h : n.Derives ts) (hbelow : Spans ts n.children below)
    (hmore : Spans us ns more) : Spans (gap ++ (ts ++ us)) (n :: ns) ((n, ts) :: (below ++ more))

namespace Node.Spans

variable {ts us : List Token} {ns ms : List Node} {spans more : List (Node × List Token)}

/-- The spans are those of the nodes of the walks. -/
theorem map_fst (h : Spans ts ns spans) : spans.map Prod.fst = ns.flatMap walk := by
  induction h with
  | nil => rfl
  | cons gap _ _ _ ihbelow ihmore =>
    rw [List.map_cons, List.map_append, ihbelow, ihmore, List.flatMap_cons, walk_eq,
      List.cons_append]

theorem gap (as : List Token) (h : Spans us ns spans) : Spans (as ++ us) ns spans := by
  cases h with
  | nil => exact nil _
  | cons gap h hbelow hmore =>
    rw [← List.append_assoc]
    exact cons (as ++ gap) h hbelow hmore

theorem append (h : Spans ts ns spans) (hmore : Spans us ms more) :
    Spans (ts ++ us) (ns ++ ms) (spans ++ more) := by
  induction h with
  | nil as => exact hmore.gap as
  | cons gap h hbelow _ _ ih =>
    rw [List.append_assoc, List.append_assoc, List.cons_append, List.cons_append, List.append_assoc]
    exact cons gap h hbelow ih

theorem one {n : Node} (h : n.Derives ts) (hbelow : Spans ts n.children spans) :
    Spans ts [n] ((n, ts) :: spans) := by
  simpa using cons [] h hbelow (nil [])

end Node.Spans

/-! ## Derivations have spans -/

/-- The nodes and all below them have spans in the items. -/
def Node.Spanned (s : List Item) (ns : List Node) : Prop :=
  ∃ spans, Spans (Item.tokens s) ns spans

namespace Node.Spanned

variable {s u : List Item} {ns ms : List Node}

theorem nil (s : List Item) : Spanned s [] :=
  ⟨[], .nil _⟩

theorem leaf (i : Item) (h : Spanned u ns) : Spanned (i :: u) ns := by
  obtain ⟨spans, h⟩ := h
  exact ⟨spans, h.gap [i.token]⟩

theorem append (h : Spanned s ns) (hmore : Spanned u ms) : Spanned (s ++ u) (ns ++ ms) := by
  obtain ⟨spans, h⟩ := h
  obtain ⟨more, hmore⟩ := hmore
  rw [Spanned, Item.tokens, List.map_append]
  exact ⟨_, h.append hmore⟩

theorem behind (h : Spanned s ns) (u : List Item) : Spanned (s ++ u) ns := by
  simpa using h.append (nil u)

theorem one {n : Node} (h : n.Derives (Item.tokens s)) (hbelow : Spanned s n.children) :
    Spanned s [n] := by
  obtain ⟨spans, hbelow⟩ := hbelow
  exact ⟨_, .one h hbelow⟩

/-- Two nodes with a leaf between them. -/
theorem pair {n m : Node} (hn : Spanned s [n]) (i : Item) (hm : Spanned u [m]) :
    Spanned (s ++ i :: u) [n, m] :=
  hn.append (hm.leaf i)

end Node.Spanned

namespace Grammar

/-- Any operand can stand where a sum is asked for. -/
theorem Operand.toSum {l : Level} {s : List Item} {e : Expr} (h : Operand l s e) :
    Operand .sum s e := by
  cases l with
  | primary => exact .term (.factor (.unsigned h))
  | signed => exact .term (.factor h)
  | product => exact .term h
  | sum => exact h

theorem Operand.derives {l : Level} {s : List Item} {e : Expr} (h : Operand l s e) :
    (Node.ofExpr e).Derives (Item.tokens s) := by
  refine ⟨s, rfl, ?_⟩
  cases e with
  | literal => exact Or.inl h.toSum
  | _ => exact h.toSum

theorem Disjunction.derives {s : List Item} {c : Condition} (h : Disjunction s c) :
    (Node.ofCondition c).Derives (Item.tokens s) := by
  refine ⟨s, rfl, ?_⟩
  cases c with
  | comparison c =>
    cases h with
    | one h => cases h with | one h => exact h
  | _ => exact h

open Node (Spanned)

variable {s u : List Item}

theorem spanned_below_operand : ∀ {l : Level} {s : List Item} {e : Expr}, Operand l s e →
    Spanned s (Node.ofExpr e).children
  | _, _, _, .number m _ => .nil _
  | _, _, _, .string m => .nil _
  | _, _, _, .name m => .nil _
  | _, _, _, .access object dot name => .nil _
  | _, _, _, .group left h right => ((spanned_below_operand h).behind _).leaf left
  | _, _, _, .unsigned h => spanned_below_operand h
  | _, _, _, .signed sign m h => (Spanned.one h.derives (spanned_below_operand h)).leaf m
  | _, _, _, .factor h => spanned_below_operand h
  | _, _, _, .product he _ m hf =>
    (Spanned.one he.derives (spanned_below_operand he)).pair m
      (.one hf.derives (spanned_below_operand hf))
  | _, _, _, .term h => spanned_below_operand h
  | _, _, _, .sum he _ m hf =>
    (Spanned.one he.derives (spanned_below_operand he)).pair m
      (.one hf.derives (spanned_below_operand hf))

theorem spanned_operand {l : Level} {e : Expr} (h : Operand l s e) : Spanned s [Node.ofExpr e] :=
  .one h.derives (spanned_below_operand h)

theorem spanned_compared {c : Comparison} (h : Compared s c) : Spanned s [Node.comparison c] := by
  refine .one ⟨s, rfl, h⟩ ?_
  obtain ⟨he, r, m, hf⟩ := h
  exact (spanned_operand he).pair m (spanned_operand hf)

theorem spanned_conjunction {c : Condition} (h : Conjunction s c) :
    Spanned s [Node.ofCondition c] := by
  induction h with
  | one h => exact spanned_compared h
  | more hl m hc ih =>
    exact .one (Disjunction.one (.more hl m hc)).derives (ih.pair m (spanned_compared hc))

theorem spanned_disjunction {c : Condition} (h : Disjunction s c) :
    Spanned s [Node.ofCondition c] := by
  induction h with
  | one h => exact spanned_conjunction h
  | more hl m hc ih =>
    exact .one (Disjunction.more hl m hc).derives (ih.pair m (spanned_conjunction hc))

theorem spanned_named {a : ActionName} (h : Named s a) : Spanned s [Node.literal a.literal] :=
  .one ⟨s, rfl, Or.inr (Or.inl ⟨a, h, rfl⟩)⟩ (.nil s)

theorem spanned_names {as : List ActionName} (h : Names s as) :
    Spanned s (as.map fun a => Node.literal a.literal) := by
  induction h with
  | one h => exact spanned_named h
  | more h comma _ ih => exact (spanned_named h).append (ih.leaf comma)

theorem spanned_actions {a : ActionSet} (h : Actions s a) :
    Spanned s (a.literals.map Node.literal) := by
  cases h with
  | wildcard m => exact .one ⟨_, rfl, Or.inr (Or.inr ⟨m.line, .wildcard m, rfl⟩)⟩ (.nil _)
  | named h => simpa [ActionSet.literals, Function.comp_def] using spanned_names h

theorem spanned_guard {c : Option Condition} (h : Guard s c) :
    Spanned s (c.map Node.ofCondition).toList := by
  cases h with
  | none => exact .nil []
  | some opening left h right => exact (((spanned_disjunction h).behind _).leaf left).leaf opening

theorem spanned_declared {d : Declaration} (h : Declared s d) :
    Spanned s [Node.ofDeclaration d] := by
  cases h with
  | role h =>
    refine .one ⟨s, rfl, h⟩ ?_
    obtain ⟨keyword, name, left, can, colon, ha, right⟩ := h
    have hbody := (((spanned_actions ha).behind [⟨_, right⟩]).leaf colon).leaf can
    exact ((hbody.leaf left).leaf name).leaf keyword
  | user h => exact .one ⟨s, rfl, h⟩ (.nil s)
  | resource h => exact .one ⟨s, rfl, h⟩ (.nil s)
  | policy h =>
    refine .one ⟨s, rfl, h⟩ ?_
    obtain ⟨effect, keyword, action, colon, ha, on, field, colon', resource, hc⟩ := h
    have hguard := ((((spanned_guard hc).leaf resource).leaf colon').leaf field).leaf on
    exact ((((spanned_actions ha).append hguard).leaf colon).leaf action).leaf keyword

theorem spanned_declarations {ds : List Declaration} (h : Declarations s ds) :
    Spanned s (ds.map Node.ofDeclaration) := by
  induction h with
  | nil => exact .nil []
  | cons h _ ih => exact (spanned_declared h).append ih

end Grammar

/-! ## Leading tokens -/

namespace Token

/-- Whether the token is a parenthesis. -/
def isParen (t : Token) : Bool :=
  t.kind = .lparen || t.kind = .rparen

/-- The leftmost token that is no parenthesis. -/
def leading? (ts : List Token) : Option Token :=
  ts.find? fun t => !t.isParen

end Token

/-- The token is what a literal is read from. -/
def Literal.OpensWith (t : Token) : Literal → Prop
  | identifier name _ => t.kind = .identifier ∧ t.value.written = name
  | number n _ => t.kind = .number ∧ t.value = .number n
  | string s _ => t.kind = .string ∧ t.value.written = s
  | wildcard _ => t.kind = .wildcard

/-- The token opens the operand : it is its sign, its object or all of it, and an operation is
opened by what opens its left operand, on the same line. -/
def Expr.OpensWith (t : Token) : Expr → Prop
  | binary _ left _ _ => left.line = t.line ∧ left.OpensWith t
  | unary sign _ _ => t.kind = sign.kind
  | access a => t.kind = .identifier ∧ t.value.written = a.object
  | literal l => l.OpensWith t

/-- The token opens the left operand of the comparison, on the same line. -/
def Comparison.OpensWith (t : Token) (c : Comparison) : Prop :=
  c.left.line = t.line ∧ c.left.OpensWith t

/-- The token opens the condition : what opens the left of two joined conditions opens both, on the
same line. -/
def Condition.OpensWith (t : Token) : Condition → Prop
  | and left _ _ | or left _ _ => left.line = t.line ∧ left.OpensWith t
  | comparison c => c.OpensWith t

/-- The token opens the node : the keyword of a declaration, or what opens the condition, the
operand or the literal. -/
def Node.OpensWith (t : Token) : Node → Prop
  | program _ => t.kind.startsDeclaration = true
  | role _ => t.kind = .role
  | user _ => t.kind = .user
  | resource _ => t.kind = .resource
  | policy p => t.kind = p.effect.kind
  | logical c => c.OpensWith t
  | comparison c => c.OpensWith t
  | arithmetic e => e.OpensWith t
  | access a => (Expr.access a).OpensWith t
  | literal l => l.OpensWith t

namespace Grammar

/-- The leftmost token that is no parenthesis is on this line and has the property. -/
def Leads (s : List Item) (line : Nat) (P : Token → Prop) : Prop :=
  ∃ t, Token.leading? (Item.tokens s) = some t ∧ line = t.line ∧ P t

variable {s u : List Item} {line : Nat} {P Q : Token → Prop}

namespace Leads

theorem append (h : Leads s line P) (u : List Item) : Leads (s ++ u) line P := by
  obtain ⟨t, ht, h⟩ := h
  refine ⟨t, ?_, h⟩
  rw [Token.leading?, Item.tokens, List.map_append, List.find?_append]
  rw [Token.leading?, Item.tokens] at ht
  rw [ht]
  rfl

theorem mono (h : Leads s line P) (hP : ∀ t, line = t.line → P t → Q t) : Leads s line Q := by
  obtain ⟨t, ht, hline, hp⟩ := h
  exact ⟨t, ht, hline, hP t hline hp⟩

theorem group (left : (Leaf.kind .lparen).Match) (h : Leads s line P) :
    Leads (↑left :: s) line P := by
  obtain ⟨t, ht, h⟩ := h
  have hkind : left.token.kind = .lparen := left.fits
  have hparen : left.token.isParen = true := by simp [Token.isParen, hkind]
  exact ⟨t, (List.find?_cons_of_neg (by simp [Item.token, hparen])).trans ht, h⟩

theorem leaf {l : Leaf} (m : l.Match) (hm : ∀ k ∈ l.expectation.kinds, k ≠ .lparen ∧ k ≠ .rparen)
    (h : P m.token) : Leads (↑m :: s) m.line P := by
  have hparen : m.token.isParen = false := by
    simpa [Token.isParen] using hm _ (Leaf.mem_kinds_of_accepts m.fits)
  exact ⟨m.token, List.find?_cons_of_pos (by simp [Item.token, hparen]), rfl, h⟩

end Leads

theorem leads_operand : ∀ {l : Level} {s : List Item} {e : Expr}, Operand l s e →
    Leads s e.line fun t => e.OpensWith t
  | _, _, _, .number m hn => .leaf m (by decide) ⟨m.fits.1, hn⟩
  | _, _, _, .string m => .leaf m (by decide) ⟨m.fits, rfl⟩
  | _, _, _, .name m => .leaf m (by decide) ⟨m.fits, rfl⟩
  | _, _, _, .access object dot name => .leaf object (by decide) ⟨object.fits, rfl⟩
  | _, _, _, .group left h right => ((leads_operand h).append _).group left
  | _, _, _, .unsigned h => leads_operand h
  | _, _, _, .signed sign m h => .leaf m (by cases sign <;> decide) m.fits
  | _, _, _, .factor h => leads_operand h
  | _, _, _, .product he _ m hf => ((leads_operand he).append _).mono fun _ => .intro
  | _, _, _, .term h => leads_operand h
  | _, _, _, .sum he _ m hf => ((leads_operand he).append _).mono fun _ => .intro

theorem leads_compared {c : Comparison} (h : Compared s c) :
    Leads s c.line fun t => c.OpensWith t := by
  obtain ⟨he, r, m, hf⟩ := h
  exact ((leads_operand he).append _).mono fun _ => .intro

theorem leads_conjunction {c : Condition} (h : Conjunction s c) :
    Leads s c.line fun t => c.OpensWith t := by
  induction h with
  | one h => exact leads_compared h
  | more _ m hc ih => exact (ih.append _).mono fun _ => .intro

theorem leads_disjunction {c : Condition} (h : Disjunction s c) :
    Leads s c.line fun t => c.OpensWith t := by
  induction h with
  | one h => exact leads_conjunction h
  | more _ m hc ih => exact (ih.append _).mono fun _ => .intro

theorem leads_declared {d : Declaration} (h : Declared s d) :
    Leads s d.line fun t => (Node.ofDeclaration d).OpensWith t := by
  rcases h with ⟨keyword, _⟩ | ⟨keyword, _⟩ | ⟨keyword, _⟩ | ⟨effect, keyword, _⟩
  · exact .leaf keyword (by decide) keyword.fits
  · exact .leaf keyword (by decide) keyword.fits
  · exact .leaf keyword (by decide) keyword.fits
  · exact .leaf keyword (by cases effect <;> decide) keyword.fits

end Grammar

namespace Node

/-- The node is no program. -/
def IsPart : Node → Prop
  | program _ => False
  | _ => True

theorem isPart_of_mem_children {n c : Node} (h : c ∈ n.children) : c.IsPart := by
  rcases mem_children_cases h with ⟨d, rfl⟩ | ⟨l, rfl⟩ | ⟨d, rfl⟩ | ⟨e, rfl⟩
  · cases d <;> trivial
  · trivial
  · cases d <;> trivial
  · cases e <;> trivial

theorem Says.leads {s : List Item} {n : Node} (h : n.Says s) (hn : n.IsPart) :
    Leads s n.line fun t => n.OpensWith t := by
  cases n with
  | program => exact hn.elim
  | role r => exact leads_declared (.role h)
  | user u => exact leads_declared (.user h)
  | resource r => exact leads_declared (.resource h)
  | policy p => exact leads_declared (.policy h)
  | logical c => exact leads_disjunction h
  | comparison c => exact leads_compared h
  | arithmetic e => exact leads_operand h
  | access a => exact leads_operand h
  | literal l =>
    rcases h with h | ⟨a, h, rfl⟩ | ⟨line, h, rfl⟩
    · exact leads_operand h
    · cases h with
      | bare m => exact .leaf m (by decide) ⟨m.fits, rfl⟩
      | quoted m => exact .leaf m (by decide) ⟨m.fits, rfl⟩
    · cases h with
      | wildcard m => exact .leaf m (by decide) m.fits

/-- A part of a program is on the line of its leftmost token that is no parenthesis, and that token
opens it. -/
theorem Derives.exists_leading {ts : List Token} {n : Node} (h : n.Derives ts) (hn : n.IsPart) :
    ∃ t, Token.leading? ts = some t ∧ n.line = t.line ∧ n.OpensWith t := by
  obtain ⟨s, rfl, hs⟩ := h
  exact hs.leads hn

end Node

/-! ## Lines in order -/

/-- The lines of the tokens never decrease. -/
def Token.LinesOrdered (ts : List Token) : Prop :=
  ts.Pairwise fun t u => t.line ≤ u.line

theorem Token.mem_of_leading? {ts : List Token} {t : Token} (h : leading? ts = some t) :
    t ∈ ts ∧ t.isParen = false :=
  ⟨List.mem_of_find?_eq_some h, by simpa using List.find?_some h⟩

/-- No token but a parenthesis comes before the leading one. -/
theorem Token.LinesOrdered.line_leading_le {ts : List Token} (h : LinesOrdered ts) {t u : Token}
    (ht : leading? ts = some t) (hu : u ∈ ts) (hparen : u.isParen = false) : t.line ≤ u.line := by
  obtain ⟨-, before, after, rfl, hbefore⟩ := List.find?_eq_some_iff_append.mp ht
  rcases List.mem_append.mp hu with hu | hu
  · exact absurd (hbefore u hu) (by simp [hparen])
  · rcases List.mem_cons.mp hu with rfl | hu
    · exact Nat.le_refl _
    · exact (List.pairwise_cons.mp (List.pairwise_append.mp h).2.1).1 u hu

namespace Node.Spans

variable {ts : List Token} {ns : List Node} {spans : List (Node × List Token)}

theorem isInfix_of_mem (h : Spans ts ns spans) : ∀ x ∈ spans, x.2 <:+: ts := by
  induction h with
  | nil => simp
  | @cons gap ts us n ns below more _ _ _ ihbelow ihmore =>
    have hts : ts <:+: gap ++ (ts ++ us) := ⟨gap, us, by rw [List.append_assoc]⟩
    have hus : us <:+: gap ++ (ts ++ us) := ⟨gap ++ ts, [], by simp⟩
    refine List.forall_mem_cons.mpr ⟨hts, List.forall_mem_append.mpr ⟨?_, ?_⟩⟩
    · exact fun x hx => (ihbelow x hx).trans hts
    · exact fun x hx => (ihmore x hx).trans hus

/-- Every node is on the line of the leading token of its span, which opens it. -/
theorem exists_leading_of_mem (h : Spans ts ns spans) (hns : ∀ n ∈ ns, n.IsPart) :
    ∀ x ∈ spans, ∃ t, Token.leading? x.2 = some t ∧ x.1.line = t.line ∧ x.1.OpensWith t := by
  induction h with
  | nil => simp
  | cons gap h _ _ ihbelow ihmore =>
    rw [List.forall_mem_cons] at hns
    refine List.forall_mem_cons.mpr ⟨h.exists_leading hns.1, List.forall_mem_append.mpr ⟨?_, ?_⟩⟩
    · exact ihbelow fun c hc => isPart_of_mem_children hc
    · exact ihmore hns.2

/-- The line of a node is that of some token, which is no parenthesis. -/
theorem exists_token_of_mem (h : Spans ts ns spans) (hns : ∀ n ∈ ns, n.IsPart) :
    ∀ x ∈ spans, ∃ t ∈ ts, t.isParen = false ∧ x.1.line = t.line := by
  intro x hx
  obtain ⟨t, ht, hline, -⟩ := h.exists_leading_of_mem hns x hx
  obtain ⟨hmem, hparen⟩ := Token.mem_of_leading? ht
  exact ⟨t, (h.isInfix_of_mem x hx).subset hmem, hparen, hline⟩

/-- Where the lines of the tokens never decrease, those of the nodes do not either. -/
theorem pairwise_line (h : Spans ts ns spans) (hns : ∀ n ∈ ns, n.IsPart)
    (hts : Token.LinesOrdered ts) : spans.Pairwise fun x y => x.1.line ≤ y.1.line := by
  induction h with
  | nil => exact .nil
  | @cons gap ts us n ns below more h hbelow hmore ihbelow ihmore =>
    rw [List.forall_mem_cons] at hns
    have hparts : ∀ c ∈ n.children, c.IsPart := fun c hc => isPart_of_mem_children hc
    obtain ⟨-, htail, -⟩ := List.pairwise_append.mp hts
    obtain ⟨htokens, hrest, hacross⟩ := List.pairwise_append.mp htail
    obtain ⟨t, ht, hline, -⟩ := h.exists_leading hns.1
    refine List.pairwise_cons.mpr ⟨List.forall_mem_append.mpr ⟨fun x hx => ?_, fun y hy => ?_⟩,
      List.pairwise_append.mpr ⟨ihbelow hparts htokens, ihmore hns.2 hrest, fun x hx y hy => ?_⟩⟩
    · obtain ⟨u, hu, hparen, hux⟩ := hbelow.exists_token_of_mem hparts x hx
      rw [hline, hux]
      exact Token.LinesOrdered.line_leading_le htokens ht hu hparen
    · obtain ⟨u, hu, -, huy⟩ := hmore.exists_token_of_mem hns.2 y hy
      rw [hline, huy]
      exact hacross t (Token.mem_of_leading? ht).1 u hu
    · obtain ⟨u, hu, -, hux⟩ := hbelow.exists_token_of_mem hparts x hx
      obtain ⟨v, hv, -, hvy⟩ := hmore.exists_token_of_mem hns.2 y hy
      rw [hux, hvy]
      exact hacross u hu v hv

end Node.Spans

end AccessPolicy
