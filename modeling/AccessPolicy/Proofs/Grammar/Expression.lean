import AccessPolicy.Grammar.Expression
import AccessPolicy.Proofs.Grammar.Derivation
import AccessPolicy.Proofs.Grammar.Exact

/-!
# The readers of conditions are exact

Every reader of a leaf, of an operand or of a condition matches the rule of the grammar for it
(`Reader.matches_operand`, `Reader.matches_condition`). Operands are read in loops and derived
by rules that are recursive on the left, so the loops are first seen as lists of operands with
operators between them (`Phrase.Joined`). Parentheses nest, and the reader inside them is
exact on fewer tokens.
-/

namespace AccessPolicy.Reader

open Grammar

variable {α : Type} {n : Nat}

theorem matches_kind (k : Token.Kind) :
    (kind k).Matches (Phrase.leaf (.kind k) Leaf.Match.token) (.leaf (.kind k)) n := by
  refine Matches.leaf (l := .kind k) ⟨⟨k, .text "", 0, 0⟩, rfl⟩ (fun m => ?_) fun t ht => ?_
  · exact if_pos m.fits
  · exact if_neg ht

theorem matches_keyword (k : Token.Kind) (a : α) :
    (keyword k a).Matches (Phrase.leaf (.kind k) fun _ => a) (.leaf (.kind k)) n := by
  refine Matches.leaf (l := .kind k) ⟨⟨k, .text "", 0, 0⟩, rfl⟩ (fun m => ?_) fun t ht => ?_
  · exact if_pos m.fits
  · exact if_neg ht

theorem matches_identifier :
    identifier.Matches (Phrase.leaf (.kind .identifier) fun m => (m.written, m.line))
      (.leaf (.kind .identifier)) n := by
  refine Matches.leaf (l := .kind .identifier) ⟨⟨.identifier, .text "", 0, 0⟩, rfl⟩
    (fun m => ?_) fun t ht => ?_
  · exact if_pos m.fits
  · exact if_neg ht

theorem matches_string :
    string.Matches (Phrase.leaf (.kind .string) fun m => (m.written, m.line))
      (.leaf (.kind .string)) n := by
  refine Matches.leaf (l := .kind .string) ⟨⟨.string, .text "", 0, 0⟩, rfl⟩
    (fun m => ?_) fun t ht => ?_
  · exact if_pos m.fits
  · exact if_neg ht

theorem matches_identifierNamed (name : String) :
    (identifierNamed name).Matches (Phrase.leaf (.named name) fun _ => ())
      (.leaf (.named name)) n := by
  refine Matches.leaf (l := .named name) ⟨⟨.identifier, .text name, 0, 0⟩, rfl, name, rfl, rfl⟩
    (fun m => ?_) fun t ht => ?_
  · obtain ⟨hk, s, hv, hs⟩ := m.fits
    simp [hk, hv, hs]
  · split
    · next s hk hv => exact if_neg fun hs => ht ⟨hk, s, hv, hs⟩
    · rfl

theorem matches_attributeName :
    attributeName.Matches (Phrase.leaf .attributeName Leaf.Match.attributeText)
      (.leaf (.kind .identifier)) n := by
  refine Matches.leaf (l := .attributeName) ⟨⟨.identifier, .text "", 0, 0⟩, Or.inl rfl⟩
    (fun m => ?_) fun t ht => ?_
  · rcases m.fits with hk | hk | hk | hk <;> simp [hk, Leaf.Match.attributeText, Leaf.Match.written]
  · simp only [Leaf.Accepts, not_or] at ht
    split <;> simp_all

/-! ## Operands -/

theorem matches_number :
    number.Matches (fun s e => ∃ (m : Leaf.number.Match) (k : Int), s = [↑m] ∧
      m.token.value = .number k ∧ e = .literal (.number k m.line)) (.leaf (.kind .number)) n := by
  have hleaf : number.Matches
      (Phrase.leaf .number fun m => Expr.literal (.number (m.token.int?.getD 0) m.line))
      (.leaf (.kind .number)) n := by
    refine Matches.leaf (l := .number) ⟨⟨.number, .number 0, 0, 0⟩, rfl, 0, rfl⟩
      (fun m => ?_) fun t ht => ?_
    · obtain ⟨hk, k, hv⟩ := m.fits
      simp [hk, hv, Token.int?, Leaf.Match.line]
    · split
      · next k hk hv => exact absurd ⟨hk, k, hv⟩ ht
      · rfl
  refine hleaf.congr fun s e => ⟨?_, ?_⟩
  · rintro ⟨m, rfl, rfl⟩
    obtain ⟨-, k, hv⟩ := m.fits
    exact ⟨m, k, rfl, hv, by simp [Token.int?, hv]⟩
  · rintro ⟨m, k, rfl, hv, rfl⟩
    exact ⟨m, rfl, by simp [Token.int?, hv]⟩

theorem matches_nameOrAttribute :
    nameOrAttribute.Matches
      (fun s e => (∃ m : (Leaf.kind .identifier).Match,
          s = [↑m] ∧ e = .literal (.identifier m.written m.line)) ∨
        ∃ (object : (Leaf.kind .identifier).Match) (dot : (Leaf.kind .dot).Match)
          (name : Leaf.attributeName.Match), s = [↑object, ↑dot, ↑name] ∧
            e = .access ⟨object.written, name.attributeText, object.line⟩)
      ⟨false, [.kind .identifier], [.kind .dot]⟩ n := by
  have hoptional := Matches.optional
    ((matches_kind (n := n) .dot).leafBind fun _ => matches_attributeName) rfl
  have htail : ∀ (name : String) (line : Nat) (o : Option String),
      (o.elim (pure (.literal (.identifier name line))) fun a => pure (.access ⟨name, a, line⟩) :
        Reader Expr).Matches
      (Phrase.empty (o.elim (.literal (.identifier name line)) fun a => .access ⟨name, a, line⟩))
      .empty n := by
    intro name line o
    cases o <;> exact Matches.pure _
  have heq : nameOrAttribute = identifier >>= fun x =>
      (optional do let _ ← kind .dot; attributeName) >>= fun o =>
        o.elim (pure (.literal (.identifier x.1 x.2))) fun a => pure (.access ⟨x.1, a, x.2⟩) :=
    congrArg (identifier >>= ·) (funext fun x => congrArg (optional _ >>= ·)
      (funext fun o => by cases o <;> rfl))
  rw [heq]
  refine Matches.congr (matches_identifier.leafBind fun x =>
    hoptional.bind (htail x.1 x.2) (by decide)) ?_
  intro s e
  rw [Phrase.leaf_seq_iff]
  refine ⟨?_, ?_⟩
  · rintro ⟨m, u, rfl, v, w, o, rfl, ⟨a, ha, rfl⟩ | ⟨rfl, rfl⟩, rfl, rfl⟩
    · obtain ⟨dot, w, rfl, name, rfl, rfl⟩ := Phrase.leaf_seq_iff.mp ha
      exact Or.inr ⟨m, dot, name, rfl, rfl⟩
    · exact Or.inl ⟨m, rfl, rfl⟩
  · rintro (⟨m, rfl, rfl⟩ | ⟨object, dot, name, rfl, rfl⟩)
    · exact ⟨m, [], rfl, [], [], none, rfl, Or.inr ⟨rfl, rfl⟩, rfl, rfl⟩
    · exact ⟨object, _, rfl, [↑dot, ↑name], [], some _, rfl,
        Or.inl ⟨_, Phrase.leaf_seq_iff.mpr ⟨dot, _, rfl, name, rfl, rfl⟩, rfl⟩, rfl, rfl⟩

/-- The shape of an operand. -/
def operandShape : Shape where
  nullable := false
  first := [.kind .plus, .kind .minus, .kind .number, .kind .string, .kind .identifier,
    .kind .lparen]
  onward := [.kind .dot, .kind .times, .kind .divide, .kind .plus, .kind .minus]

theorem operand_first {l : Level} {s : List Item} {e : Expr} (h : Operand l s e) :
    ∃ i u, s = i :: u ∧ i.leaf.expectation ∈ operandShape.first := by
  induction h with
  | number m _ => exact ⟨m, [], rfl, by simp [operandShape, Leaf.expectation]⟩
  | string m => exact ⟨m, [], rfl, by simp [operandShape, Leaf.expectation]⟩
  | name m => exact ⟨m, [], rfl, by simp [operandShape, Leaf.expectation]⟩
  | access object _ _ => exact ⟨object, _, rfl, by simp [operandShape, Leaf.expectation]⟩
  | group left _ _ _ => exact ⟨left, _, rfl, by simp [operandShape, Leaf.expectation]⟩
  | signed sign m _ _ =>
    refine ⟨m, _, rfl, ?_⟩
    cases sign <;> simp [operandShape, Leaf.expectation, Sign.kind]
  | unsigned _ ih | factor _ ih | term _ ih => exact ih
  | product _ _ _ _ ih _ | sum _ _ _ _ ih _ =>
    obtain ⟨i, u, rfl, hi⟩ := ih
    exact ⟨i, _, rfl, hi⟩

variable {inner : Reader Expr}

theorem matches_primary (h : inner.Matches (Operand .sum) operandShape n) :
    (primary inner).Matches (Operand .primary)
      ⟨false, [.kind .number, .kind .string, .kind .identifier, .kind .lparen], [.kind .dot]⟩
      (n + 1) := by
  have hstring : stringOperand.Matches _ _ (n + 1) :=
    matches_string.leafBind fun x => Matches.pure (Expr.literal (.string x.1 x.2))
  have hgroup : (parenthesized inner).Matches _ _ (n + 1) :=
    (matches_kind .lparen).bind_succ rfl (fun _ => h.bind
      (fun e => (matches_kind .rparen).leafBind fun _ => Matches.pure e) (by decide)) (by decide)
  refine Matches.congr (matches_number.or (hstring.or (matches_nameOrAttribute.or hgroup rfl rfl
    (by decide)) rfl rfl (by decide)) rfl rfl (by decide)) fun s e => ⟨?_, ?_⟩
  · rintro (⟨m, k, rfl, hk, rfl⟩ | h | (⟨m, rfl, rfl⟩ | ⟨object, dot, name, rfl, rfl⟩) | h)
    · exact .number m hk
    · obtain ⟨m, _, rfl, rfl, rfl⟩ := Phrase.leaf_seq_iff.mp h
      exact .string m
    · exact .name m
    · exact .access object dot name
    · obtain ⟨left, _, rfl, s, _, e, rfl, he, h⟩ := Phrase.leaf_seq_iff.mp h
      obtain ⟨right, _, rfl, rfl, rfl⟩ := Phrase.leaf_seq_iff.mp h
      exact .group left he right
  · intro h
    cases h with
    | number m hk => exact Or.inl ⟨m, _, rfl, hk, rfl⟩
    | string m => exact Or.inr (Or.inl (Phrase.leaf_seq_iff.mpr ⟨m, [], rfl, rfl, rfl⟩))
    | name m => exact Or.inr (Or.inr (Or.inl (Or.inl ⟨m, rfl, rfl⟩)))
    | access object dot name =>
      exact Or.inr (Or.inr (Or.inl (Or.inr ⟨object, dot, name, rfl, rfl⟩)))
    | group left he right =>
      exact Or.inr (Or.inr (Or.inr (Phrase.leaf_seq_iff.mpr ⟨left, _, rfl, _, _, _, rfl, he,
        Phrase.leaf_seq_iff.mpr ⟨right, [], rfl, rfl, rfl⟩⟩)))

/-- A sign and its line. -/
def signMark : Phrase (Sign × Nat) := fun s x =>
  ∃ (sign : Sign) (m : (Leaf.kind sign.kind).Match), s = [↑m] ∧ x = (sign, m.line)

theorem matches_sign : sign.Matches signMark ⟨false, [.kind .plus, .kind .minus], []⟩ n := by
  have hsign : ∀ sign : Sign, (Reader.leaf (.kind sign.kind) fun t =>
      if t.kind = sign.kind then some (sign, t.line) else none).Matches
      (Phrase.leaf (.kind sign.kind) fun m => (sign, m.line)) (.leaf (.kind sign.kind)) n := by
    intro sign
    refine Matches.leaf (l := .kind sign.kind) ⟨⟨sign.kind, .text "", 0, 0⟩, rfl⟩
      (fun m => ?_) fun t ht => ?_
    · exact if_pos m.fits
    · exact if_neg ht
  refine Matches.congr ((hsign .plus).or (hsign .minus) rfl rfl (by decide)) fun s x => ⟨?_, ?_⟩
  · rintro (⟨m, rfl, rfl⟩ | ⟨m, rfl, rfl⟩)
    · exact ⟨.plus, m, rfl, rfl⟩
    · exact ⟨.minus, m, rfl, rfl⟩
  · rintro ⟨sign, m, rfl, rfl⟩
    cases sign with
    | plus => exact Or.inl ⟨m, rfl, rfl⟩
    | minus => exact Or.inr ⟨m, rfl, rfl⟩

theorem exists_signs_of_signed : ∀ {s : List Item} {e : Expr}, Operand .signed s e →
    ∃ u v signs f, s = u ++ v ∧ signMark.Star u signs ∧ Operand .primary v f ∧
      signs.foldr (fun (sign, line) operand => .unary sign operand line) f = e
  | _, _, .unsigned h => ⟨[], _, [], _, rfl, .nil, h, rfl⟩
  | _, _, .signed sign m h => by
    obtain ⟨u, v, signs, f, rfl, hu, hv, rfl⟩ := exists_signs_of_signed h
    exact ⟨_, v, _, f, rfl, .cons ⟨sign, m, rfl, rfl⟩ hu, hv, rfl⟩

theorem matches_signed (h : inner.Matches (Operand .sum) operandShape n) :
    (signed inner).Matches (Operand .signed) ⟨false, operandShape.first, [.kind .dot]⟩
      (n + 1) := by
  have hsigns := matches_sign.many (n := n + 1) rfl (by decide)
  refine Matches.congr (hsigns.bind (fun signs => (matches_primary h).map _) (by decide))
    fun s e => ⟨?_, ?_⟩
  · rintro ⟨u, v, signs, rfl, hu, e, he, rfl⟩
    induction hu with
    | nil => exact .unsigned he
    | cons h _ ih =>
      obtain ⟨sign, m, rfl, rfl⟩ := h
      exact .signed sign m ih
  · intro h
    obtain ⟨u, v, signs, f, rfl, hu, hv, rfl⟩ := exists_signs_of_signed h
    exact ⟨u, v, signs, rfl, hu, f, hv, rfl⟩

/-- One of some operations, as a function of its operands. -/
def operatorMark (ops : List BinaryOp) : Phrase (Expr → Expr → Expr) := fun s f =>
  ∃ op ∈ ops, ∃ m : (Leaf.kind op.kind).Match, s = [↑m] ∧ f = .combine op

theorem matches_operators (a b : BinaryOp)
    (hsep : Separate [.kind a.kind] [.kind b.kind]) :
    ((keyword a.kind (Expr.combine a)).or (keyword b.kind (Expr.combine b))).Matches
      (operatorMark [a, b]) ⟨false, [.kind a.kind, .kind b.kind], []⟩ n := by
  refine Matches.congr ((matches_keyword _ _).or (matches_keyword _ _) rfl rfl hsep)
    fun s f => ⟨?_, ?_⟩
  · rintro (⟨m, rfl, rfl⟩ | ⟨m, rfl, rfl⟩)
    · exact ⟨a, by simp, m, rfl, rfl⟩
    · exact ⟨b, by simp, m, rfl, rfl⟩
  · rintro ⟨op, hop, m, rfl, rfl⟩
    simp only [List.mem_cons, List.not_mem_nil, or_false] at hop
    rcases hop with rfl | rfl
    · exact Or.inl ⟨m, rfl, rfl⟩
    · exact Or.inr ⟨m, rfl, rfl⟩

theorem joined_of_product : ∀ {s : List Item} {e : Expr}, Operand .product s e →
    (Operand .signed).Joined (operatorMark Level.product.operators) s e
  | _, _, .factor h => .one h
  | _, _, .product he hop m hf => .more (joined_of_product he) ⟨_, hop, m, rfl, rfl⟩ hf

theorem joined_of_sum : ∀ {s : List Item} {e : Expr}, Operand .sum s e →
    (Operand .product).Joined (operatorMark Level.sum.operators) s e
  | _, _, .term h => .one h
  | _, _, .sum he hop m hf => .more (joined_of_sum he) ⟨_, hop, m, rfl, rfl⟩ hf

theorem matches_product (h : inner.Matches (Operand .sum) operandShape n) :
    (product inner).Matches (Operand .product)
      ⟨false, operandShape.first, [.kind .dot, .kind .times, .kind .divide]⟩ (n + 1) := by
  have hchain := (matches_signed h).chain (matches_operators .mul .div (by decide)) rfl rfl
    (by decide) (by decide)
  refine (hchain.reshape (by decide) (by decide) (by decide)).congr fun s e =>
    ⟨fun hs => ?_, joined_of_product⟩
  induction hs with
  | one h => exact .factor h
  | more _ ho hr ih =>
    obtain ⟨op, hop, m, rfl, rfl⟩ := ho
    exact .product ih hop m hr

theorem matches_sum (h : inner.Matches (Operand .sum) operandShape n) :
    (sum inner).Matches (Operand .sum) operandShape (n + 1) := by
  have hchain := (matches_product h).chain (matches_operators .add .sub (by decide)) rfl rfl
    (by decide) (by decide)
  refine (hchain.reshape (by decide) (by decide) (by decide)).congr fun s e =>
    ⟨fun hs => ?_, joined_of_sum⟩
  induction hs with
  | one h => exact .term h
  | more _ ho hr ih =>
    obtain ⟨op, hop, m, rfl, rfl⟩ := ho
    exact .sum ih hop m hr

/-- With parentheses nested less than `depth` deep, operands are read from fewer than `depth`
tokens. -/
theorem matches_nestedOperand (depth : Nat) :
    (nestedOperand depth).Matches (Operand .sum) operandShape depth := by
  induction depth with
  | zero =>
    refine ⟨fun ts hts => absurd hts (Nat.not_lt_zero _),
      fun ts hts => absurd hts (Nat.not_lt_zero _),
      ⟨_, _, .term (.factor (.unsigned (.string ⟨⟨.string, .text "", 0, 0⟩, rfl⟩)))⟩, ?_, ?_⟩
    · intro e he
      obtain ⟨i, u, hnil, -⟩ := operand_first he
      exact absurd hnil.symm (List.cons_ne_nil i u)
    · rintro x ⟨i, s, e, he, rfl⟩
      obtain ⟨j, u, hcons, hj⟩ := operand_first he
      obtain ⟨rfl, rfl⟩ := List.cons.inj hcons
      exact hj
  | succ depth ih => exact matches_sum ih

theorem matches_operand : operand.Matches (Operand .sum) operandShape n where
  exact ts _ := (matches_nestedOperand (ts.length + 1)).exact ts (Nat.lt_succ_self _)
  onward ts _ := (matches_nestedOperand (ts.length + 1)).onward ts (Nat.lt_succ_self _)
  possible := (matches_nestedOperand n).possible
  nullable := (matches_nestedOperand n).nullable
  first := (matches_nestedOperand n).first

/-! ## Conditions -/

theorem matches_relation :
    relation.Matches (fun s r => ∃ m : (Leaf.kind r.kind).Match, s = [↑m])
      ⟨false, [.kind .eq, .kind .ne, .kind .le, .kind .ge, .kind .lt, .kind .gt], []⟩ n := by
  refine Matches.congr ((matches_keyword _ _).or ((matches_keyword _ _).or ((matches_keyword _ _).or
    ((matches_keyword _ _).or ((matches_keyword _ _).or (matches_keyword _ _) rfl rfl (by decide))
    rfl rfl (by decide)) rfl rfl (by decide)) rfl rfl (by decide)) rfl rfl (by decide))
    fun s r => ⟨?_, ?_⟩
  · rintro (⟨m, rfl, rfl⟩ | ⟨m, rfl, rfl⟩ | ⟨m, rfl, rfl⟩ | ⟨m, rfl, rfl⟩ | ⟨m, rfl, rfl⟩ |
      ⟨m, rfl, rfl⟩) <;> exact ⟨m, rfl⟩
  · rintro ⟨m, rfl⟩
    cases r with
    | eq => exact Or.inl ⟨m, rfl, rfl⟩
    | ne => exact Or.inr (Or.inl ⟨m, rfl, rfl⟩)
    | le => exact Or.inr (Or.inr (Or.inl ⟨m, rfl, rfl⟩))
    | ge => exact Or.inr (Or.inr (Or.inr (Or.inl ⟨m, rfl, rfl⟩)))
    | lt => exact Or.inr (Or.inr (Or.inr (Or.inr (Or.inl ⟨m, rfl, rfl⟩))))
    | gt => exact Or.inr (Or.inr (Or.inr (Or.inr (Or.inr ⟨m, rfl, rfl⟩))))

theorem matches_comparison : comparison.Matches Compared operandShape n := by
  refine (Matches.reshape (matches_operand.bind (fun left => matches_relation.bind (fun r =>
    matches_operand.bind (fun right => Matches.pure _) (by decide)) (by decide)) (by decide))
    (by decide) (by decide) (by decide)).congr fun s c => ⟨?_, ?_⟩
  · rintro ⟨u, _, e, rfl, he, _, _, r, rfl, ⟨m, rfl⟩, v, _, f, rfl, hf, rfl, rfl⟩
    rw [List.append_nil]
    exact .mk he r m hf
  · rintro ⟨he, r, m, hf⟩
    exact ⟨_, _, _, rfl, he, [↑m], _, r, rfl, ⟨m, rfl⟩, _, [], _, (List.append_nil _).symm, hf,
      rfl, rfl⟩

/-- The shape of a conjunction. -/
def conjunctionShape : Shape where
  nullable := false
  first := operandShape.first
  onward := .kind .and :: operandShape.onward

theorem matches_conjunction : conjunction.Matches Conjunction conjunctionShape n := by
  have hchain := (matches_comparison (n := n).map Condition.comparison).chain
    (matches_keyword .and Condition.both) rfl rfl (by decide) (by decide)
  refine (hchain.reshape (by decide) (by decide) (by decide)).congr fun s c => ⟨fun h => ?_,
    fun h => ?_⟩
  · induction h with
    | one h =>
      obtain ⟨c, hc, rfl⟩ := h
      exact .one hc
    | more _ ho hr ih =>
      obtain ⟨m, rfl, rfl⟩ := ho
      obtain ⟨c, hc, rfl⟩ := hr
      exact .more ih m hc
  · induction h with
    | one h => exact .one ⟨_, h, rfl⟩
    | more _ m hc ih => exact .more ih ⟨m, rfl, rfl⟩ ⟨_, hc, rfl⟩

theorem matches_condition :
    condition.Matches Disjunction
      ⟨false, operandShape.first, .kind .or :: conjunctionShape.onward⟩ n := by
  have hchain := (matches_conjunction (n := n)).chain
    (matches_keyword .or Condition.either) rfl rfl (by decide) (by decide)
  refine (hchain.reshape (by decide) (by decide) (by decide)).congr fun s c => ⟨fun h => ?_,
    fun h => ?_⟩
  · induction h with
    | one h => exact .one h
    | more _ ho hr ih =>
      obtain ⟨m, rfl, rfl⟩ := ho
      exact .more ih m hr
  · induction h with
    | one h => exact .one h
    | more _ m hc ih => exact .more ih ⟨m, rfl, rfl⟩ hc

end AccessPolicy.Reader
