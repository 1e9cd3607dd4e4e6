import AccessPolicy.Proofs.Grammar.Parse
import AccessPolicy.Proofs.Source.Spelling

/-!
# The programs of texts

A program that is parsed from a text has a normal form (`Program.Normal`) : its names are words
that are no keywords, its numbers are not negative, its strings hold no quote and no line feed,
there is no wildcard among its operands, and the comparisons of a condition are joined by `AND`
and then by `OR`, both from the left. Documents can encode programs that are not in this form.
-/

namespace AccessPolicy

open Grammar

/-! ## Names -/

namespace Token

/-- The text is read as a name. -/
def IsName (w : String) : Prop :=
  Lexeme.isWord w = true ∧ classify w = (.identifier, w)

/-- The attribute keywords as they are kept in accesses. -/
def attributeKeywords : List String :=
  ["can", "path", "action"]

/-- The text can be the name of an attribute : a name, or a keyword in lower case. -/
def IsAttributeName (w : String) : Prop :=
  IsName w ∨ w ∈ attributeKeywords

/-- What a token of the lexer says fits its kind. -/
def Proper : Content → Prop
  | (.identifier, v) => ∃ w, v = .text w ∧ IsName w
  | (.can, v) | (.path, v) | (.action, v) =>
    ∃ w, v = .text w ∧ smallLetters w ∈ attributeKeywords
  | (.number, v) => ∃ n : Nat, v = .number n ∧ n ≤ maxInt64
  | (.string, v) => ∃ s, v = .text s ∧ Lexeme.isQuotable s = true
  | _ => True

theorem attributeKeyword?_cases {w : String} {k : Kind} (h : attributeKeyword? w = some k) :
    (w = "CAN" ∧ k = .can) ∨ (w = "PATH" ∧ k = .path) ∨ (w = "ACTION" ∧ k = .action) := by
  unfold attributeKeyword? at h
  split at h <;> cases h <;> simp

theorem Lexed.proper {c : Content} (h : Lexed c) : Proper c := by
  cases h with
  | @word w hw =>
    rw [ofWord]
    rcases classify_cases w with ⟨k, hk, h⟩ | ⟨k, hk, h⟩ | h
    · rw [h]
      unfold structuralKeyword? at hk
      split at hk <;> cases hk <;> trivial
    · rw [h]
      rcases attributeKeyword?_cases hk with ⟨hw, rfl⟩ | ⟨hw, rfl⟩ | ⟨hw, rfl⟩
      · exact ⟨_, rfl, by rw [hw]; decide⟩
      · exact ⟨_, rfl, by rw [hw]; decide⟩
      · exact ⟨_, rfl, by rw [hw]; decide⟩
    · rw [h]
      exact ⟨w, rfl, hw, h⟩
  | number hn => exact ⟨_, rfl, hn⟩
  | string hs => exact ⟨_, rfl, hs⟩
  | symbol lookback s =>
    cases s
    case star =>
      show Proper (Lexeme.starKind lookback, _)
      rcases Lexeme.starKind_cases lookback with h | h
      · rw [h]
        trivial
      · rw [h]
        trivial
    all_goals trivial

end Token

/-! ## Normal forms -/

/-- A name, a number that is not negative, or a string without quotes. -/
def Literal.Normal : Literal → Prop
  | identifier w _ => Token.IsName w
  | number n _ => 0 ≤ n ∧ n ≤ maxInt64
  | string s _ => Lexeme.isQuotable s = true
  | wildcard _ => False

/-- The wildcard, or literals in normal form. -/
def ActionSet.Normal : ActionSet → Prop
  | wildcard _ => True
  | named first more => ∀ a ∈ first :: more, a.literal.Normal

/-- The leaves of the operand are in normal form. -/
def Expr.Normal : Expr → Prop
  | binary _ left right _ => left.Normal ∧ right.Normal
  | unary _ operand _ => operand.Normal
  | access a => Token.IsName a.object ∧ Token.IsAttributeName a.name
  | literal l => l.Normal

/-- The operands of the comparison are in normal form. -/
def Comparison.Normal (c : Comparison) : Prop :=
  c.left.Normal ∧ c.right.Normal

/-- The condition is made of comparisons joined by `AND` from the left. -/
def Condition.IsConjunction : Condition → Prop
  | and left (comparison c) _ => left.IsConjunction ∧ c.Normal
  | comparison c => c.Normal
  | _ => False

/-- The condition is made of conjunctions joined by `OR` from the left. -/
def Condition.Normal : Condition → Prop
  | or left right _ => left.Normal ∧ right.IsConjunction
  | c => c.IsConjunction

/-- The names, the path and the parts of the declaration are in normal form. -/
def Declaration.Normal : Declaration → Prop
  | role r => Token.IsName r.name ∧ r.actions.Normal
  | user u => Token.IsName u.name ∧ Token.IsName u.role
  | resource r => Token.IsName r.name ∧ Lexeme.isQuotable r.path = true
  | policy p => p.actions.Normal ∧ Token.IsName p.resource ∧ ∀ c ∈ p.condition, c.Normal

/-- The declarations are in normal form. -/
def Program.Normal (p : Program) : Prop :=
  ∀ d ∈ p.declarations, d.Normal

theorem Condition.IsConjunction.normal {c : Condition} (h : c.IsConjunction) : c.Normal := by
  cases c with
  | or => exact h.elim
  | _ => exact h

/-! ## Derivations over tokens of the lexer -/

/-- The token of the item says what the lexer gives. -/
def Item.Lexed (i : Item) : Prop :=
  Token.Lexed i.token.content

namespace Leaf.Match

theorem proper {l : Leaf} {m : l.Match} (h : Item.Lexed m) :
    Token.Proper (m.token.kind, m.token.value) :=
  Token.Lexed.proper h

theorem isName_written {m : (Leaf.kind .identifier).Match} (h : Item.Lexed m) :
    Token.IsName m.written := by
  have hproper := proper h
  have hkind : m.token.kind = .identifier := m.fits
  rw [hkind] at hproper
  obtain ⟨w, hw, hname⟩ := hproper
  rwa [written, hw]

theorem isQuotable_written {m : (Leaf.kind .string).Match} (h : Item.Lexed m) :
    Lexeme.isQuotable m.written = true := by
  have hproper := proper h
  have hkind : m.token.kind = .string := m.fits
  rw [hkind] at hproper
  obtain ⟨s, hs, hquotable⟩ := hproper
  rwa [written, hs]

theorem number_bounds {m : Leaf.number.Match} (h : Item.Lexed m) {n : Int}
    (hn : m.token.value = .number n) : 0 ≤ n ∧ n ≤ maxInt64 := by
  have hproper := proper h
  rw [m.fits.1, hn] at hproper
  obtain ⟨k, hk, hmax⟩ := hproper
  obtain rfl := Token.Value.number.inj hk
  omega

theorem isAttributeName_attributeText {m : Leaf.attributeName.Match} (h : Item.Lexed m) :
    Token.IsAttributeName m.attributeText := by
  have hproper := proper h
  rw [attributeText, written]
  rcases m.fits with hk | hk | hk | hk
  · rw [hk] at hproper
    obtain ⟨w, hw, hname⟩ := hproper
    rw [if_pos hk, hw]
    exact Or.inl hname
  all_goals
    rw [hk] at hproper
    obtain ⟨w, hw, hmem⟩ := hproper
    rw [if_neg (by rw [hk]; exact Token.Kind.noConfusion), hw]
    exact Or.inr hmem

end Leaf.Match

namespace Grammar

theorem normal_of_operand : ∀ {l : Level} {s : List Item} {e : Expr}, Operand l s e →
    (∀ i ∈ s, i.Lexed) → e.Normal
  | _, _, _, .number m hn, hs => Leaf.Match.number_bounds (hs m (by simp)) hn
  | _, _, _, .string m, hs => Leaf.Match.isQuotable_written (hs m (by simp))
  | _, _, _, .name m, hs => Leaf.Match.isName_written (hs m (by simp))
  | _, _, _, .access object dot name, hs =>
    ⟨Leaf.Match.isName_written (hs object (by simp)),
      Leaf.Match.isAttributeName_attributeText (hs name (by simp))⟩
  | _, _, _, .group left h right, hs => normal_of_operand h fun i hi => hs i (by simp [hi])
  | _, _, _, .unsigned h, hs => normal_of_operand h hs
  | _, _, _, @Operand.signed _ _ _ e h, hs =>
    show e.Normal from normal_of_operand h fun i hi => hs i (by simp [hi])
  | _, _, _, .factor h, hs => normal_of_operand h hs
  | _, _, _, .product he hop m hf, hs =>
    ⟨normal_of_operand he fun i hi => hs i (by simp [hi]),
      normal_of_operand hf fun i hi => hs i (by simp [hi])⟩
  | _, _, _, .term h, hs => normal_of_operand h hs
  | _, _, _, .sum he hop m hf, hs =>
    ⟨normal_of_operand he fun i hi => hs i (by simp [hi]),
      normal_of_operand hf fun i hi => hs i (by simp [hi])⟩

theorem normal_of_compared {s : List Item} {c : Comparison} (h : Compared s c)
    (hs : ∀ i ∈ s, i.Lexed) : c.Normal := by
  obtain ⟨he, r, m, hf⟩ := h
  exact ⟨normal_of_operand he fun i hi => hs i (by simp [hi]),
    normal_of_operand hf fun i hi => hs i (by simp [hi])⟩

theorem isConjunction_of_conjunction {s : List Item} {c : Condition} (h : Conjunction s c)
    (hs : ∀ i ∈ s, i.Lexed) : c.IsConjunction := by
  induction h with
  | one h => exact normal_of_compared h hs
  | more _ m hc ih =>
    exact ⟨ih fun i hi => hs i (by simp [hi]),
      normal_of_compared hc fun i hi => hs i (by simp [hi])⟩

theorem normal_of_disjunction {s : List Item} {c : Condition} (h : Disjunction s c)
    (hs : ∀ i ∈ s, i.Lexed) : c.Normal := by
  induction h with
  | one h => exact (isConjunction_of_conjunction h hs).normal
  | more _ m hc ih =>
    exact ⟨ih fun i hi => hs i (by simp [hi]),
      isConjunction_of_conjunction hc fun i hi => hs i (by simp [hi])⟩

theorem normal_of_names {s : List Item} {as : List ActionName} (h : Names s as)
    (hs : ∀ i ∈ s, i.Lexed) : ∀ a ∈ as, a.literal.Normal := by
  have hname : ∀ {s a}, Named s a → (∀ i ∈ s, i.Lexed) → a.literal.Normal := by
    intro s a h hs
    cases h with
    | bare m => exact Leaf.Match.isName_written (hs m (by simp))
    | quoted m => exact Leaf.Match.isQuotable_written (hs m (by simp))
  induction h with
  | one h => exact List.forall_mem_singleton.mpr (hname h hs)
  | more h comma _ ih =>
    exact List.forall_mem_cons.mpr
      ⟨hname h fun i hi => hs i (by simp [hi]), ih fun i hi => hs i (by simp [hi])⟩

theorem normal_of_actions {s : List Item} {a : ActionSet} (h : Actions s a)
    (hs : ∀ i ∈ s, i.Lexed) : a.Normal := by
  cases h with
  | wildcard m => trivial
  | named h => exact normal_of_names h hs

theorem normal_of_guard {s : List Item} {c : Option Condition} (h : Guard s c)
    (hs : ∀ i ∈ s, i.Lexed) : ∀ d ∈ c, d.Normal := by
  cases h with
  | none => simp
  | some opening left h right =>
    intro d hd
    obtain rfl := Option.some.inj hd
    exact normal_of_disjunction h fun i hi => hs i (by simp [hi])

theorem normal_of_declared {s : List Item} {d : Declaration} (h : Declared s d)
    (hs : ∀ i ∈ s, i.Lexed) : d.Normal := by
  rcases h with ⟨keyword, name, left, can, colon, ha, right⟩ |
    ⟨keyword, name, left, field, colon, role, right⟩ |
    ⟨keyword, name, left, field, colon, path, right⟩ |
    ⟨effect, keyword, action, colon, ha, on, field, colon', resource, hc⟩
  · exact ⟨Leaf.Match.isName_written (hs name (by simp)),
      normal_of_actions ha fun i hi => hs i (by simp [hi])⟩
  · exact ⟨Leaf.Match.isName_written (hs name (by simp)),
      Leaf.Match.isName_written (hs role (by simp))⟩
  · exact ⟨Leaf.Match.isName_written (hs name (by simp)),
      Leaf.Match.isQuotable_written (hs path (by simp))⟩
  · exact ⟨normal_of_actions ha fun i hi => hs i (by simp [hi]),
      Leaf.Match.isName_written (hs resource (by simp)),
      normal_of_guard hc fun i hi => hs i (by simp [hi])⟩

theorem normal_of_declarations {s : List Item} {ds : List Declaration} (h : Declarations s ds)
    (hs : ∀ i ∈ s, i.Lexed) : ∀ d ∈ ds, d.Normal := by
  induction h with
  | nil => simp
  | cons h _ ih =>
    exact List.forall_mem_cons.mpr
      ⟨normal_of_declared h fun i hi => hs i (by simp [hi]), ih fun i hi => hs i (by simp [hi])⟩

end Grammar

/-- The program of a text is in normal form. -/
theorem Program.normal_of_ofSource {source : String} {p : Program} (h : ofSource source = .ok p) :
    p.Normal := by
  obtain ⟨ds, ⟨s, hs, hds⟩, rfl⟩ := parse_eq_ok_iff.mp h
  refine normal_of_declarations hds fun i hi => ?_
  have hmem : i.token ∈ (tokenize source).tokens := by
    rw [← hs]
    exact List.mem_map_of_mem hi
  exact Token.lexed_of_mem_tokenize hmem

end AccessPolicy
