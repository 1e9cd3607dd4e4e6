import AccessPolicy.Proofs.Source.Normal

/-!
# Printing programs

`Program.source` writes every declaration of a program on a line of its own. Conditions are
written without parentheses around `AND` and `OR`, because the grammar has none. What the tokens
of that text say is listed beside it (`Program.contents`), and the text of a program in normal
form spells just these (`Program.spells_source`).

The lemmas about parts say this with any characters after the part, so that neighbours can be
put together. What they ask of those characters is that no word goes on there.
-/

namespace AccessPolicy

open TokenStream (Spells)

/-! ## Texts -/

/-- A condition in writing, with no parentheses around `AND` and `OR`. -/
def Condition.source : Condition → String
  | and left right _ => left.source ++ " AND " ++ right.source
  | or left right _ => left.source ++ " OR " ++ right.source
  | comparison c => c.text

/-- The condition of a policy in writing. -/
def Policy.guardSource (p : Policy) : String :=
  match p.condition with
  | none => ""
  | some c => " IF (" ++ c.source ++ ")"

/-- A declaration in writing. -/
def Declaration.source : Declaration → String
  | role r => "ROLE " ++ r.name ++ " \x7bcan: " ++ r.actions.text ++ "\x7d"
  | user u => "USER " ++ u.name ++ " \x7brole: " ++ u.role ++ "\x7d"
  | resource r => "RESOURCE " ++ r.name ++ " \x7bpath: \"" ++ r.path ++ "\"\x7d"
  | policy p =>
    p.effect.keyword ++ " action: " ++ p.actions.text ++ " ON resource: " ++ p.resource ++
      p.guardSource

/-- A program in writing, one declaration on a line. -/
def Program.source (p : Program) : String :=
  String.join (p.declarations.map fun d => d.source ++ "\n")

/-! ## What their tokens say -/

/-- The symbol that writes an operation. -/
def BinaryOp.mark : BinaryOp → Symbol
  | add => .plus
  | sub => .minus
  | mul => .star
  | div => .divide

/-- The symbol that writes a sign. -/
def Sign.mark : Sign → Symbol
  | plus => .plus
  | minus => .minus

/-- The symbol that writes a relation. -/
def Relation.mark : Relation → Symbol
  | eq => .eq
  | ne => .ne
  | lt => .lt
  | gt => .gt
  | le => .le
  | ge => .ge

/-- What the token of a literal says. -/
def Literal.content : Literal → Token.Content
  | identifier w _ => Token.ofWord w
  | number n _ => (.number, .number n)
  | string s _ => (.string, .text s)
  | wildcard _ => Token.ofSymbol .wildcard .star

/-- What the tokens of an operand say. -/
def Expr.contents : Expr → List Token.Content
  | binary op left right _ =>
    Token.ofSymbol .times .lparen :: (left.contents ++ Token.ofSymbol .times op.mark ::
      (right.contents ++ [Token.ofSymbol .times .rparen]))
  | unary sign operand _ => Token.ofSymbol .times sign.mark :: operand.contents
  | access a => [Token.ofWord a.object, Token.ofSymbol .times .dot, Token.ofWord a.name]
  | literal l => [l.content]

/-- What the tokens of a comparison say. -/
def Comparison.contents (c : Comparison) : List Token.Content :=
  c.left.contents ++ Token.ofSymbol .times c.relation.mark :: c.right.contents

/-- What the tokens of a condition say. -/
def Condition.contents : Condition → List Token.Content
  | and left right _ => left.contents ++ Token.ofWord "AND" :: right.contents
  | or left right _ => left.contents ++ Token.ofWord "OR" :: right.contents
  | comparison c => c.contents

/-- What the tokens of names between commas say. -/
def ActionName.listContents : ActionName → List ActionName → List Token.Content
  | a, [] => [a.literal.content]
  | a, b :: more => a.literal.content :: Token.ofSymbol .times .comma :: listContents b more

/-- What the tokens of a set say. -/
def ActionSet.contents : ActionSet → List Token.Content
  | wildcard _ => [Token.ofSymbol .wildcard .star]
  | named first more => ActionName.listContents first more

/-- What the tokens of the condition of a policy say. -/
def Policy.guardContents (p : Policy) : List Token.Content :=
  match p.condition with
  | none => []
  | some c =>
    Token.ofWord "IF" :: Token.ofSymbol .times .lparen ::
      (c.contents ++ [Token.ofSymbol .times .rparen])

/-- What the tokens of a declaration say. -/
def Declaration.contents : Declaration → List Token.Content
  | role r =>
    Token.ofWord "ROLE" :: Token.ofWord r.name :: Token.ofSymbol .times .lbrace ::
      Token.ofWord "can" :: Token.ofSymbol .times .colon ::
        (r.actions.contents ++ [Token.ofSymbol .times .rbrace])
  | user u =>
    [Token.ofWord "USER", Token.ofWord u.name, Token.ofSymbol .times .lbrace,
      Token.ofWord "role", Token.ofSymbol .times .colon, Token.ofWord u.role,
      Token.ofSymbol .times .rbrace]
  | resource r =>
    [Token.ofWord "RESOURCE", Token.ofWord r.name, Token.ofSymbol .times .lbrace,
      Token.ofWord "path", Token.ofSymbol .times .colon, (.string, .text r.path),
      Token.ofSymbol .times .rbrace]
  | policy p =>
    Token.ofWord p.effect.keyword :: Token.ofWord "action" :: Token.ofSymbol .times .colon ::
      (p.actions.contents ++ Token.ofWord "ON" :: Token.ofWord "resource" ::
        Token.ofSymbol .times .colon :: Token.ofWord p.resource :: p.guardContents)

/-- What the tokens of a program say. -/
def Program.contents (p : Program) : List Token.Content :=
  p.declarations.flatMap Declaration.contents

/-! ## Operands -/

/-- No word goes on in these characters. -/
def WordEnds (rest : List Char) : Prop :=
  ∀ c ∈ rest.head?, Lexeme.isWordPart c = false

section Spells

variable {star : Token.Kind} {rest : List Char} {ws : List Token.Content}

theorem BinaryOp.spells (op : BinaryOp) (h : Spells .times rest ws) :
    Spells .times (op.symbol.toList ++ rest) (Token.ofSymbol .times op.mark :: ws) := by
  cases op
  · exact Spells.symbol .plus nofun h
  · exact Spells.symbol .minus nofun h
  · exact Spells.symbol .star nofun h
  · exact Spells.symbol .divide nofun h

theorem Sign.spells (sign : Sign) (h : Spells .times rest ws) :
    Spells star (sign.symbol.toList ++ rest) (Token.ofSymbol .times sign.mark :: ws) := by
  cases sign
  · exact Spells.symbol .plus nofun h
  · exact Spells.symbol .minus nofun h

theorem Relation.spells (r : Relation) (hrest : ∀ d ∈ rest.head?, d ≠ '=')
    (h : Spells .times rest ws) :
    Spells .times (r.symbol.toList ++ rest) (Token.ofSymbol .times r.mark :: ws) := by
  cases r
  · exact Spells.symbol .eq nofun h
  · exact Spells.symbol .ne nofun h
  · exact Spells.symbol .lt (fun _ => hrest) h
  · exact Spells.symbol .gt (fun _ => hrest) h
  · exact Spells.symbol .le nofun h
  · exact Spells.symbol .ge nofun h

theorem wordEnds_of_cons {c : Char} {cs : List Char} (h : Lexeme.isWordPart c = false) :
    WordEnds (c :: cs) := by
  intro d hd
  obtain rfl := Option.some.inj hd
  exact h

theorem WordEnds.isDigit (h : WordEnds rest) : ∀ c ∈ rest.head?, c.isDigit = false := by
  intro c hc
  have hword := h c hc
  simp only [Lexeme.isWordPart, Char.isAlphanum, Bool.or_eq_false_iff] at hword
  exact hword.1.2

theorem Literal.spells {l : Literal} (hl : l.Normal) (hrest : WordEnds rest)
    (h : Spells .times rest ws) : Spells star (l.text.toList ++ rest) (l.content :: ws) := by
  cases l with
  | identifier w => exact Spells.word hl.1 hrest h
  | number n =>
    obtain ⟨k, rfl⟩ := Int.eq_ofNat_of_zero_le hl.1
    exact Spells.number (Int.ofNat_le.mp hl.2) hrest.isDigit h
  | string s =>
    have hspells : Spells star _ ((.string, .text s) :: ws) := Spells.string hl h
    simpa [text, content] using hspells
  | wildcard => exact hl.elim

theorem isWord_of_isAttributeName {w : String} (h : Token.IsAttributeName w) :
    Lexeme.isWord w = true := by
  rcases h with h | h
  · exact h.1
  · simp only [Token.attributeKeywords, List.mem_cons, List.not_mem_nil, or_false] at h
    rcases h with rfl | rfl | rfl <;> decide

/-- An operand is read back as long as no word goes on after it. -/
theorem Expr.spells {e : Expr} (he : e.Normal) {star : Token.Kind} {rest : List Char}
    {ws : List Token.Content} (hrest : WordEnds rest) (h : Spells .times rest ws) :
    Spells star (e.text.toList ++ rest) (e.contents ++ ws) := by
  induction e generalizing star rest ws with
  | binary op left right line ihl ihr =>
    have hclose : Spells .times (')' :: rest) (Token.ofSymbol .times .rparen :: ws) :=
      Spells.symbol .rparen nofun h
    have hright : Spells .times _ _ := ihr he.2 (wordEnds_of_cons (by rfl)) hclose
    have hop := op.spells (.blank (c := ' ') rfl hright)
    have hleft : Spells .times _ _ :=
      ihl he.1 (wordEnds_of_cons (by rfl)) (.blank (c := ' ') rfl hop)
    have hopen : Spells star ('(' :: _) (Token.ofSymbol .times .lparen :: _) :=
      Spells.symbol .lparen nofun hleft
    simpa [text, contents] using hopen
  | unary sign operand line ih =>
    have hsign : Spells star _ _ := sign.spells (ih he hrest h)
    simpa [text, contents] using hsign
  | access a =>
    have hname : Spells .times _ _ := Spells.word (isWord_of_isAttributeName he.2) hrest h
    have hdot : Spells .times ('.' :: _) (Token.ofSymbol .times .dot :: _) :=
      Spells.symbol .dot nofun hname
    have hobject : Spells star _ _ := Spells.word he.1.1 (wordEnds_of_cons (by rfl)) hdot
    simpa [text, AttributeAccess.text, contents] using hobject
  | literal l => exact Literal.spells he hrest h

/-! ## Conditions -/

theorem Comparison.spells {c : Comparison} (hc : c.Normal) (hrest : WordEnds rest)
    (h : Spells .times rest ws) : Spells star (c.text.toList ++ rest) (c.contents ++ ws) := by
  have hright : Spells .times _ _ := c.right.spells hc.2 hrest h
  have hrelation := c.relation.spells (by simp) (.blank (c := ' ') rfl hright)
  have hleft : Spells star _ _ :=
    c.left.spells hc.1 (wordEnds_of_cons (by rfl)) (.blank (c := ' ') rfl hrelation)
  simpa [text, contents] using hleft

theorem Condition.IsConjunction.spells {c : Condition} (hc : c.IsConjunction)
    {star : Token.Kind} {rest : List Char} {ws : List Token.Content} (hrest : WordEnds rest)
    (h : Spells .times rest ws) : Spells star (c.source.toList ++ rest) (c.contents ++ ws) := by
  induction c generalizing star rest ws with
  | and left right line ihl _ =>
    cases right with
    | comparison c =>
      have hright : Spells .times _ _ := c.spells hc.2 hrest h
      have hand : Spells .times _ _ :=
        Spells.word (w := "AND") rfl (wordEnds_of_cons (by rfl)) (.blank (c := ' ') rfl hright)
      have hleft : Spells star _ _ :=
        ihl hc.1 (wordEnds_of_cons (by rfl)) (.blank (c := ' ') rfl hand)
      simpa [source, contents] using hleft
    | _ => exact False.elim hc
  | or => exact False.elim hc
  | comparison c => exact c.spells hc hrest h

theorem Condition.spells {c : Condition} (hc : c.Normal) {star : Token.Kind} {rest : List Char}
    {ws : List Token.Content} (hrest : WordEnds rest) (h : Spells .times rest ws) :
    Spells star (c.source.toList ++ rest) (c.contents ++ ws) := by
  induction c generalizing star rest ws with
  | or left right line ihl _ =>
    have hright : Spells .times _ _ := hc.2.spells hrest h
    have hor : Spells .times _ _ :=
      Spells.word (w := "OR") rfl (wordEnds_of_cons (by rfl)) (.blank (c := ' ') rfl hright)
    have hleft : Spells star _ _ :=
      ihl hc.1 (wordEnds_of_cons (by rfl)) (.blank (c := ' ') rfl hor)
    simpa [source, contents] using hleft
  | and left right line _ _ => exact Condition.IsConjunction.spells hc hrest h
  | comparison c => exact Condition.IsConjunction.spells hc hrest h

/-! ## Declarations -/

theorem ActionName.spells_list {first : ActionName} {more : List ActionName}
    (ha : ∀ a ∈ first :: more, a.literal.Normal) {star : Token.Kind} (hrest : WordEnds rest)
    (h : Spells .times rest ws) :
    Spells star
      ((", ".intercalate ((first :: more).map fun a => a.literal.text)).toList ++ rest)
      (listContents first more ++ ws) := by
  induction more generalizing first star with
  | nil => simpa [listContents] using Literal.spells (ha first (by simp)) hrest h
  | cons b more ih =>
    have hmore : Spells .times _ _ := ih fun a h => ha a (List.mem_cons_of_mem first h)
    have hcomma : Spells .times (',' :: _) (Token.ofSymbol .times .comma :: _) :=
      Spells.symbol .comma nofun (.blank (c := ' ') rfl hmore)
    have hfirst : Spells star _ _ :=
      Literal.spells (ha first (by simp)) (wordEnds_of_cons (by rfl)) hcomma
    simpa [listContents] using hfirst

theorem ActionSet.spells {a : ActionSet} (ha : a.Normal) (hrest : WordEnds rest)
    (h : Spells .times rest ws) :
    Spells .wildcard (a.text.toList ++ rest) (a.contents ++ ws) := by
  cases a with
  | wildcard line =>
    have hstar : Spells .wildcard ('*' :: rest) (Token.ofSymbol .wildcard .star :: ws) :=
      Spells.symbol .star nofun h
    simpa [text, literals, Literal.text, contents] using hstar
  | named first more =>
    have hnames : Spells .wildcard _ _ := ActionName.spells_list ha hrest h
    simpa [text, literals, contents, Function.comp_def] using hnames

theorem Effect.isWord_keyword (e : Effect) : Lexeme.isWord e.keyword = true := by
  cases e <;> rfl

theorem Policy.spells_guard {p : Policy} (hp : ∀ c ∈ p.condition, c.Normal)
    (h : Spells .times rest ws) :
    Spells .times (p.guardSource.toList ++ rest) (p.guardContents ++ ws) := by
  rw [guardSource, guardContents]
  cases hc : p.condition with
  | none => simpa using h
  | some c =>
    have hclose : Spells .times (')' :: rest) (Token.ofSymbol .times .rparen :: ws) :=
      Spells.symbol .rparen nofun h
    have hcondition : Spells .times _ _ := c.spells (hp c hc) (wordEnds_of_cons (by rfl)) hclose
    have hopen : Spells .times ('(' :: _) (Token.ofSymbol .times .lparen :: _) :=
      Spells.symbol .lparen nofun hcondition
    have hif : Spells .times _ _ :=
      Spells.word (w := "IF") rfl (wordEnds_of_cons (by rfl)) (.blank (c := ' ') rfl hopen)
    simpa using Spells.blank (c := ' ') rfl hif

theorem Policy.wordEnds_guard (p : Policy) (hrest : WordEnds rest) :
    WordEnds (p.guardSource.toList ++ rest) := by
  rw [guardSource]
  cases p.condition with
  | none => simpa using hrest
  | some c =>
    intro d hd
    obtain rfl : ' ' = d := by simpa using hd
    rfl

/-- The name of a field is followed by a colon, and a `*` after that is a wildcard. -/
theorem spells_field (field : String) (hfield : Lexeme.isWord field = true)
    (h : Spells .wildcard rest ws) : Spells star (field.toList ++ ':' :: ' ' :: rest)
      (Token.ofWord field :: Token.ofSymbol .times .colon :: ws) := by
  have hcolon : Spells .times (':' :: _) (Token.ofSymbol .times .colon :: _) :=
    Spells.symbol .colon nofun (.blank (c := ' ') rfl h)
  exact Spells.word hfield (wordEnds_of_cons (by rfl)) hcolon

/-- The opening of a declaration with a single field in braces. -/
theorem spells_opening (keyword field : String) {name : String}
    (hkeyword : Lexeme.isWord keyword = true) (hname : Lexeme.isWord name = true)
    (hfield : Lexeme.isWord field = true) (h : Spells .wildcard rest ws) :
    Spells star
      (keyword.toList ++ ' ' ::
        (name.toList ++ ' ' :: '\x7b' :: (field.toList ++ ':' :: ' ' :: rest)))
      (Token.ofWord keyword :: Token.ofWord name :: Token.ofSymbol .times .lbrace ::
        Token.ofWord field :: Token.ofSymbol .times .colon :: ws) := by
  have hopen : Spells .times ('\x7b' :: _) (Token.ofSymbol .times .lbrace :: _) :=
    Spells.symbol .lbrace nofun (spells_field field hfield h)
  have hname : Spells .times _ _ :=
    Spells.word hname (wordEnds_of_cons (by rfl)) (.blank (c := ' ') rfl hopen)
  exact Spells.word hkeyword (wordEnds_of_cons (by rfl)) (.blank (c := ' ') rfl hname)

theorem Declaration.spells {d : Declaration} (hd : d.Normal) (hrest : WordEnds rest)
    (h : Spells .times rest ws) :
    Spells star (d.source.toList ++ rest) (d.contents ++ ws) := by
  have hclose : Spells .times ('\x7d' :: rest) (Token.ofSymbol .times .rbrace :: ws) :=
    Spells.symbol .rbrace nofun h
  cases d with
  | role r =>
    have hactions := r.actions.spells hd.2 (wordEnds_of_cons (by rfl)) hclose
    have hrole : Spells star _ _ :=
      spells_opening "ROLE" "can" rfl hd.1.1 rfl hactions
    simpa [source, contents] using hrole
  | user u =>
    have hname : Spells .wildcard _ _ := Spells.word hd.2.1 (wordEnds_of_cons (by rfl)) hclose
    have huser : Spells star _ _ :=
      spells_opening "USER" "role" rfl hd.1.1 rfl hname
    simpa [source, contents] using huser
  | resource r =>
    have hpath : Spells .wildcard _ ((.string, .text r.path) :: _) := Spells.string hd.2 hclose
    have hresource : Spells star _ _ :=
      spells_opening "RESOURCE" "path" rfl hd.1.1 rfl hpath
    simpa [source, contents] using hresource
  | policy p =>
    obtain ⟨ha, hname, hc⟩ := hd
    have hresource : Spells .wildcard _ _ :=
      Spells.word hname.1 (p.wordEnds_guard hrest) (p.spells_guard hc h)
    have hfield : Spells .times _ _ := spells_field "resource" rfl hresource
    have hon : Spells .times _ _ :=
      Spells.word (w := "ON") rfl (wordEnds_of_cons (by rfl)) (.blank (c := ' ') rfl hfield)
    have hactions :=
      p.actions.spells ha (wordEnds_of_cons (by rfl)) (.blank (c := ' ') rfl hon)
    have haction : Spells .times _ _ := spells_field "action" rfl hactions
    have heffect : Spells star _ _ :=
      Spells.word p.effect.isWord_keyword (wordEnds_of_cons (by rfl))
        (.blank (c := ' ') rfl haction)
    simpa [source, contents] using heffect

theorem Program.spells_source {p : Program} (hp : p.Normal) :
    Spells .times p.source.toList p.contents := by
  obtain ⟨ds, line⟩ := p
  induction ds with
  | nil => exact Spells.nil
  | cons d ds ih =>
    have hmore := ih fun d' hd' => hp d' (List.mem_cons_of_mem d hd')
    have hfirst : Spells .times _ _ :=
      d.spells (hp d List.mem_cons_self) (wordEnds_of_cons (by rfl)) (.newline hmore)
    simpa [source, contents] using hfirst

end Spells

end AccessPolicy
