import AccessPolicy.Proofs.Source.Reparse
import Mathlib.Data.List.Basic

/-!
# Reading a condition off its text

`Condition.text` puts every `AND`, every `OR` and every operation in parentheses, the same ones for
all of them. Conditions of texts that have the same rendering are still the same up to lines
(`Condition.text_eq_iff`).

The rendering is first cut into tokens (`Condition.spells_text`), which takes names, numbers and
strings apart. What is left is unique readability over tokens. An operand is known from its front
(`Expr.eq_of_contents_append`), as long as no dot comes after it, since a name goes on there.
Conditions take one more step : a parenthesis can open an operand or a joined condition. An operand
that stands at the front of a condition is always followed by a relation
(`Condition.exists_relation_of_append`), and inside the parentheses of an operation it never is.
-/

namespace AccessPolicy

open TokenStream (Spells)

/-! ## Leaves -/

theorem Token.ofWord_inj {w v : String} (hw : IsAttributeName w) (hv : IsAttributeName v)
    (h : ofWord w = ofWord v) : w = v := by
  -- Both are the name that an access takes from one token.
  let t : Token := ⟨(ofWord w).1, (ofWord w).2, 0, 0⟩
  obtain ⟨m, hm, rfl⟩ := exists_attributeName (t := t) hw rfl
  obtain ⟨n, hn, rfl⟩ := exists_attributeName (t := t) hv h
  rw [Leaf.Match.attributeText, Leaf.Match.attributeText, Leaf.Match.written, Leaf.Match.written,
    hm, hn]

theorem BinaryOp.mark_inj {op op' : BinaryOp}
    (h : Token.ofSymbol .times op.mark = Token.ofSymbol .times op'.mark) : op = op' := by
  have hkind := congrArg Prod.fst h
  rw [kind_mark, kind_mark] at hkind
  cases op <;> cases op' <;> first | rfl | cases hkind

theorem Relation.mark_inj {r r' : Relation}
    (h : Token.ofSymbol .times r.mark = Token.ofSymbol .times r'.mark) : r = r' := by
  have hkind := congrArg Prod.fst h
  rw [kind_mark, kind_mark] at hkind
  cases r <;> cases r' <;> first | rfl | cases hkind

/-- No operation is written like a relation. -/
theorem Relation.mark_ne (r : Relation) (op : BinaryOp) :
    Token.ofSymbol .times op.mark ≠ Token.ofSymbol .times r.mark := by
  intro h
  have hkind := congrArg Prod.fst h
  rw [BinaryOp.kind_mark, kind_mark] at hkind
  cases r <;> cases op <;> cases hkind

theorem Literal.kind_content {l : Literal} (hl : l.Normal) :
    l.content.1 = .identifier ∨ l.content.1 = .number ∨ l.content.1 = .string := by
  cases l with
  | identifier w => exact Or.inl (congrArg Prod.fst (Token.IsName.ofWord_eq hl))
  | number n => exact Or.inr (Or.inl rfl)
  | string s => exact Or.inr (Or.inr rfl)
  | wildcard => exact hl.elim

theorem Literal.eq_of_content {l k : Literal} (hl : l.Normal) (hk : k.Normal)
    (h : l.content = k.content) : l.eraseLines = k.eraseLines := by
  cases l <;> cases k <;>
    simp_all [Normal, content, eraseLines, Token.IsName.ofWord_eq]

/-! ## Operands -/

/-- No name goes on in these tokens. -/
def NameEnds (ws : List Token.Content) : Prop :=
  ∀ c ∈ ws.head?, c.1 ≠ .dot

theorem nameEnds_of_cons {c : Token.Content} {ws : List Token.Content} (h : c.1 ≠ .dot) :
    NameEnds (c :: ws) := by
  intro d hd
  obtain rfl := Option.some.inj hd
  exact h

theorem BinaryOp.nameEnds (op : BinaryOp) (ws : List Token.Content) :
    NameEnds (Token.ofSymbol .times op.mark :: ws) :=
  nameEnds_of_cons (by cases op <;> decide)

theorem Relation.nameEnds (r : Relation) (ws : List Token.Content) :
    NameEnds (Token.ofSymbol .times r.mark :: ws) :=
  nameEnds_of_cons (by cases r <;> decide)

namespace Expr

/-- The kind of the first token of an operand. -/
def opening : Expr → Token.Kind
  | binary _ _ _ _ => .lparen
  | unary sign _ _ => sign.kind
  | access _ => .identifier
  | literal l => l.content.1

theorem exists_contents_eq {e : Expr} (he : e.Normal) :
    ∃ c cs, e.contents = c :: cs ∧ c.1 = e.opening := by
  cases e with
  | binary => exact ⟨_, _, rfl, rfl⟩
  | unary sign => exact ⟨_, _, rfl, sign.kind_mark⟩
  | access a => exact ⟨_, _, rfl, congrArg Prod.fst he.1.ofWord_eq⟩
  | literal l => exact ⟨_, _, rfl, rfl⟩

theorem opening_eq {e f : Expr} (he : e.Normal) (hf : f.Normal) {ws vs : List Token.Content}
    (h : e.contents ++ ws = f.contents ++ vs) : e.opening = f.opening := by
  obtain ⟨c, cs, hc, hce⟩ := exists_contents_eq he
  obtain ⟨d, ds, hd, hdf⟩ := exists_contents_eq hf
  rw [hc, hd, List.cons_append, List.cons_append] at h
  rw [← hce, ← hdf, (List.cons.inj h).1]

theorem exists_binary_of_opening {e : Expr} (he : e.Normal) (h : e.opening = .lparen) :
    ∃ op left right line, e = binary op left right line := by
  cases e with
  | binary op left right line => exact ⟨op, left, right, line, rfl⟩
  | unary sign => cases sign <;> cases h
  | access => cases h
  | literal l => rcases Literal.kind_content he with hl | hl | hl <;> cases hl.symm.trans h

theorem exists_unary_of_opening {e : Expr} (he : e.Normal) {sign : Sign}
    (h : e.opening = sign.kind) : ∃ operand line, e = unary sign operand line := by
  cases e with
  | unary sign' operand line =>
    obtain rfl : sign' = sign := by cases sign <;> cases sign' <;> first | rfl | cases h
    exact ⟨operand, line, rfl⟩
  | binary | access => cases sign <;> cases h
  | literal l =>
    rcases Literal.kind_content he with hl | hl | hl <;> cases sign <;> cases hl.symm.trans h

/-- What stands at the front of some tokens is read as one operand. -/
theorem eq_of_contents_append {e f : Expr} (he : e.Normal) (hf : f.Normal)
    {ws vs : List Token.Content} (hws : NameEnds ws) (hvs : NameEnds vs)
    (h : e.contents ++ ws = f.contents ++ vs) : e.eraseLines = f.eraseLines ∧ ws = vs := by
  induction e generalizing f ws vs with
  | binary op left right line ihl ihr =>
    obtain ⟨op', left', right', line', rfl⟩ :=
      exists_binary_of_opening hf (opening_eq he hf h).symm
    simp only [contents, List.cons_append, List.append_assoc, List.cons.injEq, true_and] at h
    obtain ⟨hleft, hafter⟩ := ihl he.1 hf.1 (op.nameEnds _) (op'.nameEnds _) h
    obtain ⟨hop, hafter⟩ := List.cons.inj hafter
    have hclose : ∀ ws, NameEnds (Token.ofSymbol .times .rparen :: ws) :=
      fun ws => nameEnds_of_cons (by decide)
    obtain ⟨hright, hrest⟩ := ihr he.2 hf.2 (hclose _) (hclose _) hafter
    refine ⟨?_, (List.cons.inj hrest).2⟩
    rw [eraseLines, eraseLines, BinaryOp.mark_inj hop, hleft, hright]
  | unary sign operand line ih =>
    obtain ⟨operand', line', rfl⟩ := exists_unary_of_opening hf (opening_eq he hf h).symm
    obtain ⟨-, hafter⟩ := List.cons.inj h
    obtain ⟨hoperand, hrest⟩ := ih (f := operand') he hf hws hvs hafter
    exact ⟨by rw [eraseLines, eraseLines, hoperand], hrest⟩
  | access a =>
    cases f with
    | access b =>
      simp only [contents, List.cons_append, List.nil_append, List.cons.injEq, true_and] at h
      obtain ⟨hobject, hname, rfl⟩ := h
      have hobject := Token.ofWord_inj (.inl he.1) (.inl hf.1) hobject
      have hname := Token.ofWord_inj he.2 hf.2 hname
      exact ⟨by rw [eraseLines, eraseLines, hobject, hname], rfl⟩
    | literal l =>
      obtain ⟨-, rfl⟩ := List.cons.inj h
      exact absurd rfl (hvs _ rfl)
    | binary => simpa using exists_binary_of_opening he (opening_eq he hf h)
    | unary sign => simpa using exists_unary_of_opening he (opening_eq he hf h)
  | literal l =>
    cases f with
    | literal k =>
      obtain ⟨hcontent, rfl⟩ := List.cons.inj h
      exact ⟨congrArg literal (Literal.eq_of_content he hf hcontent), rfl⟩
    | access b =>
      obtain ⟨-, rfl⟩ := List.cons.inj h
      exact absurd rfl (hws _ rfl)
    | binary => simpa using exists_binary_of_opening he (opening_eq he hf h)
    | unary sign => simpa using exists_unary_of_opening he (opening_eq he hf h)

end Expr

/-! ## Conditions -/

/-- The operands of the condition are in normal form, however they are joined. -/
def Condition.Readable : Condition → Prop
  | and left right _ | or left right _ => left.Readable ∧ right.Readable
  | comparison c => c.Normal

/-- What the tokens of two conditions say that are joined in parentheses. -/
def joined (word : String) (left right : List Token.Content) : List Token.Content :=
  Token.ofSymbol .times .lparen ::
    (left ++ Token.ofWord word :: (right ++ [Token.ofSymbol .times .rparen]))

/-- What the tokens of a condition say where every `AND` and `OR` is in parentheses. -/
def Condition.grouped : Condition → List Token.Content
  | and left right _ => joined "AND" left.grouped right.grouped
  | or left right _ => joined "OR" left.grouped right.grouped
  | comparison c => c.contents

theorem joined_append (word : String) (left right ws : List Token.Content) :
    joined word left right ++ ws = Token.ofSymbol .times .lparen ::
      (left ++ Token.ofWord word :: (right ++ Token.ofSymbol .times .rparen :: ws)) := by
  simp [joined]

theorem Condition.IsConjunction.readable {c : Condition} (h : c.IsConjunction) : c.Readable := by
  induction c with
  | and left right line ihl ihr =>
    cases right with
    | comparison c => exact ⟨ihl h.1, h.2⟩
    | _ => exact h.elim
  | or => exact h.elim
  | comparison c => exact h

theorem Condition.Normal.readable {c : Condition} (h : c.Normal) : c.Readable := by
  induction c with
  | or left right line ihl ihr => exact ⟨ihl h.1, h.2.readable⟩
  | and left right line => exact Condition.IsConjunction.readable h
  | comparison c => exact h

/-- Wherever no word goes on after them, the characters give tokens with these contents. -/
def IsSpelling (cs : List Char) (ws : List Token.Content) : Prop :=
  ∀ ⦃star : Token.Kind⦄ ⦃rest : List Char⦄ ⦃vs : List Token.Content⦄, WordEnds rest →
    Spells .times rest vs → Spells star (cs ++ rest) (ws ++ vs)

theorem isSpelling_joined (word : String) (hword : Lexeme.isWord word = true) {cs ds : List Char}
    {ws vs : List Token.Content} (hcs : IsSpelling cs ws) (hds : IsSpelling ds vs) :
    IsSpelling ('(' :: (cs ++ ' ' :: (word.toList ++ ' ' :: (ds ++ [')']))))
      (joined word ws vs) := by
  intro star rest us hrest h
  have hclose : Spells .times (')' :: rest) (Token.ofSymbol .times .rparen :: us) :=
    Spells.symbol .rparen nofun h
  have hright : Spells .times _ _ := hds (wordEnds_of_cons (by rfl)) hclose
  have hmiddle : Spells .times _ _ :=
    Spells.word hword (wordEnds_of_cons (by rfl)) (.blank (c := ' ') rfl hright)
  have hleft : Spells .times _ _ :=
    hcs (wordEnds_of_cons (by rfl)) (.blank (c := ' ') rfl hmiddle)
  have hopen : Spells star ('(' :: _) (Token.ofSymbol .times .lparen :: _) :=
    Spells.symbol .lparen nofun hleft
  simpa [joined_append] using hopen

namespace Condition

theorem isSpelling_text {c : Condition} (hc : c.Readable) :
    IsSpelling c.text.toList c.grouped := by
  induction c with
  | and left right line ihl ihr =>
    simpa [text, grouped] using isSpelling_joined "AND" rfl (ihl hc.1) (ihr hc.2)
  | or left right line ihl ihr =>
    simpa [text, grouped] using isSpelling_joined "OR" rfl (ihl hc.1) (ihr hc.2)
  | comparison c => exact fun _ _ _ hrest h => c.spells hc hrest h

/-- No operation starts like a joined condition if what stands in the parentheses has a relation
after any operand at its front. -/
theorem lparen_ne_contents {ws vs : List Token.Content}
    (hws : ∀ {e : Expr} {vs : List Token.Content}, e.Normal → NameEnds vs →
      ws = e.contents ++ vs → ∃ r us, vs = Token.ofSymbol .times (Relation.mark r) :: us)
    {e : Expr} (he : e.Normal) :
    Token.ofSymbol .times .lparen :: ws ≠ e.contents ++ vs := by
  intro h
  have hopening : e.opening = .lparen := by
    obtain ⟨c, cs, hc, hce⟩ := Expr.exists_contents_eq he
    rw [hc, List.cons_append] at h
    rw [← hce, ← (List.cons.inj h).1]
    rfl
  obtain ⟨op, left, right, line, rfl⟩ := Expr.exists_binary_of_opening he hopening
  simp only [Expr.contents, List.cons_append, List.append_assoc, List.cons.injEq, true_and] at h
  obtain ⟨r, us, hr⟩ := hws he.1 (op.nameEnds _) h
  exact r.mark_ne op (List.cons.inj hr).1

/-- What follows an operand at the front of a condition is a relation. -/
theorem exists_relation_of_append {c : Condition} (hc : c.Readable) {e : Expr} (he : e.Normal)
    {ws vs : List Token.Content} (hvs : NameEnds vs) (h : c.grouped ++ ws = e.contents ++ vs) :
    ∃ r us, vs = Token.ofSymbol .times (Relation.mark r) :: us := by
  induction c generalizing e ws vs with
  | and left right line ihl ihr | or left right line ihl ihr =>
    rw [grouped, joined_append] at h
    exact absurd h (lparen_ne_contents (fun he hvs h => ihl hc.1 he hvs h) he)
  | comparison c =>
    rw [grouped, Comparison.contents, List.append_assoc, List.cons_append] at h
    exact ⟨_, _, (c.left.eq_of_contents_append hc.1 he (c.relation.nameEnds _) hvs h).2.symm⟩

theorem joined_ne_comparison {word : String} {left right : Condition} (hleft : left.Readable)
    {c : Comparison} (hc : c.Normal) {ws vs : List Token.Content} :
    joined word left.grouped right.grouped ++ ws ≠ c.contents ++ vs := by
  rw [joined_append, Comparison.contents, List.append_assoc, List.cons_append]
  exact lparen_ne_contents (fun he hvs h => exists_relation_of_append hleft he hvs h) hc.1

/-- Where the tokens of the condition stand at the front of others, no other condition does. -/
def Known (c : Condition) : Prop :=
  ∀ ⦃d : Condition⦄, d.Readable → ∀ ⦃ws vs : List Token.Content⦄, NameEnds ws → NameEnds vs →
    c.grouped ++ ws = d.grouped ++ vs → c.eraseLines = d.eraseLines ∧ ws = vs

theorem joined_inj {word word' : String} {left right left' right' : Condition}
    {ws vs : List Token.Content} (hword : (Token.ofWord word).1 ≠ .dot)
    (hword' : (Token.ofWord word').1 ≠ .dot) (hleft : left.Known) (hright : right.Known)
    (hleft' : left'.Readable) (hright' : right'.Readable)
    (h : joined word left.grouped right.grouped ++ ws =
      joined word' left'.grouped right'.grouped ++ vs) :
    Token.ofWord word = Token.ofWord word' ∧ left.eraseLines = left'.eraseLines ∧
      right.eraseLines = right'.eraseLines ∧ ws = vs := by
  rw [joined_append, joined_append] at h
  obtain ⟨hl, hafter⟩ := hleft hleft' (nameEnds_of_cons hword) (nameEnds_of_cons hword')
    (List.cons.inj h).2
  obtain ⟨hjoin, hafter⟩ := List.cons.inj hafter
  have hclose : ∀ ws, NameEnds (Token.ofSymbol .times .rparen :: ws) :=
    fun ws => nameEnds_of_cons (by decide)
  obtain ⟨hr, hrest⟩ := hright hright' (hclose _) (hclose _) hafter
  exact ⟨hjoin, hl, hr, (List.cons.inj hrest).2⟩

theorem Readable.known {c : Condition} (hc : c.Readable) : c.Known := by
  have hand : (Token.ofWord "AND").1 ≠ .dot := by decide
  have hor : (Token.ofWord "OR").1 ≠ .dot := by decide
  have hne : Token.ofWord "AND" ≠ Token.ofWord "OR" := by decide
  intro d hd ws vs hws hvs h
  induction c generalizing d ws vs with
  | and left right line ihl ihr =>
    cases d with
    | and left' right' line' =>
      obtain ⟨-, hl, hr, hrest⟩ := joined_inj hand hand (ihl hc.1) (ihr hc.2) hd.1 hd.2 h
      exact ⟨by rw [eraseLines, eraseLines, hl, hr], hrest⟩
    | or left' right' line' =>
      exact absurd (joined_inj hand hor (ihl hc.1) (ihr hc.2) hd.1 hd.2 h).1 hne
    | comparison d => exact absurd h (joined_ne_comparison hc.1 hd)
  | or left right line ihl ihr =>
    cases d with
    | and left' right' line' =>
      exact absurd (joined_inj hor hand (ihl hc.1) (ihr hc.2) hd.1 hd.2 h).1 hne.symm
    | or left' right' line' =>
      obtain ⟨-, hl, hr, hrest⟩ := joined_inj hor hor (ihl hc.1) (ihr hc.2) hd.1 hd.2 h
      exact ⟨by rw [eraseLines, eraseLines, hl, hr], hrest⟩
    | comparison d => exact absurd h (joined_ne_comparison hc.1 hd)
  | comparison c =>
    cases d with
    | and | or => exact absurd h.symm (joined_ne_comparison hd.1 hc)
    | comparison d =>
      simp only [grouped, Comparison.contents, List.append_assoc, List.cons_append] at h
      obtain ⟨hl, hafter⟩ :=
        c.left.eq_of_contents_append hc.1 hd.1 (c.relation.nameEnds _) (d.relation.nameEnds _) h
      obtain ⟨hrelation, hafter⟩ := List.cons.inj hafter
      obtain ⟨hr, hrest⟩ := c.right.eq_of_contents_append hc.2 hd.2 hws hvs hafter
      refine ⟨?_, hrest⟩
      rw [eraseLines, eraseLines, Comparison.eraseLines, Comparison.eraseLines,
        Relation.mark_inj hrelation, hl, hr]

/-! ## Texts -/

/-- Conditions with operands in normal form are the same up to lines if their texts are. -/
theorem eraseLines_eq_of_text_eq {c d : Condition} (hc : c.Readable) (hd : d.Readable)
    (h : c.text = d.text) : c.eraseLines = d.eraseLines := by
  have hcontents : ∀ {c : Condition}, c.Readable →
      (tokenize c.text).tokens.map Token.content = c.grouped := by
    intro c hc
    have hspells : Spells .times (c.text.toList ++ []) (c.grouped ++ []) :=
      isSpelling_text hc (by simp [WordEnds]) .nil
    simpa using (tokenize_of_spells (by simpa using hspells)).1
  have hgrouped : c.grouped = d.grouped := by rw [← hcontents hc, h, hcontents hd]
  have happend : c.grouped ++ [] = d.grouped ++ [] := by rw [hgrouped]
  exact (hc.known hd (by simp [NameEnds]) (by simp [NameEnds]) happend).1

end Condition

theorem Literal.text_eraseLines (l : Literal) : l.eraseLines.text = l.text := by
  cases l <;> rfl

theorem Expr.text_eraseLines (e : Expr) : e.eraseLines.text = e.text := by
  induction e with
  | binary op left right line ihl ihr => rw [eraseLines, text, text, ihl, ihr]
  | unary sign operand line ih => rw [eraseLines, text, text, ih]
  | access a => rfl
  | literal l => exact l.text_eraseLines

theorem Condition.text_eraseLines (c : Condition) : c.eraseLines.text = c.text := by
  induction c with
  | and left right line ihl ihr => rw [eraseLines, text, text, ihl, ihr]
  | or left right line ihl ihr => rw [eraseLines, text, text, ihl, ihr]
  | comparison c =>
    rw [eraseLines, text, text, Comparison.text, Comparison.text, Comparison.eraseLines,
      Expr.text_eraseLines, Expr.text_eraseLines]

/-- The conditions of the policies, in order. -/
def Program.conditions (p : Program) : List Condition :=
  p.policies.filterMap Policy.condition

theorem Program.readable_of_mem_conditions {source : String} {p : Program}
    (hp : ofSource source = .ok p) {c : Condition} (hc : c ∈ p.conditions) : c.Readable := by
  obtain ⟨r, hr, hrc⟩ := List.mem_filterMap.mp hc
  obtain ⟨d, hd, hdr⟩ := List.mem_filterMap.mp hr
  cases d with
  | policy r' =>
    obtain rfl := Option.some.inj hdr
    obtain ⟨-, -, hcondition⟩ := normal_of_ofSource hp _ hd
    exact (hcondition c hrc).readable
  | role | user | resource => cases hdr

/-- Conditions of programs that were parsed have the same text exactly if they are the same up to
lines. -/
theorem Condition.text_eq_iff {source source' : String} {p p' : Program}
    (hp : Program.ofSource source = .ok p) (hp' : Program.ofSource source' = .ok p')
    {c d : Condition} (hc : c ∈ p.conditions) (hd : d ∈ p'.conditions) :
    c.text = d.text ↔ c.eraseLines = d.eraseLines := by
  refine ⟨eraseLines_eq_of_text_eq (p.readable_of_mem_conditions hp hc)
    (p'.readable_of_mem_conditions hp' hd), fun h => ?_⟩
  rw [← c.text_eraseLines, h, d.text_eraseLines]

/-- A policy whose condition has operations, signs and joins of all kinds, on one line. -/
def Program.level : String :=
  "ALLOW action: * ON resource: Db IF (a - -1 - 2 * b.path == c AND d == \"e\" OR f < 3)"

/-- The same condition with more parentheses, over some lines. -/
def Program.steep : String :=
  "ALLOW action: * ON resource: Db\nIF (((a) - (-1)) - (2\n* b.PATH) == c AND\nd == \"e\" OR f < 3)"

/-- Its comparisons, with the lines they are on. -/
def Condition.stretched (first second third : Nat) : Condition :=
  .or
    (.and
      (.comparison ⟨.eq,
        .binary .sub
          (.binary .sub (.literal (.identifier "a" first))
            (.unary .minus (.literal (.number 1 first)) first) first)
          (.binary .mul (.literal (.number 2 first)) (.access ⟨"b", "path", second⟩) first) first,
        .literal (.identifier "c" second), first⟩)
      (.comparison ⟨.eq, .literal (.identifier "d" third), .literal (.string "e" third), third⟩)
      first)
    (.comparison ⟨.lt, .literal (.identifier "f" third), .literal (.number 3 third), third⟩) first

/-- The program of the policy, whose condition starts on a given line. -/
def Program.ofCondition (c : Condition) : Program :=
  .ofDeclarations [.policy ⟨.allow, .wildcard 1, "Db", some c, 1⟩]

theorem Condition.text_eq_iff_stretched :
    Program.ofSource Program.level = .ok (.ofCondition (stretched 1 1 1)) ∧
      Program.ofSource Program.steep = .ok (.ofCondition (stretched 2 3 4)) ∧
      (stretched 1 1 1).text = (stretched 2 3 4).text ∧
      (stretched 1 1 1).eraseLines = (stretched 2 3 4).eraseLines := by
  have hlevel : Program.ofSource Program.level = .ok (.ofCondition (stretched 1 1 1)) := by
    decide +kernel
  have hsteep : Program.ofSource Program.steep = .ok (.ofCondition (stretched 2 3 4)) := by
    decide +kernel
  have htext : (stretched 1 1 1).text = (stretched 2 3 4).text := by decide +kernel
  exact ⟨hlevel, hsteep, htext,
    (text_eq_iff hlevel hsteep List.mem_cons_self List.mem_cons_self).mp htext⟩

end AccessPolicy
