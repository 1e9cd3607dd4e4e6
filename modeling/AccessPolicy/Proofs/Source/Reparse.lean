import AccessPolicy.Proofs.Program.Lines
import AccessPolicy.Proofs.Source.Printing

/-!
# Parsing printed programs

Tokens that say what a program in normal form says (`Program.contents`) derive that program
again, up to lines. An operation comes back from its parentheses, and the comparisons of a
condition come back in the order in which they are joined. With `Program.spells_source` this
makes printing the inverse of parsing : `Program.ofSource_source`.
-/

namespace AccessPolicy

open Grammar

/-! ## Leaves -/

theorem BinaryOp.kind_mark (op : BinaryOp) : (Token.ofSymbol .times op.mark).1 = op.kind := by
  cases op <;> rfl

theorem Sign.kind_mark (sign : Sign) : (Token.ofSymbol .times sign.mark).1 = sign.kind := by
  cases sign <;> rfl

theorem Relation.kind_mark (r : Relation) : (Token.ofSymbol .times r.mark).1 = r.kind := by
  cases r <;> rfl

theorem Effect.kind_keyword (e : Effect) : (Token.ofWord e.keyword).1 = e.kind := by
  cases e <;> rfl

theorem Token.kind_of_content {t : Token} {c : Token.Content} (h : t.content = c) :
    t.kind = c.1 :=
  congrArg Prod.fst h

theorem Token.value_of_content {t : Token} {c : Token.Content} (h : t.content = c) :
    t.value = c.2 :=
  congrArg Prod.snd h

theorem Token.IsName.ofWord_eq {w : String} (h : IsName w) :
    ofWord w = (.identifier, .text w) := by
  rw [ofWord, h.2]

/-- A token that says a name stands for the leaf of a name. -/
theorem Token.exists_name {t : Token} {w : String} (hw : IsName w) (h : t.content = ofWord w) :
    ∃ m : (Leaf.kind .identifier).Match, m.token = t ∧ m.written = w := by
  rw [hw.ofWord_eq] at h
  refine ⟨⟨t, kind_of_content h⟩, rfl, ?_⟩
  rw [Leaf.Match.written, value_of_content h]
  rfl

/-- A token that says a name stands for the leaf of that very name. -/
theorem Token.accepts_named {t : Token} {w : String} (hw : IsName w) (h : t.content = ofWord w) :
    (Leaf.named w).Accepts t := by
  rw [hw.ofWord_eq] at h
  exact ⟨kind_of_content h, w, value_of_content h, rfl⟩

/-- A token that says a string stands for the leaf of a string. -/
theorem Token.exists_string {t : Token} {s : String} (h : t.content = (.string, .text s)) :
    ∃ m : (Leaf.kind .string).Match, m.token = t ∧ m.written = s := by
  refine ⟨⟨t, kind_of_content h⟩, rfl, ?_⟩
  rw [Leaf.Match.written, value_of_content h]
  rfl

/-- A token that says the name of an attribute stands for the leaf of one. -/
theorem Token.exists_attributeName {t : Token} {w : String} (hw : IsAttributeName w)
    (h : t.content = ofWord w) :
    ∃ m : Leaf.attributeName.Match, m.token = t ∧ m.attributeText = w := by
  rcases hw with hw | hw
  · rw [hw.ofWord_eq] at h
    have hkind : t.kind = .identifier := kind_of_content h
    refine ⟨⟨t, Or.inl hkind⟩, rfl, ?_⟩
    rw [Leaf.Match.attributeText, if_pos hkind, Leaf.Match.written, value_of_content h]
    rfl
  · -- A keyword is valued in capitals, and an access has it in lower case.
    have hkeyword : ∀ (k : Kind) (v : String), k = .can ∨ k = .path ∨ k = .action →
        t.content = (k, .text v) → smallLetters v = w →
        ∃ m : Leaf.attributeName.Match, m.token = t ∧ m.attributeText = w := by
      intro k v hk hc hv
      have hkind : t.kind = k := kind_of_content hc
      refine ⟨⟨t, Or.inr (by rwa [hkind])⟩, rfl, ?_⟩
      have hne : ¬ t.kind = .identifier := by
        rw [hkind]
        rintro rfl
        simp at hk
      rw [Leaf.Match.attributeText, if_neg hne, Leaf.Match.written, value_of_content hc]
      exact hv
    simp only [attributeKeywords, List.mem_cons, List.not_mem_nil, or_false] at hw
    rcases hw with rfl | rfl | rfl
    · exact hkeyword .can "CAN" (by simp) (h.trans (by decide)) (by decide)
    · exact hkeyword .path "PATH" (by simp) (h.trans (by decide)) (by decide)
    · exact hkeyword .action "ACTION" (by simp) (h.trans (by decide)) (by decide)

/-! ## Operands -/

/-- Signed operands can be joined by any operation. -/
theorem Grammar.Operand.combine {s u : List Item} {e f : Expr} (he : Operand .signed s e)
    {op : BinaryOp} (m : (Leaf.kind op.kind).Match) (hf : Operand .signed u f) :
    Operand .sum (s ++ ↑m :: u) (.combine op e f) := by
  cases op
  · exact .sum (.term (.factor he)) (by simp [Level.operators]) m (.factor hf)
  · exact .sum (.term (.factor he)) (by simp [Level.operators]) m (.factor hf)
  · exact .term (.product (.factor he) (by simp [Level.operators]) m hf)
  · exact .term (.product (.factor he) (by simp [Level.operators]) m hf)

theorem Literal.exists_operand {l : Literal} (hl : l.Normal) {t : Token}
    (h : t.content = l.content) :
    ∃ i l', i.token = t ∧ Operand .primary [i] (.literal l') ∧ l'.eraseLines = l.eraseLines := by
  cases l with
  | identifier w line =>
    obtain ⟨m, rfl, rfl⟩ := Token.exists_name hl h
    exact ⟨m, _, rfl, .name m, rfl⟩
  | number n line =>
    have hkind : t.kind = .number := Token.kind_of_content h
    have hvalue : t.value = .number n := Token.value_of_content h
    exact ⟨(⟨t, hkind, n, hvalue⟩ : Leaf.number.Match), _, rfl, .number _ hvalue, rfl⟩
  | string s line =>
    obtain ⟨m, rfl, rfl⟩ := Token.exists_string h
    exact ⟨m, _, rfl, .string m, rfl⟩
  | wildcard line => exact hl.elim

theorem Expr.exists_operand {e : Expr} (he : e.Normal) {ts : List Token}
    (h : ts.map Token.content = e.contents) :
    ∃ s e', Item.tokens s = ts ∧ Operand .signed s e' ∧ e'.eraseLines = e.eraseLines := by
  induction e generalizing ts with
  | binary op left right line ihl ihr =>
    simp only [contents, List.map_eq_cons_iff, List.map_eq_append_iff, List.map_eq_nil_iff] at h
    obtain ⟨t, _, rfl, hopen, tsl, _, rfl, hl, o, _, rfl, hop, tsr, _, rfl, hr, t', _, rfl, hclose,
      rfl⟩ := h
    obtain ⟨sl, el, rfl, hl, hel⟩ := ihl he.1 hl
    obtain ⟨sr, er, rfl, hr, her⟩ := ihr he.2 hr
    have hkind : o.kind = op.kind := (Token.kind_of_content hop).trans op.kind_mark
    have hcombine := hl.combine ⟨o, hkind⟩ hr
    refine ⟨_, _, ?_, .unsigned (.group ⟨t, Token.kind_of_content hopen⟩ hcombine
      ⟨t', Token.kind_of_content hclose⟩), ?_⟩
    · simp [Item.token]
    · simp [combine, eraseLines, hel, her]
  | unary sign operand line ih =>
    simp only [contents, List.map_eq_cons_iff] at h
    obtain ⟨t, ts, rfl, hsign, ho⟩ := h
    obtain ⟨s, e, rfl, ho, he⟩ := ih he ho
    have hkind : t.kind = sign.kind := (Token.kind_of_content hsign).trans sign.kind_mark
    refine ⟨_, _, ?_, .signed sign ⟨t, hkind⟩ ho, ?_⟩
    · simp [Item.token]
    · simp [eraseLines, he]
  | access a =>
    simp only [contents, List.map_eq_cons_iff, List.map_eq_nil_iff] at h
    obtain ⟨t, _, rfl, hobject, t', _, rfl, hdot, t'', _, rfl, hname, rfl⟩ := h
    obtain ⟨object, rfl, ho⟩ := Token.exists_name he.1 hobject
    obtain ⟨name, rfl, hn⟩ := Token.exists_attributeName he.2 hname
    refine ⟨_, _, ?_, .unsigned (.access object ⟨t', Token.kind_of_content hdot⟩ name), ?_⟩
    · simp [Item.token]
    · simp [eraseLines, ho, hn]
  | literal l =>
    simp only [contents, List.map_eq_cons_iff, List.map_eq_nil_iff] at h
    obtain ⟨t, _, rfl, ht, rfl⟩ := h
    obtain ⟨i, l', rfl, hi, hl⟩ := l.exists_operand he ht
    exact ⟨[i], _, rfl, .unsigned hi, by rw [eraseLines, eraseLines, hl]⟩

/-! ## Conditions -/

theorem Comparison.exists_compared {c : Comparison} (hc : c.Normal) {ts : List Token}
    (h : ts.map Token.content = c.contents) :
    ∃ s c', Item.tokens s = ts ∧ Compared s c' ∧ c'.eraseLines = c.eraseLines := by
  simp only [contents, List.map_eq_cons_iff, List.map_eq_append_iff] at h
  obtain ⟨tsl, _, rfl, hl, t, tsr, rfl, ht, hr⟩ := h
  obtain ⟨sl, el, rfl, hl, hel⟩ := c.left.exists_operand hc.1 hl
  obtain ⟨sr, er, rfl, hr, her⟩ := c.right.exists_operand hc.2 hr
  have hkind : t.kind = c.relation.kind := (Token.kind_of_content ht).trans c.relation.kind_mark
  refine ⟨_, _, ?_, .mk (.term (.factor hl)) c.relation ⟨t, hkind⟩ (.term (.factor hr)), ?_⟩
  · simp [Item.token]
  · simp [eraseLines, hel, her]

theorem Condition.IsConjunction.exists_conjunction {c : Condition} (hc : c.IsConjunction)
    {ts : List Token} (h : ts.map Token.content = c.contents) :
    ∃ s c', Item.tokens s = ts ∧ Conjunction s c' ∧ c'.eraseLines = c.eraseLines := by
  induction c generalizing ts with
  | and left right line ihl _ =>
    cases right with
    | comparison c =>
      simp only [contents, List.map_eq_cons_iff, List.map_eq_append_iff] at h
      obtain ⟨tsl, _, rfl, hl, t, tsr, rfl, ht, hr⟩ := h
      obtain ⟨sl, l, rfl, hl, hel⟩ := ihl hc.1 hl
      obtain ⟨sr, r, rfl, hr, her⟩ := c.exists_compared hc.2 hr
      refine ⟨_, _, ?_, .more hl ⟨t, Token.kind_of_content ht⟩ hr, ?_⟩
      · simp [Item.token]
      · simp [both, eraseLines, hel, her]
    | _ => exact False.elim hc
  | or => exact False.elim hc
  | comparison c =>
    obtain ⟨s, c', hs, hc', he⟩ := c.exists_compared hc h
    exact ⟨s, _, hs, .one hc', by rw [eraseLines, eraseLines, he]⟩

theorem Condition.exists_disjunction {c : Condition} (hc : c.Normal) {ts : List Token}
    (h : ts.map Token.content = c.contents) :
    ∃ s c', Item.tokens s = ts ∧ Disjunction s c' ∧ c'.eraseLines = c.eraseLines := by
  have hone : ∀ {c : Condition} {ts : List Token}, c.IsConjunction →
      ts.map Token.content = c.contents →
        ∃ s c', Item.tokens s = ts ∧ Disjunction s c' ∧ c'.eraseLines = c.eraseLines := by
    intro c ts hc h
    obtain ⟨s, c', hs, hc', he⟩ := hc.exists_conjunction h
    exact ⟨s, c', hs, .one hc', he⟩
  induction c generalizing ts with
  | or left right line ihl _ =>
    simp only [contents, List.map_eq_cons_iff, List.map_eq_append_iff] at h
    obtain ⟨tsl, _, rfl, hl, t, tsr, rfl, ht, hr⟩ := h
    obtain ⟨sl, l, rfl, hl, hel⟩ := ihl hc.1 hl
    obtain ⟨sr, r, rfl, hr, her⟩ := hc.2.exists_conjunction hr
    refine ⟨_, _, ?_, .more hl ⟨t, Token.kind_of_content ht⟩ hr, ?_⟩
    · simp [Item.token]
    · simp [either, eraseLines, hel, her]
  | and left right line _ _ => exact hone hc h
  | comparison c => exact hone hc h

/-! ## Declarations -/

theorem ActionName.exists_named {a : ActionName} (ha : a.literal.Normal) {t : Token}
    (h : t.content = a.literal.content) :
    ∃ i a', i.token = t ∧ Named [i] a' ∧ a'.eraseLines = a.eraseLines := by
  cases a with
  | bare w line =>
    obtain ⟨m, rfl, rfl⟩ := Token.exists_name ha h
    exact ⟨m, _, rfl, .bare m, rfl⟩
  | quoted s line =>
    obtain ⟨m, rfl, rfl⟩ := Token.exists_string h
    exact ⟨m, _, rfl, .quoted m, rfl⟩

theorem ActionName.exists_names {first : ActionName} {more : List ActionName}
    (ha : ∀ a ∈ first :: more, a.literal.Normal) {ts : List Token}
    (h : ts.map Token.content = listContents first more) :
    ∃ s first' more', Item.tokens s = ts ∧ Names s (first' :: more') ∧
      first'.eraseLines = first.eraseLines ∧
        more'.map ActionName.eraseLines = more.map ActionName.eraseLines := by
  induction more generalizing first ts with
  | nil =>
    simp only [listContents, List.map_eq_cons_iff, List.map_eq_nil_iff] at h
    obtain ⟨t, _, rfl, ht, rfl⟩ := h
    obtain ⟨i, a, rfl, hi, he⟩ := first.exists_named (ha first (by simp)) ht
    exact ⟨[i], a, [], rfl, .one hi, he, rfl⟩
  | cons b more ih =>
    simp only [listContents, List.map_eq_cons_iff] at h
    obtain ⟨t, _, rfl, ht, t', ts, rfl, hcomma, hmore⟩ := h
    obtain ⟨i, a, rfl, hi, he⟩ := first.exists_named (ha first (by simp)) ht
    obtain ⟨s, b', more', rfl, hs, hb, hm⟩ :=
      ih (fun a h => ha a (List.mem_cons_of_mem first h)) hmore
    refine ⟨_, a, b' :: more', ?_, .more hi ⟨t', Token.kind_of_content hcomma⟩ hs, he, ?_⟩
    · simp [Item.token]
    · rw [List.map_cons, List.map_cons, hb, hm]

theorem ActionSet.exists_actions {a : ActionSet} (ha : a.Normal) {ts : List Token}
    (h : ts.map Token.content = a.contents) :
    ∃ s a', Item.tokens s = ts ∧ Actions s a' ∧ a'.eraseLines = a.eraseLines := by
  cases a with
  | wildcard line =>
    simp only [contents, List.map_eq_cons_iff, List.map_eq_nil_iff] at h
    obtain ⟨t, _, rfl, ht, rfl⟩ := h
    exact ⟨_, _, rfl, .wildcard ⟨t, Token.kind_of_content ht⟩, rfl⟩
  | named first more =>
    obtain ⟨s, first', more', hs, hnames, hf, hm⟩ := ActionName.exists_names ha h
    exact ⟨s, _, hs, .named hnames, by rw [eraseLines, eraseLines, hf, hm]⟩

theorem Policy.exists_guard {p : Policy} (hp : ∀ c ∈ p.condition, c.Normal) {ts : List Token}
    (h : ts.map Token.content = p.guardContents) :
    ∃ s c, Item.tokens s = ts ∧ Guard s c ∧
      c.map Condition.eraseLines = p.condition.map Condition.eraseLines := by
  rw [guardContents] at h
  cases hc : p.condition with
  | none =>
    rw [hc] at h
    obtain rfl := List.map_eq_nil_iff.mp h
    exact ⟨[], none, rfl, .none, rfl⟩
  | some c =>
    simp only [hc, List.map_eq_cons_iff, List.map_eq_append_iff, List.map_eq_nil_iff] at h
    obtain ⟨t, _, rfl, hopening, t', _, rfl, hleft, ts, _, rfl, hcondition, t'', _, rfl, hright,
      rfl⟩ := h
    obtain ⟨s, c', rfl, hs, he⟩ := c.exists_disjunction (hp c hc) hcondition
    refine ⟨_, _, ?_, .some ⟨t, Token.kind_of_content hopening⟩ ⟨t', Token.kind_of_content hleft⟩
      hs ⟨t'', Token.kind_of_content hright⟩, ?_⟩
    · simp [Item.token]
    · rw [Option.map_some, Option.map_some, he]

theorem Declaration.exists_declared {d : Declaration} (hd : d.Normal) {ts : List Token}
    (h : ts.map Token.content = d.contents) :
    ∃ s d', Item.tokens s = ts ∧ Declared s d' ∧ d'.eraseLines = d.eraseLines := by
  cases d with
  | role r =>
    simp only [contents, List.map_eq_cons_iff, List.map_eq_append_iff, List.map_eq_nil_iff] at h
    obtain ⟨keyword, _, rfl, hkeyword, t, _, rfl, hname, left, _, rfl, hleft, can, _, rfl, hcan,
      colon, _, rfl, hcolon, ts, _, rfl, hactions, right, _, rfl, hright, rfl⟩ := h
    obtain ⟨name, rfl, hn⟩ := Token.exists_name hd.1 hname
    obtain ⟨s, a, rfl, hs, ha⟩ := r.actions.exists_actions hd.2 hactions
    refine ⟨_, _, ?_, .role (.mk ⟨keyword, Token.kind_of_content hkeyword⟩ name
      ⟨left, Token.kind_of_content hleft⟩ ⟨can, Token.kind_of_content hcan⟩
      ⟨colon, Token.kind_of_content hcolon⟩ hs ⟨right, Token.kind_of_content hright⟩), ?_⟩
    · simp [Item.token]
    · simp [eraseLines, hn, ha]
  | user u =>
    simp only [contents, List.map_eq_cons_iff, List.map_eq_nil_iff] at h
    obtain ⟨keyword, _, rfl, hkeyword, t, _, rfl, hname, left, _, rfl, hleft, field, _, rfl,
      hfield, colon, _, rfl, hcolon, t', _, rfl, hrole, right, _, rfl, hright, rfl⟩ := h
    obtain ⟨name, rfl, hn⟩ := Token.exists_name hd.1 hname
    obtain ⟨role, rfl, hr⟩ := Token.exists_name hd.2 hrole
    refine ⟨_, _, ?_, .user (.mk ⟨keyword, Token.kind_of_content hkeyword⟩ name
      ⟨left, Token.kind_of_content hleft⟩
      ⟨field, Token.accepts_named ⟨rfl, by decide⟩ hfield⟩
      ⟨colon, Token.kind_of_content hcolon⟩ role ⟨right, Token.kind_of_content hright⟩), ?_⟩
    · simp [Item.token]
    · simp [eraseLines, hn, hr]
  | resource r =>
    simp only [contents, List.map_eq_cons_iff, List.map_eq_nil_iff] at h
    obtain ⟨keyword, _, rfl, hkeyword, t, _, rfl, hname, left, _, rfl, hleft, field, _, rfl,
      hfield, colon, _, rfl, hcolon, t', _, rfl, hpath, right, _, rfl, hright, rfl⟩ := h
    obtain ⟨name, rfl, hn⟩ := Token.exists_name hd.1 hname
    obtain ⟨path, rfl, hp⟩ := Token.exists_string hpath
    refine ⟨_, _, ?_, .resource (.mk ⟨keyword, Token.kind_of_content hkeyword⟩ name
      ⟨left, Token.kind_of_content hleft⟩ ⟨field, Token.kind_of_content hfield⟩
      ⟨colon, Token.kind_of_content hcolon⟩ path ⟨right, Token.kind_of_content hright⟩), ?_⟩
    · simp [Item.token]
    · simp [eraseLines, hn, hp]
  | policy p =>
    simp only [contents, List.map_eq_cons_iff, List.map_eq_append_iff] at h
    obtain ⟨keyword, _, rfl, hkeyword, action, _, rfl, haction, colon, _, rfl, hcolon, ts, _, rfl,
      hactions, on, _, rfl, hon, field, _, rfl, hfield, colon', _, rfl, hcolon', t, us, rfl,
      hresource, hguard⟩ := h
    obtain ⟨ha, hname, hc⟩ := hd
    obtain ⟨s, a, rfl, hs, ha⟩ := p.actions.exists_actions ha hactions
    obtain ⟨resource, rfl, hr⟩ := Token.exists_name hname hresource
    obtain ⟨u, c, rfl, hu, hc⟩ := p.exists_guard hc hguard
    have hkind : keyword.kind = p.effect.kind :=
      (Token.kind_of_content hkeyword).trans p.effect.kind_keyword
    refine ⟨_, _, ?_, .policy (.mk p.effect ⟨keyword, hkind⟩
      ⟨action, Token.kind_of_content haction⟩ ⟨colon, Token.kind_of_content hcolon⟩ hs
      ⟨on, Token.kind_of_content hon⟩ ⟨field, Token.accepts_named ⟨rfl, by decide⟩ hfield⟩
      ⟨colon', Token.kind_of_content hcolon'⟩ resource hu), ?_⟩
    · simp [Item.token]
    · simp [eraseLines, ha, hr, hc]

/-! ## Programs -/

namespace Program

theorem exists_derivesAll {ds : List Declaration} (hnormal : ∀ d ∈ ds, d.Normal) {ts : List Token}
    (h : ts.map Token.content = ds.flatMap Declaration.contents) :
    ∃ ds', Declaration.DerivesAll ts ds' ∧
      ds'.map Declaration.eraseLines = ds.map Declaration.eraseLines := by
  induction ds generalizing ts with
  | nil =>
    obtain rfl := List.map_eq_nil_iff.mp h
    exact ⟨[], ⟨[], rfl, .nil⟩, rfl⟩
  | cons d ds ih =>
    obtain ⟨hd, hds⟩ := List.forall_mem_cons.mp hnormal
    simp only [List.flatMap_cons, List.map_eq_append_iff] at h
    obtain ⟨ts, us, rfl, hts, hus⟩ := h
    obtain ⟨s, d', rfl, hs, heq⟩ := d.exists_declared hd hts
    obtain ⟨ds', ⟨u, rfl, hu⟩, hlines⟩ := ih hds hus
    refine ⟨d' :: ds', ⟨s ++ u, List.map_append, .cons hs hu⟩, ?_⟩
    rw [List.map_cons, List.map_cons, heq, hlines]

theorem reparse_source {p : Program} (hp : p.Normal) :
    (tokenize p.source).diagnostics = [] ∧
      ∃ p', ofSource p.source = .ok p' ∧ p'.eraseLines = p.eraseLines := by
  obtain ⟨hcontents, hdiagnostics⟩ := tokenize_of_spells (spells_source hp)
  obtain ⟨ds, hds, hlines⟩ := exists_derivesAll hp hcontents
  refine ⟨hdiagnostics, .ofDeclarations ds, parse_eq_ok_iff.mpr ⟨ds, hds, rfl⟩, ?_⟩
  rw [eraseLines, eraseLines, declarations_ofDeclarations, hlines]

/-- The text of a program that was parsed is read without a diagnostic, as the same program up
to lines. -/
theorem ofSource_source {source : String} {p : Program} (h : ofSource source = .ok p) :
    (tokenize p.source).diagnostics = [] ∧
      ∃ p', ofSource p.source = .ok p' ∧ p'.eraseLines = p.eraseLines :=
  reparse_source (normal_of_ofSource h)

/-- A policy over two lines whose text has more parentheses than needed, a keyword for an
attribute and a character that cannot be read. -/
def loose : String :=
  "DENY action:* @ON Resource:Db\nIF(-a.PATH+1*(2)>=\"x\"AND b==3 OR c!=d)"

/-- Its program. -/
def looseProgram : Program :=
  ofDeclarations [.policy {
    effect := .deny
    actions := .wildcard 1
    resource := "Db"
    condition := some (.or
      (.and
        (.comparison ⟨.ge,
          .binary .add (.unary .minus (.access ⟨"a", "path", 2⟩) 2)
            (.binary .mul (.literal (.number 1 2)) (.literal (.number 2 2)) 2) 2,
          .literal (.string "x" 2), 2⟩)
        (.comparison ⟨.eq, .literal (.identifier "b" 2), .literal (.number 3 2), 2⟩) 2)
      (.comparison ⟨.ne, .literal (.identifier "c" 2), .literal (.identifier "d" 2), 2⟩) 2)
    line := 1 }]

theorem ofSource_source_loose : ofSource loose = .ok looseProgram ∧
    (tokenize looseProgram.source).diagnostics = [] ∧
      ∃ p', ofSource looseProgram.source = .ok p' ∧ p'.eraseLines = looseProgram.eraseLines := by
  have hoption : (ofSource loose).toOption = some looseProgram := by decide +kernel
  have h : ofSource loose = .ok looseProgram := by
    cases hp : ofSource loose with
    | error e => simp [hp, Except.toOption] at hoption
    | ok p => simpa [hp, Except.toOption] using hoption
  exact ⟨h, ofSource_source h⟩

end Program

end AccessPolicy
