import AccessPolicy.Program.Decode
import AccessPolicy.Program.Encode

/-!
# Programs survive encoding

The document of a program decodes to the program of its declarations (`Program.decode_encode`),
lines included, if its numbers and lines fit 64 bits (`Program.Fits`). That is the same program, if
it is on the line of its first declaration (`Program.decode_encode_and_encode_inj`).

The fields that a node must have are read in one way for all nodes, so what is shown first is
what each reader of a field gives when the field is there. An encoded node has its fields by
evaluation, and each node then follows from its parts.
-/

namespace AccessPolicy

/-! ## Numbers and lines that fit -/

/-- The number and the line of a literal fit 64 bits. -/
def Literal.Fits : Literal → Prop
  | number n line => -(maxInt64 + 1) ≤ n ∧ n ≤ maxInt64 ∧ line ≤ maxUInt64
  | l => l.line ≤ maxUInt64

/-- The lines of a set fit 64 bits. -/
def ActionSet.Fits (a : ActionSet) : Prop :=
  ∀ l ∈ a.literals, l.Fits

/-- The numbers and lines of an operand fit 64 bits. -/
def Expr.Fits : Expr → Prop
  | binary _ left right line => left.Fits ∧ right.Fits ∧ line ≤ maxUInt64
  | unary _ operand line => operand.Fits ∧ line ≤ maxUInt64
  | access a => a.line ≤ maxUInt64
  | literal l => l.Fits

/-- The numbers and lines of a condition fit 64 bits. -/
def Condition.Fits : Condition → Prop
  | and left right line | or left right line => left.Fits ∧ right.Fits ∧ line ≤ maxUInt64
  | comparison c => c.left.Fits ∧ c.right.Fits ∧ c.line ≤ maxUInt64

/-- The numbers and lines of a declaration fit 64 bits. -/
def Declaration.Fits : Declaration → Prop
  | role r => r.actions.Fits ∧ r.line ≤ maxUInt64
  | user u => u.line ≤ maxUInt64
  | resource r => r.line ≤ maxUInt64
  | policy p => p.actions.Fits ∧ (∀ c ∈ p.condition, c.Fits) ∧ p.line ≤ maxUInt64

/-- The numbers and lines of a program fit 64 bits. -/
def Program.Fits (p : Program) : Prop :=
  (∀ d ∈ p.declarations, d.Fits) ∧ p.line ≤ maxUInt64

theorem Literal.Fits.line_le : ∀ {l : Literal}, l.Fits → l.line ≤ maxUInt64
  | number _ _, h => h.2.2
  | identifier _ _, h | string _ _, h | wildcard _, h => h

/-! ## Fields -/

section Except

variable {ε α β : Type}

@[simp] theorem ok_bind (a : α) (f : α → Except ε β) : (Except.ok a >>= f) = f a := rfl

@[simp] theorem map_ok (f : α → β) (a : α) : (f <$> Except.ok a : Except ε β) = .ok (f a) := rfl

@[simp] theorem pure_eq_ok (a : α) : (pure a : Except ε α) = .ok a := rfl

end Except

namespace Document

variable {path : DecodeError.Path} {d : Document} {key : String}

theorem child_of_get? {c : Document} (h : d.get? key = some c) : d.child path key = .ok ⟨c, h⟩ := by
  have hattach : (d.get? key).attach = some ⟨c, h⟩ := Option.attach_eq_some_iff.mpr h
  unfold child
  rw [hattach]

theorem stringField_of_get? {s : String} (h : d.get? key = some (.string s)) :
    d.stringField path key = .ok s := by
  rw [stringField, child_of_get? h]
  rfl

theorem listField_of_get? {items : List Document} (h : d.get? key = some (.list items)) :
    d.listField path key = .ok items := by
  rw [listField, child_of_get? h]
  rfl

theorem intField_of_get? {n low high : Int} (h : d.get? key = some (.int n)) (hlow : low ≤ n)
    (hhigh : n ≤ high) : d.intField path key low high = .ok n := by
  rw [intField, child_of_get? h]
  exact if_pos ⟨hlow, hhigh⟩

theorem lineField_of_get? {n : Nat} (h : d.get? "line" = some (.int n)) (hn : n ≤ maxUInt64) :
    d.lineField path = .ok n := by
  rw [lineField, intField_of_get? h (Int.natCast_nonneg n) (Int.ofNat_le.mpr hn)]
  rfl

theorem operatorField_of_get? {α : Type} {ofSymbol? : String → Option α} {s : String} {a : α}
    (h : d.get? "operator" = some (.string s)) (ha : ofSymbol? s = some a) :
    d.operatorField path ofSymbol? = .ok a := by
  rw [operatorField, stringField_of_get? h]
  simp [ha]

end Document

/-- Items that are decoded one by one give back what they encode, wherever they stand. -/
theorem mapM_zipIdx_encode {ε α : Type} {encode : α → Document}
    {decode : Document × Nat → Except ε α} {as : List α}
    (h : ∀ a ∈ as, ∀ i, decode (encode a, i) = .ok a) (i : Nat) :
    ((as.map encode).zipIdx i).mapM decode = .ok as := by
  induction as generalizing i with
  | nil => rfl
  | cons a as ih =>
    have hfirst := h a List.mem_cons_self i
    have hmore := ih (fun b hb => h b (List.mem_cons_of_mem a hb)) (i + 1)
    simp [hfirst, hmore]

/-! ## Literals and action sets -/

theorem Literal.lineField_encode {l : Literal} (h : l.Fits) (path : DecodeError.Path) :
    l.encode.lineField path = .ok l.line :=
  Document.lineField_of_get? (by cases l <;> rfl) h.line_le

theorem Literal.typeField_encode (l : Literal) (path : DecodeError.Path) :
    l.encode.stringField path "type" = .ok l.type.name :=
  Document.stringField_of_get? (by cases l <;> rfl)

theorem Literal.decode_encode {l : Literal} (h : l.Fits) (path : DecodeError.Path) :
    decode path l.encode = .ok l := by
  rw [decode, lineField_encode h, typeField_encode]
  cases l with
  | identifier name line =>
    have hvalue : (identifier name line).encode.stringField path "value" = .ok name :=
      Document.stringField_of_get? rfl
    simp [hvalue, Literal.type, Literal.line]
  | number n line =>
    have hvalue : (number n line).encode.intField path "value" (-(maxInt64 + 1)) maxInt64 =
        .ok n := Document.intField_of_get? rfl h.1 h.2.1
    simp only [ok_bind, Literal.type, NodeType.ofName?_name, hvalue, pure_eq_ok, Literal.line]
  | string value line =>
    have hvalue : (string value line).encode.stringField path "value" = .ok value :=
      Document.stringField_of_get? rfl
    simp [hvalue, Literal.type, Literal.line]
  | wildcard line => simp [Literal.type, Literal.line]

theorem ActionSet.decode_of_get? {a : ActionSet} (h : a.Fits) (path : DecodeError.Path)
    {d : Document} (hd : d.get? "actions" = some a.encode) : decode path d = .ok a := by
  have hitems : d.listField path "actions" = .ok (a.literals.map Literal.encode) :=
    Document.listField_of_get? hd
  have hliterals : (a.literals.map Literal.encode).zipIdx.mapM
      (fun x => Literal.decode (path ++ [.actions, .action x.2]) x.1) = .ok a.literals :=
    mapM_zipIdx_encode (fun l hl _ => Literal.decode_encode (h l hl) _) 0
  simp [decode, hitems, hliterals]

/-! ## Operands -/

namespace Expr

theorem Fits.line_le : ∀ {e : Expr}, e.Fits → e.line ≤ maxUInt64
  | binary _ _ _ _, h => h.2.2
  | unary _ _ _, h => h.2
  | access _, h => h
  | literal _, h => Literal.Fits.line_le h

theorem lineField_encode {e : Expr} (h : e.Fits) (path : DecodeError.Path) :
    e.encode.lineField path = .ok e.line := by
  cases e with
  | literal l => exact Literal.lineField_encode h path
  | _ => exact Document.lineField_of_get? rfl h.line_le

theorem typeField_encode (e : Expr) (path : DecodeError.Path) :
    e.encode.stringField path "type" = .ok e.type.name := by
  cases e with
  | literal l => exact l.typeField_encode path
  | _ => exact Document.stringField_of_get? rfl

theorem decode_encode {e : Expr} (h : e.Fits) (path : DecodeError.Path) :
    decode path e.encode = .ok e := by
  induction e generalizing path with
  | binary op left right line ihl ihr =>
    have hop : (binary op left right line).encode.operatorField path BinaryOp.ofSymbol? = .ok op :=
      Document.operatorField_of_get? rfl op.ofSymbol?_symbol
    have hleft : (binary op left right line).encode.child path "left" = .ok ⟨left.encode, rfl⟩ :=
      Document.child_of_get? rfl
    have hright : (binary op left right line).encode.child path "right" =
        .ok ⟨right.encode, rfl⟩ := Document.child_of_get? rfl
    rw [decode, lineField_encode h, typeField_encode]
    simp [type, Expr.line, hop, hleft, hright, ihl h.1, ihr h.2.1]
  | unary sign operand line ih =>
    have hop : (unary sign operand line).encode.operatorField path Sign.ofSymbol? = .ok sign :=
      Document.operatorField_of_get? rfl sign.ofSymbol?_symbol
    have hoperand : (unary sign operand line).encode.child path "operand" =
        .ok ⟨operand.encode, rfl⟩ := Document.child_of_get? rfl
    rw [decode, lineField_encode h, typeField_encode]
    simp [type, Expr.line, hop, hoperand, ih h.1]
  | access a =>
    have hobject : (access a).encode.stringField path "object" = .ok a.object :=
      Document.stringField_of_get? rfl
    have hname : (access a).encode.stringField path "attribute" = .ok a.name :=
      Document.stringField_of_get? rfl
    rw [decode, lineField_encode h, typeField_encode]
    simp [type, Expr.line, hobject, hname]
  | literal l =>
    -- No type of a literal is that of another operand, so the decoder goes on to literals.
    have hliteral : Literal.decode path (literal l).encode = .ok l := Literal.decode_encode h path
    rw [decode, lineField_encode h, typeField_encode]
    cases l <;> simp [type, Literal.type, hliteral]

end Expr

/-! ## Conditions -/

namespace Condition

theorem Fits.line_le : ∀ {c : Condition}, c.Fits → c.line ≤ maxUInt64
  | and _ _ _, h | or _ _ _, h | comparison _, h => h.2.2

theorem lineField_encode {c : Condition} (h : c.Fits) (path : DecodeError.Path) :
    c.encode.lineField path = .ok c.line :=
  Document.lineField_of_get? (by cases c <;> rfl) h.line_le

theorem typeField_encode (c : Condition) (path : DecodeError.Path) :
    c.encode.stringField path "type" = .ok c.type.name :=
  Document.stringField_of_get? (by cases c <;> rfl)

theorem encode_ne_null (c : Condition) : c.encode ≠ .null := by
  cases c <;> exact Document.noConfusion

theorem decode_encode {c : Condition} (h : c.Fits) (path : DecodeError.Path) :
    decode path c.encode = .ok c := by
  induction c generalizing path with
  | and left right line ihl ihr =>
    have hleft : (and left right line).encode.child path "left" = .ok ⟨left.encode, rfl⟩ :=
      Document.child_of_get? rfl
    have hright : (and left right line).encode.child path "right" = .ok ⟨right.encode, rfl⟩ :=
      Document.child_of_get? rfl
    rw [decode, lineField_encode h, typeField_encode]
    simp [type, Condition.line, hleft, hright, ihl h.1, ihr h.2.1]
  | or left right line ihl ihr =>
    have hleft : (or left right line).encode.child path "left" = .ok ⟨left.encode, rfl⟩ :=
      Document.child_of_get? rfl
    have hright : (or left right line).encode.child path "right" = .ok ⟨right.encode, rfl⟩ :=
      Document.child_of_get? rfl
    rw [decode, lineField_encode h, typeField_encode]
    simp [type, Condition.line, hleft, hright, ihl h.1, ihr h.2.1]
  | comparison c =>
    have hop : (comparison c).encode.operatorField path Relation.ofSymbol? = .ok c.relation :=
      Document.operatorField_of_get? rfl c.relation.ofSymbol?_symbol
    have hleft : (comparison c).encode.child path "left" = .ok ⟨c.left.encode, rfl⟩ :=
      Document.child_of_get? rfl
    have hright : (comparison c).encode.child path "right" = .ok ⟨c.right.encode, rfl⟩ :=
      Document.child_of_get? rfl
    rw [decode, lineField_encode h, typeField_encode]
    simp [type, Condition.line, hop, hleft, hright, Expr.decode_encode h.1,
      Expr.decode_encode h.2.1]

end Condition

/-! ## Declarations and programs -/

theorem Policy.decode_encode {p : Policy} (h : (Declaration.policy p).Fits)
    (path : DecodeError.Path) :
    decode path (Declaration.policy p).encode p.line = .ok p := by
  obtain ⟨ha, hc, -⟩ := h
  have heffect : (Declaration.policy p).encode.stringField path "effect" = .ok p.effect.keyword :=
    Document.stringField_of_get? rfl
  have hcondition : (Declaration.policy p).encode.child path "condition" =
      .ok ⟨(p.condition.map Condition.encode).getD .null, rfl⟩ := Document.child_of_get? rfl
  have hactions : ActionSet.decode path (Declaration.policy p).encode = .ok p.actions :=
    ActionSet.decode_of_get? ha path rfl
  have hresource : (Declaration.policy p).encode.stringField path "resource" = .ok p.resource :=
    Document.stringField_of_get? rfl
  obtain ⟨effect, actions, resource, condition, line⟩ := p
  cases condition with
  | none => simp [decode, heffect, hcondition, hactions, hresource]
  | some c =>
    have hdecode := Condition.decode_encode (hc c rfl) (path ++ [.condition])
    simp [decode, heffect, hcondition, hactions, hresource, hdecode, c.encode_ne_null]

theorem Declaration.Fits.line_le : ∀ {d : Declaration}, d.Fits → d.line ≤ maxUInt64
  | role _, h => h.2
  | user _, h | resource _, h => h
  | policy _, h => h.2.2

theorem Declaration.decode_encode {d : Declaration} (h : d.Fits) (path : DecodeError.Path) :
    decode path d.encode = .ok d := by
  have hline : d.encode.lineField path = .ok d.line :=
    Document.lineField_of_get? (by cases d <;> rfl) h.line_le
  have htype : d.encode.stringField path "type" = .ok (Node.ofDeclaration d).type.name :=
    Document.stringField_of_get? (by cases d <;> rfl)
  rw [decode, hline, htype]
  cases d with
  | role r =>
    have hname : (role r).encode.stringField path "name" = .ok r.name :=
      Document.stringField_of_get? rfl
    have hactions : ActionSet.decode path (role r).encode = .ok r.actions :=
      ActionSet.decode_of_get? h.1 path rfl
    simp [Node.ofDeclaration, Node.type, Declaration.line, hname, hactions]
  | user u =>
    have hname : (user u).encode.stringField path "name" = .ok u.name :=
      Document.stringField_of_get? rfl
    have hrole : (user u).encode.stringField path "role" = .ok u.role :=
      Document.stringField_of_get? rfl
    simp [Node.ofDeclaration, Node.type, Declaration.line, hname, hrole]
  | resource r =>
    have hname : (resource r).encode.stringField path "name" = .ok r.name :=
      Document.stringField_of_get? rfl
    have hpath : (resource r).encode.stringField path "path" = .ok r.path :=
      Document.stringField_of_get? rfl
    simp [Node.ofDeclaration, Node.type, Declaration.line, hname, hpath]
  | policy p =>
    have hpolicy := Policy.decode_encode h path
    simp [Node.ofDeclaration, Node.type, Declaration.line, hpolicy]

namespace Program

theorem Fits.ofDeclarations {ds : List Declaration} (h : ∀ d ∈ ds, d.Fits) :
    (ofDeclarations ds).Fits := by
  refine ⟨h, ?_⟩
  cases ds with
  | nil => exact Nat.zero_le _
  | cons d ds => exact (h d List.mem_cons_self).line_le

/-- The line of the program itself is passed over. -/
theorem decode_encode {p : Program} (h : p.Fits) :
    decode p.encode = .ok (.ofDeclarations p.declarations) := by
  have htype : p.encode.stringField [] "type" = .ok NodeType.program.name :=
    Document.stringField_of_get? rfl
  have hitems : p.encode.listField [] "declarations" =
      .ok (p.declarations.map Declaration.encode) := Document.listField_of_get? rfl
  have hdeclarations : (p.declarations.map Declaration.encode).zipIdx.mapM
      (fun x => Declaration.decode [.declaration x.2] x.1) = .ok p.declarations :=
    mapM_zipIdx_encode (fun d hd _ => Declaration.decode_encode (h.1 d hd) _) 0
  simp [decode, htype, hitems, hdeclarations]

/-- The document of a program decodes to that program and is the document of no other. -/
theorem decode_encode_and_encode_inj {ds : List Declaration} (h : ∀ d ∈ ds, d.Fits) :
    decode (ofDeclarations ds).encode = .ok (ofDeclarations ds) ∧
      ∀ q : Program, q.Fits → q.encode = (ofDeclarations ds).encode → q = ofDeclarations ds := by
  have hfits := Fits.ofDeclarations h
  refine ⟨decode_encode hfits, fun q hq hqp => ?_⟩
  have hdeclarations : q.declarations = ds := by
    have hdecode := decode_encode hq
    rw [hqp, decode_encode hfits, Except.ok.injEq] at hdecode
    exact congrArg declarations hdecode.symm
  have hline : q.line = (ofDeclarations ds).line := by
    have hget : some (Document.int q.line) = some (.int (ofDeclarations ds).line) :=
      congrArg (·.get? "line") hqp
    exact Int.ofNat.inj (Document.int.inj (Option.some.inj hget))
  rw [← hdeclarations] at hline ⊢
  exact congrArg (mk q.declarations) hline

/-- A policy at the ends of the integers, with a wildcard for an operand and an `OR` in an
`AND`. -/
def atTheEnds : Program :=
  ofDeclarations [.policy {
    effect := .deny
    actions := .named (.quoted "émettre\n\"" 0) [.bare "read" maxUInt64]
    resource := ""
    condition := some (.and
      (.comparison ⟨.ne, .literal (.number (-(maxInt64 + 1)) 7), .literal (.wildcard 3), 0⟩)
      (.or
        (.comparison ⟨.le, .unary .minus (.literal (.number maxInt64 1)) 2,
          .binary .div (.access ⟨"time", "HOUR", 9⟩) (.literal (.string "日" 4)) 0, 5⟩)
        (.comparison ⟨.eq, .literal (.identifier "*" 6), .literal (.identifier "" 8), 1⟩) 2) 0)
    line := maxUInt64 }]

theorem decode_encode_atTheEnds : (∀ d ∈ atTheEnds.declarations, d.Fits) ∧
    decode atTheEnds.encode = .ok atTheEnds ∧
    ∀ q : Program, q.Fits → q.encode = atTheEnds.encode → q = atTheEnds := by
  have h : ∀ d ∈ atTheEnds.declarations, d.Fits := by
    simp [atTheEnds, Declaration.Fits, ActionSet.Fits, ActionSet.literals,
      ActionName.literal, Condition.Fits, Expr.Fits, Literal.Fits, Literal.line, maxInt64,
      maxUInt64]
  exact ⟨h, decode_encode_and_encode_inj h⟩

end Program

end AccessPolicy
