import AccessPolicy.Proofs.Program.Gist
import AccessPolicy.Proofs.Program.RoundTrip

/-!
# What the documents of programs are made of

The document of a program is made of null, integers that fit 64 bits, strings, lists, and objects
with the keys of a node (`Document.Encoded`, `Program.encoded_encode`). What a data format needs of
the documents that it writes is had from that.
-/

namespace AccessPolicy

/-- The document is made as those of programs are. -/
inductive Document.Encoded : Document → Prop
  | null : Encoded .null
  | int {k : Int} (low : -(maxInt64 + 1) ≤ k) (high : k ≤ maxUInt64) : Encoded (.int k)
  | string (s : String) : Encoded (.string s)
  | list {items : List Document} (h : ∀ d ∈ items, Encoded d) : Encoded (.list items)
  | object (t : NodeType) {fields : List (String × Document)}
    (hkeys : fields.map Prod.fst = t.keys) (h : ∀ f ∈ fields, Encoded f.2) :
    Encoded (.object fields)

open Document (Encoded)

attribute [simp] Document.Encoded.null Document.Encoded.string

theorem encoded_nat {n : Nat} (h : n ≤ maxUInt64) : Encoded (.int n) :=
  .int (by omega) (Int.ofNat_le.mpr h)

theorem Literal.encoded_encode : ∀ {l : Literal}, l.Fits → Encoded l.encode
  | number _ _, ⟨hlow, hhigh, hline⟩ =>
    .object .number rfl (by simp [encoded_nat hline, Encoded.int hlow (hhigh.trans (by decide))])
  | identifier _ line, h => .object .identifier rfl (by simp [encoded_nat (n := line) h])
  | string _ line, h => .object .string rfl (by simp [encoded_nat (n := line) h])
  | wildcard line, h => .object .wildcard rfl (by simp [encoded_nat (n := line) h])

theorem ActionSet.encoded_encode {a : ActionSet} (h : a.Fits) : Encoded a.encode :=
  .list (by simpa using fun l hl => Literal.encoded_encode (h l hl))

theorem Expr.encoded_encode {e : Expr} (h : e.Fits) : Encoded e.encode := by
  induction e with
  | binary op left right line ihl ihr =>
    exact .object .binary rfl (by simp [ihl h.1, ihr h.2.1, encoded_nat h.2.2])
  | unary sign operand line ih => exact .object .unary rfl (by simp [ih h.1, encoded_nat h.2])
  | access a => exact .object .access rfl (by simp [encoded_nat h])
  | literal l => exact Literal.encoded_encode h

theorem Condition.encoded_encode {c : Condition} (h : c.Fits) : Encoded c.encode := by
  induction c with
  | and left right line ihl ihr =>
    exact .object .and rfl (by simp [ihl h.1, ihr h.2.1, encoded_nat h.2.2])
  | or left right line ihl ihr =>
    exact .object .or rfl (by simp [ihl h.1, ihr h.2.1, encoded_nat h.2.2])
  | comparison c =>
    exact .object .comparison rfl (by
      simp [Expr.encoded_encode h.1, Expr.encoded_encode h.2.1, encoded_nat h.2.2])

theorem Declaration.encoded_encode : ∀ {d : Declaration}, d.Fits → Encoded d.encode
  | role _, ⟨hactions, hline⟩ =>
    .object .role rfl (by simp [ActionSet.encoded_encode hactions, encoded_nat hline])
  | user _, h => .object .user rfl (by simp [encoded_nat h])
  | resource _, h => .object .resource rfl (by simp [encoded_nat h])
  | policy p, ⟨hactions, hcondition, hline⟩ => by
    have hdocument : Encoded ((p.condition.map Condition.encode).getD .null) := by
      cases hc : p.condition with
      | none => exact .null
      | some c => exact Condition.encoded_encode (hcondition c hc)
    exact .object .policy rfl
      (by simp [ActionSet.encoded_encode hactions, hdocument, encoded_nat hline])

namespace Program

theorem encoded_encode {p : Program} (h : p.Fits) : Encoded p.encode := by
  have hdeclarations : Encoded (.list (p.declarations.map Declaration.encode)) :=
    .list (by simpa using fun d hd => Declaration.encoded_encode (h.1 d hd))
  exact .object .program rfl (by simp [hdeclarations, encoded_nat h.2])

end Program

end AccessPolicy
