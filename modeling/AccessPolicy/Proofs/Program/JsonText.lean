import AccessPolicy.Proofs.Document.Json.RoundTrip
import AccessPolicy.Proofs.Program.Encoded

/-!
# Programs survive JSON texts

The JSON text of a program is read back as that program exactly if its document is not nested
deeper than the reader goes, and is malformed if it is (`Program.ofJson_toJson`).

A condition that joins comparisons nests as deep as it is long, because `AND` groups to the left.
`Program.guarded` has such a condition, and crosses the limit with its 124th comparison.
-/

namespace AccessPolicy

/-! ## Documents of programs -/

theorem Document.Encoded.integral {d : Document} (h : d.Encoded) : d.Integral := by
  induction h with
  | null => exact .null
  | int low high => exact .int low high
  | string s => exact .string s
  | list _ ih => exact .list ih
  | object _ _ _ ih => exact .object ih

namespace Program

/-! ## JSON texts of programs -/

/-- The JSON text of a program is read back as that program up to the depth of 127, and is malformed
beyond it. -/
theorem ofJson_toJson {ds : List Declaration} (h : ∀ d ∈ ds, d.Fits) :
    ofJson (ofDeclarations ds).toJson =
      if (ofDeclarations ds).encode.depth ≤ 127 then .ok (ofDeclarations ds)
      else .error .malformed := by
  have hfits := Fits.ofDeclarations h
  have hread : Json.read Json.maxDepth (ofDeclarations ds).toJson =
      if (ofDeclarations ds).encode.depth ≤ 127 then some (ofDeclarations ds).encode else none :=
    Json.read_write Json.prettyLayout_blank (encoded_encode hfits).integral Json.maxDepth 0
  rw [ofJson, hread]
  by_cases hdepth : (ofDeclarations ds).encode.depth ≤ 127
  · rw [if_pos hdepth, if_pos hdepth, ofDocument?, decode_encode hfits]
    rfl
  · rw [if_neg hdepth, if_neg hdepth, ofDocument?]

/-! ## A program on either side of the limit -/

/-- The comparison `1 == 1`. -/
def always : Condition :=
  .comparison ⟨.eq, .literal (.number 1 1), .literal (.number 1 1), 1⟩

/-- Comparisons joined by `AND`, `n` of them after the first. -/
def conjunction : Nat → Condition
  | 0 => always
  | n + 1 => .and (conjunction n) always 1

/-- A policy that is guarded by a conjunction. -/
def guarded (n : Nat) : Program :=
  ofDeclarations [.policy {
    effect := .allow
    actions := .wildcard 1
    resource := "Doc"
    condition := some (conjunction n)
    line := 1 }]

theorem conjunction_fits (n : Nat) : (conjunction n).Fits := by
  have hone : (Expr.literal (.number 1 1)).Fits := by
    simp [Expr.Fits, Literal.Fits, maxInt64, maxUInt64]
  have halways : always.Fits := ⟨hone, hone, (by decide : 1 ≤ maxUInt64)⟩
  induction n with
  | zero => exact halways
  | succ n ih => exact ⟨ih, halways, by decide⟩

theorem guarded_fits (n : Nat) : ∀ d ∈ (guarded n).declarations, d.Fits := by
  simp [guarded, Declaration.Fits, ActionSet.Fits, ActionSet.literals, Literal.Fits,
    Literal.line, conjunction_fits, maxUInt64]

theorem depth_conjunction (n : Nat) : (conjunction n).encode.depth = n + 2 := by
  have halways : always.encode.depth = 2 := rfl
  induction n with
  | zero => exact halways
  | succ n ih =>
    simp [conjunction, Condition.encode, Document.depth, Document.depthFields, ih, halways]

/-- The program, its declarations, the policy and the two levels of a comparison come on top of the
conjunction. -/
theorem depth_guarded (n : Nat) : (guarded n).encode.depth = n + 5 := by
  simp [guarded, encode, Declaration.encode, ActionSet.encode, ActionSet.literals, Literal.encode,
    Document.depth, Document.depthFields, Document.depthItems, depth_conjunction]

theorem ofJson_toJson_guarded :
    (∀ d ∈ (guarded 122).declarations, d.Fits) ∧
      ofJson (guarded 122).toJson = .ok (guarded 122) ∧
      (∀ d ∈ (guarded 123).declarations, d.Fits) ∧
      ofJson (guarded 123).toJson = .error .malformed := by
  have hdepth : ∀ n, (ofDeclarations (guarded n).declarations).encode.depth = n + 5 := depth_guarded
  refine ⟨guarded_fits 122, (ofJson_toJson (guarded_fits 122)).trans ?_, guarded_fits 123,
    (ofJson_toJson (guarded_fits 123)).trans ?_⟩
  · rw [hdepth, if_pos (by omega)]
    rfl
  · rw [hdepth, if_neg (by omega)]

end Program

end AccessPolicy
