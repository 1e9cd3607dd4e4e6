import AccessPolicy.Proofs.Document.Yaml.RoundTrip
import AccessPolicy.Proofs.Program.Encoded

/-!
# Programs survive YAML texts

The YAML text of a program is read back as that program (`Program.ofYaml_toYaml`). Every string
without line ends in it is a string again, whatever else its characters would mean in YAML, because
a string that would be read as something else is written between quotes.
-/

namespace AccessPolicy

open Yaml (Writable IsKey)

/-- The keys of nodes are plain words. -/
theorem NodeType.isKey_of_mem_keys {t : NodeType} {key : String} (h : key ∈ t.keys) :
    IsKey key.toList := by
  have hkeys : ∀ key ∈ t.keys, key.toList.all Char.isLower = true ∧ key.toList ≠ [] ∧
      key.toList.length ≤ 256 ∧ Yaml.readsAsString key.toList = true := by
    cases t <;> decide
  obtain ⟨hletters, hne, hshort, hstring⟩ := hkeys key h
  exact ⟨List.all_eq_true.mp hletters, hne, hshort, hstring⟩

theorem Document.Encoded.writable {d : Document} (h : d.Encoded) : Writable d := by
  induction h with
  | null => exact .scalar Yaml.scalarOf_null
  | int low high => exact .scalar (Yaml.scalarOf_int low high)
  | string s => exact .scalar (Yaml.scalarOf_string s)
  | list _ ih => exact .list ih
  | object t hkeys _ ih =>
    exact .object (fun f hf => t.isKey_of_mem_keys (hkeys ▸ List.mem_map_of_mem hf)) ih

namespace Program

/-- The YAML text of a program that is not nested deeper than 127 is read back as the document of
that program, in which all strings are strings, and as the program. -/
theorem ofYaml_toYaml {ds : List Declaration} (h : ∀ d ∈ ds, d.Fits)
    (hdepth : (ofDeclarations ds).encode.depth ≤ 127) :
    Yaml.read (ofDeclarations ds).toYaml = some (ofDeclarations ds).encode ∧
      ofYaml (ofDeclarations ds).toYaml = .ok (ofDeclarations ds) := by
  have hfits := Fits.ofDeclarations h
  have hmax : (ofDeclarations ds).encode.depth ≤ Yaml.maxDepth := hdepth.trans (by decide)
  have hread : Yaml.read (ofDeclarations ds).toYaml = some (ofDeclarations ds).encode :=
    Yaml.read_write (encoded_encode hfits).writable hmax
  refine ⟨hread, ?_⟩
  rw [ofYaml, hread, ofDocument?, decode_encode hfits]
  rfl

/-- The quotes are there because the name and the role would be read as something else. -/
example : toYaml (ofDeclarations [.user { name := "017", role := "a: b", line := 1 }]) =
    "declarations:\n- line: 1\n  name: '017'\n  role: 'a: b'\n  type: UserDef\n" ++
      "line: 1\ntype: Program\n" := by
  rfl

/-- A program whose strings would not be read as strings if all of them were written plain. -/
def lookalikes : Program :=
  ofDeclarations [
    .role { name := "null", actions := .named (.quoted "true" 1) [.quoted "" 1], line := 1 },
    .user { name := "017", role := "0x1F", line := 2 },
    .resource { name := "- x", path := "/a: b #c\t", line := 3 },
    .policy {
      effect := .allow
      actions := .named (.bare "1.5" 4) []
      resource := "[a"
      condition := some (.comparison
        ⟨.eq, .literal (.string "\"k\": v" 4), .literal (.string "---" 4), 4⟩)
      line := 4 }]

theorem ofYaml_toYaml_lookalikes :
    (∀ d ∈ lookalikes.declarations, d.Fits) ∧ lookalikes.encode.depth ≤ 127 ∧
      Yaml.read lookalikes.toYaml = some lookalikes.encode ∧
      ofYaml lookalikes.toYaml = .ok lookalikes := by
  have hfits : ∀ d ∈ lookalikes.declarations, d.Fits := by
    simp [lookalikes, Declaration.Fits, ActionSet.Fits, ActionSet.literals,
      Condition.Fits, Expr.Fits, ActionName.literal, Literal.Fits, Literal.line,
      maxUInt64]
  have hdepth : lookalikes.encode.depth ≤ 127 := by decide
  exact ⟨hfits, hdepth, ofYaml_toYaml hfits hdepth⟩

end Program

end AccessPolicy
