import AccessPolicy.Compilation
import AccessPolicy.Proofs.Grammar.Recovery
import AccessPolicy.Proofs.Source.Coverage

/-!
# Stages of compiling

The kind of a diagnostic tells which stage it comes from : cutting the text into tokens
(`filter_isLexical_compile`), parsing them (`filter_syntaxError_compile`), or neither of these. So
what a stage had to say can be found among the diagnostics of all.

Compiling with and without recovery differs in one stage only. Without a syntax error the outcome is
the same, and with one the first takes the place of all that parsing and analysis had to say
(`strict_eq_lenient`).
-/

namespace AccessPolicy

/-- The kinds that only the analysis of a program reports. -/
def Diagnostic.Kind.isSemantic (k : Kind) : Bool :=
  !k.isLexical && k ≠ .syntaxError

/-! ## Diagnostics by stage -/

theorem Lexeme.isLexical_of_fault? {l : Lexeme} {k : Diagnostic.Kind} (h : l.fault? = some k) :
    k.isLexical = true := by
  unfold fault? at h
  split at h
  · cases h
    rfl
  · cases h
    rfl
  · split at h <;> cases h
    rfl
  · simp at h

theorem isLexical_of_mem_tokenize {source : String} {d : Diagnostic}
    (h : d ∈ (tokenize source).diagnostics) : d.kind.isLexical = true := by
  obtain ⟨l, -, before, hread⟩ :=
    TokenStream.exists_lexeme_of_mem_diagnostics (s := .ofString source) rfl h
  have hgives := Lexeme.gives_read before l
  rw [hread] at hgives
  exact Lexeme.isLexical_of_fault? hgives.1

theorem Problem.isLexical_kind (p : Problem) : p.kind.isLexical = false := by
  cases p <;> rfl

theorem Problem.kind_ne_syntaxError (p : Problem) : p.kind ≠ .syntaxError := by
  cases p <;> exact nofun

theorem filter_isLexical_compile (source : String) (o : Options) :
    (compile source o).diagnostics.filter (fun d => d.kind.isLexical) =
      (tokenize source).diagnostics := by
  have hlexical : (tokenize source).diagnostics.filter (fun d => d.kind.isLexical) =
      (tokenize source).diagnostics :=
    List.filter_eq_self.mpr fun d hd => isLexical_of_mem_tokenize hd
  have hsyntax : ∀ es : List SyntaxError,
      (es.map SyntaxError.diagnostic).filter (fun d => d.kind.isLexical) = [] := fun es => by
    simp [List.filter_eq_nil_iff, SyntaxError.diagnostic, Diagnostic.Kind.isLexical]
  have hproblems : ∀ a : Analysis, a.diagnostics.filter (fun d => d.kind.isLexical) = [] :=
    fun a => by
      simp [List.filter_eq_nil_iff, Analysis.diagnostics, Problem.diagnostic,
        Problem.isLexical_kind]
  simp [compile, List.filter_append, hlexical, hsyntax, hproblems]

theorem filter_syntaxError_compile (source : String) (o : Options) :
    (compile source o).diagnostics.filter (fun d => d.kind = .syntaxError) =
      (Program.ofTokens o.recover (tokenize source).tokens).errors.map SyntaxError.diagnostic := by
  have hlexical :
      (tokenize source).diagnostics.filter (fun d => d.kind = .syntaxError) = [] := by
    refine List.filter_eq_nil_iff.mpr fun d hd hkind => ?_
    have hd := isLexical_of_mem_tokenize hd
    rw [of_decide_eq_true hkind] at hd
    cases hd
  have hsyntax : ∀ es : List SyntaxError,
      (es.map SyntaxError.diagnostic).filter (fun d => d.kind = .syntaxError) =
        es.map SyntaxError.diagnostic := fun es => by
    simp [List.filter_eq_self, SyntaxError.diagnostic]
  have hproblems : ∀ a : Analysis, a.diagnostics.filter (fun d => d.kind = .syntaxError) = [] :=
    fun a => by
      simp [List.filter_eq_nil_iff, Analysis.diagnostics, Problem.diagnostic,
        Problem.kind_ne_syntaxError]
  simp only [compile, List.filter_append, hlexical, hsyntax, hproblems, List.nil_append,
    List.append_nil]

theorem filter_isSemantic_compile (source : String) (o : Options) :
    (compile source o).diagnostics.filter (fun d => d.kind.isSemantic) =
      (o.analyzer.analyze (compile source o).program).diagnostics := by
  have hlexical : (tokenize source).diagnostics.filter (fun d => d.kind.isSemantic) = [] := by
    refine List.filter_eq_nil_iff.mpr fun d hd => ?_
    simp [Diagnostic.Kind.isSemantic, isLexical_of_mem_tokenize hd]
  have hsyntax : ∀ es : List SyntaxError,
      (es.map SyntaxError.diagnostic).filter (fun d => d.kind.isSemantic) = [] := fun es => by
    simp [List.filter_eq_nil_iff, SyntaxError.diagnostic, Diagnostic.Kind.isSemantic]
  have hproblems : ∀ a : Analysis,
      a.diagnostics.filter (fun d => d.kind.isSemantic) = a.diagnostics := fun a => by
    simp [List.filter_eq_self, Analysis.diagnostics, Problem.diagnostic,
      Diagnostic.Kind.isSemantic, Problem.isLexical_kind, Problem.kind_ne_syntaxError]
  simp only [compile, List.filter_append, hlexical, hsyntax, hproblems, List.nil_append]

/-! ## With and without recovery -/

theorem Program.ofTokens_false_of_nil {tokens : List Token}
    (h : (recover tokens).errors = []) : ofTokens false tokens = recover tokens := by
  have hparse : parse tokens = .ok (recover tokens).program := by rw [parse_eq_recover, h]
  have hrecover : recover tokens = ⟨(recover tokens).program, (recover tokens).errors⟩ := rfl
  rw [h] at hrecover
  rw [ofTokens, hparse]
  exact hrecover.symm

/-- Without recovery there is only the first error, and no program. -/
theorem Program.ofTokens_false_of_cons {tokens : List Token} {e : SyntaxError}
    {es : List SyntaxError} (h : (recover tokens).errors = e :: es) :
    ofTokens false tokens = ⟨ofDeclarations [], [e]⟩ := by
  have hparse : parse tokens = .error e := by rw [parse_eq_recover, h]
  rw [ofTokens, hparse]
  rfl

theorem Program.errors_ofTokens_sublist (recovering : Bool) (tokens : List Token) :
    (ofTokens recovering tokens).errors.Sublist (recover tokens).errors := by
  cases recovering with
  | true => exact List.Sublist.refl _
  | false =>
    cases herrors : (recover tokens).errors with
    | nil => rw [ofTokens_false_of_nil herrors, herrors]
    | cons e es =>
      rw [ofTokens_false_of_cons herrors]
      exact (List.nil_sublist es).cons_cons e

theorem Analyzer.diagnostics_analyze_nil (z : Analyzer) :
    (z.analyze (.ofDeclarations [])).diagnostics = [] := by
  have hwalk : (Node.program (.ofDeclarations [])).walk = [.program (.ofDeclarations [])] := by
    rw [Node.walk_eq]
    rfl
  rw [analyze, hwalk]
  rfl

/-- Compiling without recovery gives the same if there is no syntax error, and otherwise the first
in place of all that comes after it. -/
theorem compile_false_eq (source : String) (o : Options) :
    compile source { o with recover := false } =
      match (Program.recover (tokenize source).tokens).errors with
        | [] => compile source { o with recover := true }
        | e :: _ => ⟨(tokenize source).tokens, .ofDeclarations [],
            (tokenize source).diagnostics ++ [e.diagnostic]⟩ := by
  cases herrors : (Program.recover (tokenize source).tokens).errors with
  | nil =>
    simp only [compile, Program.ofTokens_false_of_nil herrors]
    rfl
  | cons e es =>
    simp only [compile, Program.ofTokens_false_of_cons herrors, Analyzer.diagnostics_analyze_nil,
      List.append_nil]
    rfl

theorem find?_syntaxError_compile (source : String) (o : Options) :
    (compile source { o with recover := true }).diagnostics.find?
        (fun d => d.kind = .syntaxError) =
      (Program.recover (tokenize source).tokens).errors.head?.map SyntaxError.diagnostic := by
  rw [← List.head?_filter, filter_syntaxError_compile, List.head?_map]
  rfl

/-- The parser that stops gives the first error of the one that goes on, or the same program if
there is none. Compiling without recovery gives the same as with it if there is no syntax error, and
otherwise no program and the first syntax error after what cutting the text into tokens had to
say. -/
theorem strict_eq_lenient :
    (∀ tokens, Program.parse tokens = match (Program.recover tokens).errors with
      | [] => .ok (Program.recover tokens).program
      | e :: _ => .error e) ∧
    ∀ (source : String) (o : Options),
      (compile source { o with recover := false }).isOk =
        (compile source { o with recover := true }).isOk ∧
      compile source { o with recover := false } =
        match (compile source { o with recover := true }).diagnostics.find?
            fun d => d.kind = .syntaxError with
          | none => compile source { o with recover := true }
          | some d => ⟨(compile source { o with recover := true }).tokens, .ofDeclarations [],
              (tokenize source).diagnostics ++ [d]⟩ := by
  refine ⟨Program.parse_eq_recover, fun source o => ?_⟩
  have hstrict := compile_false_eq source o
  have hfirst := find?_syntaxError_compile source o
  cases herrors : (Program.recover (tokenize source).tokens).errors with
  | nil =>
    rw [herrors] at hstrict hfirst
    rw [hstrict, hfirst]
    exact ⟨rfl, rfl⟩
  | cons e es =>
    rw [herrors] at hstrict hfirst
    have hlenient : (compile source { o with recover := true }).isOk = false :=
      List.isEmpty_eq_false_iff.mpr (List.ne_nil_of_mem (List.mem_of_find?_eq_some hfirst))
    rw [hlenient, hstrict, hfirst]
    exact ⟨List.isEmpty_eq_false_iff.mpr (by simp), rfl⟩

end AccessPolicy
