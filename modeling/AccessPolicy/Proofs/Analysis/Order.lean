import AccessPolicy.Proofs.Analysis.Suggestion
import AccessPolicy.Proofs.Analysis.Typing

/-!
# The order of declarations

Programs of the same declarations in another order have the same problems, but for the lines in
reports of names declared twice, which are as many for every name (`Analyzer.analyze_perm`). All
names are known before references are checked, and which name is suggested does not depend on the
order of the names, so a declaration is checked with the same outcome wherever it stands.
-/

namespace AccessPolicy

/-- Two analyses have found the same in some order, where of names declared again it counts only
how often that happened. -/
structure Analysis.Agrees (a b : Analysis) : Prop where
  names : ∀ kind name, name ∈ (a.symbols.table kind).names ↔ name ∈ (b.symbols.table kind).names
  problems : ∀ k ≠ Diagnostic.Kind.duplicateDeclaration,
    (a.problems.filter (·.kind = k)).Perm (b.problems.filter (·.kind = k))
  duplicates : ∀ kind name,
    a.problems.countP (·.isDuplicateOf kind name) = b.problems.countP (·.isDuplicateOf kind name)
  isOk : a.isOk = b.isOk

namespace Problem

theorem isDuplicateOf_eq_false {q : Problem} (h : q.kind ≠ .duplicateDeclaration)
    (kind : NameKind) (name : String) : q.isDuplicateOf kind name = false := by
  cases q with
  | duplicate => exact absurd rfl h
  | _ => rfl

theorem exists_isDuplicateOf {q : Problem} (h : q.kind = .duplicateDeclaration) :
    ∃ kind name, q.isDuplicateOf kind name = true := by
  cases q with
  | duplicate kind name => exact ⟨kind, name, by simp [isDuplicateOf]⟩
  | _ => simp [Problem.kind] at h

theorem IsTyping.kind_ne {q : Problem} (h : q.IsTyping) : q.kind ≠ .duplicateDeclaration := by
  cases q with
  | duplicate => exact h.elim
  | _ => exact nofun

end Problem

theorem Symbols.kind_of_mem_declareAll {s : Symbols} {ds : List Declaration} {q : Problem}
    (h : q ∈ (s.declareAll ds).2) : q.kind = .duplicateDeclaration := by
  obtain ⟨d, -, kind, name, first, rfl⟩ := exists_duplicate_of_mem_declareAll h
  rfl

namespace Analyzer

variable {z : Analyzer} {s t : Symbols} {p q : Program}

/-! ## References and conditions -/

theorem kind_of_checkReference {d : Declaration} {r : Problem}
    (h : z.checkReference s d = some r) : r.kind = .undefinedReference := by
  obtain ⟨kind, name, suggestion, rfl⟩ := exists_undefined_of_checkReference h
  rfl

/-- A reference is checked by the names that are known, whatever their order. -/
theorem checkReference_congr
    (h : ∀ kind name, name ∈ (s.table kind).names ↔ name ∈ (t.table kind).names) :
    z.checkReference s = z.checkReference t := by
  funext d
  unfold checkReference
  cases d.reference? with
  | none => rfl
  | some reference =>
    obtain ⟨kind, name, line⟩ := reference
    have hcontains : (s.table kind).contains name = (t.table kind).contains name := by
      rw [Bool.eq_iff_iff, SymbolTable.contains_iff, SymbolTable.contains_iff, h]
    have hclosest : closest name (s.table kind).names = closest name (t.table kind).names :=
      closest_congr (h kind)
    simp only [hcontains, hclosest]

variable (z s p) in
/-- The problems with references and conditions where the names in `s` are known. -/
def laterProblems : List Problem :=
  p.declarations.filterMap (z.checkReference s) ++ (Node.program p).walk.flatMap z.checkNode

theorem problems_analyze (z : Analyzer) (p : Program) :
    (z.analyze p).problems = (Symbols.empty.declareAll p.declarations).2 ++
      z.laterProblems (Symbols.empty.declareAll p.declarations).1 p :=
  List.append_assoc _ _ _

theorem kind_of_mem_laterProblems {r : Problem} (h : r ∈ z.laterProblems s p) :
    r.kind ≠ .duplicateDeclaration := by
  rcases List.mem_append.mp h with h | h
  · obtain ⟨d, -, hd⟩ := List.mem_filterMap.mp h
    rw [kind_of_checkReference hd]
    decide
  · obtain ⟨n, -, hn⟩ := List.mem_flatMap.mp h
    exact (isTyping_of_checkNode hn).kind_ne

theorem laterProblems_perm (h : p.declarations.Perm q.declarations)
    (hnames : ∀ kind name, name ∈ (s.table kind).names ↔ name ∈ (t.table kind).names) :
    (z.laterProblems s p).Perm (z.laterProblems t q) := by
  have hwalk : ((Node.program p).walk.flatMap z.checkNode).Perm
      ((Node.program q).walk.flatMap z.checkNode) := by
    rw [Node.walk_eq, Node.walk_eq, List.flatMap_cons, List.flatMap_cons]
    exact ((h.map Node.ofDeclaration).flatMap_right Node.walk).flatMap_right z.checkNode
  rw [laterProblems, laterProblems, checkReference_congr hnames]
  exact (h.filterMap _).append hwalk

/-! ## Whole analyses -/

theorem mem_names_analyze_iff {kind : NameKind} {name : String} :
    name ∈ ((z.analyze p).symbols.table kind).names ↔
      ∃ d ∈ p.declarations, d.declares kind name = true := by
  have hempty : name ∉ (Symbols.empty.table kind).names := by simp
  exact Symbols.mem_names_declareAll_iff.trans (or_iff_right hempty)

/-- Every name is reported once less than it is declared. -/
theorem countP_analyze (kind : NameKind) (name : String) :
    (z.analyze p).problems.countP (·.isDuplicateOf kind name) =
      p.declarations.countP (·.declares kind name) - 1 := by
  have hlater : (z.laterProblems (Symbols.empty.declareAll p.declarations).1 p).countP
      (·.isDuplicateOf kind name) = 0 := by
    rw [List.countP_eq_zero]
    intro r hr
    simp [Problem.isDuplicateOf_eq_false (kind_of_mem_laterProblems hr)]
  rw [problems_analyze, List.countP_append, hlater, Symbols.countP_declareAll]
  simp

theorem filter_kind_analyze {k : Diagnostic.Kind} (hk : k ≠ .duplicateDeclaration) :
    (z.analyze p).problems.filter (·.kind = k) =
      (z.laterProblems (Symbols.empty.declareAll p.declarations).1 p).filter (·.kind = k) := by
  have hduplicates : (Symbols.empty.declareAll p.declarations).2.filter (·.kind = k) = [] := by
    rw [List.filter_eq_nil_iff]
    intro r hr
    simpa [Symbols.kind_of_mem_declareAll hr] using hk.symm
  rw [problems_analyze, List.filter_append, hduplicates, List.nil_append]

section Perm

variable (h : p.declarations.Perm q.declarations)

include h

theorem mem_names_analyze_perm (kind : NameKind) (name : String) :
    name ∈ ((z.analyze p).symbols.table kind).names ↔
      name ∈ ((z.analyze q).symbols.table kind).names := by
  simp only [mem_names_analyze_iff, h.mem_iff]

theorem filter_kind_analyze_perm {k : Diagnostic.Kind} (hk : k ≠ .duplicateDeclaration) :
    ((z.analyze p).problems.filter (·.kind = k)).Perm
      ((z.analyze q).problems.filter (·.kind = k)) := by
  rw [filter_kind_analyze hk, filter_kind_analyze hk]
  exact (laterProblems_perm h (mem_names_analyze_perm (z := z) h)).filter _

theorem countP_analyze_perm (kind : NameKind) (name : String) :
    (z.analyze p).problems.countP (·.isDuplicateOf kind name) =
      (z.analyze q).problems.countP (·.isDuplicateOf kind name) := by
  rw [countP_analyze, countP_analyze, h.countP_eq]

/-- If something is wrong with a program, something is wrong with it in every order. -/
theorem problems_analyze_ne_nil (hp : (z.analyze p).problems ≠ []) :
    (z.analyze q).problems ≠ [] := by
  obtain ⟨r, hr⟩ := List.exists_mem_of_ne_nil _ hp
  by_cases hkind : r.kind = .duplicateDeclaration
  · obtain ⟨kind, name, hname⟩ := Problem.exists_isDuplicateOf hkind
    have hcount : 0 < (z.analyze q).problems.countP (·.isDuplicateOf kind name) := by
      rw [← countP_analyze_perm h, List.countP_pos_iff]
      exact ⟨r, hr, hname⟩
    obtain ⟨r', hr', -⟩ := List.countP_pos_iff.mp hcount
    exact List.ne_nil_of_mem hr'
  · have hmem : r ∈ (z.analyze p).problems.filter (·.kind = r.kind) := by simpa using hr
    exact List.ne_nil_of_mem
      (List.mem_of_mem_filter ((filter_kind_analyze_perm h hkind).mem_iff.mp hmem))

end Perm

/-- The order of the declarations does not matter to what is found in a program. -/
theorem analyze_perm (z : Analyzer) {p q : Program} (h : p.declarations.Perm q.declarations) :
    (z.analyze p).Agrees (z.analyze q) where
  names := mem_names_analyze_perm h
  problems k hk := filter_kind_analyze_perm h hk
  duplicates := countP_analyze_perm h
  isOk := by
    have hempty : (z.analyze p).problems = [] ↔ (z.analyze q).problems = [] :=
      not_iff_not.mp ⟨problems_analyze_ne_nil h, problems_analyze_ne_nil h.symm⟩
    rw [Bool.eq_iff_iff, Analysis.isOk, Analysis.isOk, List.isEmpty_iff, List.isEmpty_iff, hempty]

/-! ## A program and its mirror image -/

/-- A program with names declared twice and references to names that are misspelled, declared later
or used before. -/
def tangled : Program :=
  .ofDeclarations [
    .user ⟨"Bob", "Admni", 1⟩,
    .role ⟨"Admin", .wildcard 2, 2⟩,
    .role ⟨"Admix", .wildcard 3, 3⟩,
    .role ⟨"Admin", .wildcard 4, 4⟩,
    .user ⟨"Bob", "Admix", 5⟩,
    .policy {
      effect := .allow
      actions := .wildcard 6
      resource := "Doc"
      condition := some (.comparison
        ⟨.lt, .access ⟨"time", "hour", 6⟩, .literal (.string "noon" 6), 6⟩)
      line := 6 }]

/-- The program with its declarations from last to first. -/
def mirrored (p : Program) : Program :=
  .ofDeclarations p.declarations.reverse

/-- What is wrong with the program is wrong with its mirror image, the lines of the name declared
twice apart : the second declaration is now the first. -/
theorem analyze_perm_tangled :
    tangled.declarations.Perm (mirrored tangled).declarations ∧
      ((standard.analyze tangled).symbols.table .role).names = ["Admin", "Admix"] ∧
      (standard.analyze tangled).problems = [
        .duplicate .role "Admin" 2 4, .duplicate .user "Bob" 1 5,
        .undefined .role "Admni" 1 (some "Admin"), .undefined .resource "Doc" 6 none,
        .mismatch .numeric .categorical 6] ∧
      (∀ name, name ∈ ((standard.analyze (mirrored tangled)).symbols.table .role).names ↔
        name ∈ ["Admin", "Admix"]) ∧
      ((standard.analyze (mirrored tangled)).problems.filter (·.kind = .undefinedReference)).Perm
        [.undefined .role "Admni" 1 (some "Admin"), .undefined .resource "Doc" 6 none] ∧
      ((standard.analyze (mirrored tangled)).problems.filter (·.kind = .typeMismatch)).Perm
        [.mismatch .numeric .categorical 6] ∧
      (standard.analyze (mirrored tangled)).problems.countP (·.isDuplicateOf .role "Admin") = 1 ∧
      (standard.analyze (mirrored tangled)).isOk = false := by
  have hperm : tangled.declarations.Perm (mirrored tangled).declarations :=
    (List.reverse_perm _).symm
  have hnames : ((standard.analyze tangled).symbols.table .role).names = ["Admin", "Admix"] := by
    decide +kernel
  have hproblems : (standard.analyze tangled).problems = [
      .duplicate .role "Admin" 2 4, .duplicate .user "Bob" 1 5,
      .undefined .role "Admni" 1 (some "Admin"), .undefined .resource "Doc" 6 none,
      .mismatch .numeric .categorical 6] := by
    decide +kernel
  obtain ⟨hagree, hkinds, hduplicates, hok⟩ := standard.analyze_perm hperm
  refine ⟨hperm, hnames, hproblems, fun name => ?_, ?_, ?_, ?_, ?_⟩
  · rw [← hagree, hnames]
  · exact (hkinds _ (by decide)).symm.trans (.of_eq (by rw [hproblems]; decide))
  · exact (hkinds _ (by decide)).symm.trans (.of_eq (by rw [hproblems]; decide))
  · rw [← hduplicates, hproblems]
    decide
  · rw [← hok, Analysis.isOk, hproblems]
    rfl

end Analyzer

end AccessPolicy
