import AccessPolicy.Proofs.Analysis.Tables

/-!
# References to names

Users refer to roles and policies to resources, and what they refer to may be declared anywhere in
the program. Which references should be reported is said here from the program as a whole
(`Program.dangling?`). The second pass goes by the tables of the first instead. These have the same
names (`SymbolTable.Holds.mem_names_iff`), and neither their order nor repeated names matter to what
is suggested, so the pass reports what it should, between the repeated names and the problems with
conditions (`Analyzer.references_exact`).
-/

namespace AccessPolicy

/-! ## References without a declaration -/

/-- The problem with a reference to a name where `declared` are the names of its kind. -/
def danglingReference? (suggestions : Bool) (kind : NameKind) (name : String) (line : Nat)
    (declared : List String) : Option Problem :=
  if name ∈ declared then none
  else some (.undefined kind name line (if suggestions then closest name declared else none))

namespace Program

/-- The problem with a declaration that refers to a name declared nowhere in the program. -/
def dangling? (p : Program) (suggestions : Bool) : Declaration → Option Problem
  | .user u => danglingReference? suggestions .role u.role u.line (p.roles.map Role.name)
  | .policy q =>
    danglingReference? suggestions .resource q.resource q.line (p.resources.map Resource.name)
  | .role _ | .resource _ => none

theorem declaredNames_role (p : Program) :
    declaredNames .role p.declarations = p.roles.map Role.name := by
  rw [declaredNames, roles, List.map_filterMap]
  exact congrArg (List.filterMap · _) (funext fun d => by cases d <;> rfl)

theorem declaredNames_resource (p : Program) :
    declaredNames .resource p.declarations = p.resources.map Resource.name := by
  rw [declaredNames, resources, List.map_filterMap]
  exact congrArg (List.filterMap · _) (funext fun d => by cases d <;> rfl)

theorem dangling?_eq (p : Program) (suggestions : Bool) (d : Declaration) :
    p.dangling? suggestions d = d.reference?.bind fun (kind, name, line) =>
      danglingReference? suggestions kind name line (declaredNames kind p.declarations) := by
  cases d with
  | user u => simp [dangling?, Declaration.reference?, declaredNames_role]
  | policy q => simp [dangling?, Declaration.reference?, declaredNames_resource]
  | role r => rfl
  | resource r => rfl

end Program

/-- A name that is suggested is one of those declared, and only if suggestions are on. -/
theorem mem_of_danglingReference? {suggestions : Bool} {kind k : NameKind} {name n best : String}
    {line l : Nat} {declared : List String}
    (h : danglingReference? suggestions kind name line declared =
      some (.undefined k n l (some best))) :
    k = kind ∧ suggestions = true ∧ best ∈ declared := by
  unfold danglingReference? at h
  split at h
  · simp at h
  · simp only [Option.some.injEq, Problem.undefined.injEq] at h
    obtain ⟨rfl, -, -, hbest⟩ := h
    split at hbest
    · next hon =>
      obtain ⟨-, hmem, -⟩ := closest_eq_some_iff.mp hbest
      exact ⟨rfl, hon, List.mem_of_mem_filter hmem⟩
    · simp at hbest

/-! ## The second pass -/

namespace Analyzer

/-- With the names of a program in the tables, a declaration is reported as it should be. -/
theorem checkReference_eq_dangling? (z : Analyzer) {s : Symbols} {p : Program}
    (h : s.Records p.declarations) (d : Declaration) :
    z.checkReference s d = p.dangling? z.suggestions d := by
  rw [checkReference, p.dangling?_eq]
  cases d.reference? with
  | none => rfl
  | some reference =>
    obtain ⟨kind, name, line⟩ := reference
    have hclosest : closest name (s.table kind).names =
        closest name (declaredNames kind p.declarations) :=
      closest_congr fun _ => (h kind).mem_names_iff
    have hcontains : (s.table kind).contains name = true ↔
        name ∈ declaredNames kind p.declarations :=
      SymbolTable.contains_iff.trans (h kind).mem_names_iff
    simp only [Option.bind_some, danglingReference?, hcontains, hclosest]

/-- The references that are reported, in order, after the repeated names and before the problems
with conditions, are those to a name that is declared nowhere in the program. A name that is
suggested is declared somewhere in it. -/
theorem references_exact (z : Analyzer) (p : Program) :
    (∃ duplicates typing,
      (z.analyze p).problems =
        duplicates ++ p.declarations.filterMap (p.dangling? z.suggestions) ++ typing ∧
      (∀ q ∈ duplicates, q.kind = .duplicateDeclaration) ∧ ∀ q ∈ typing, q.IsTyping) ∧
    ∀ kind name line best, .undefined kind name line (some best) ∈ (z.analyze p).problems →
      z.suggestions = true ∧ ∃ d ∈ p.declarations, d.nameOf? kind = some best := by
  have hreferences : p.declarations.filterMap (z.checkReference (z.analyze p).symbols) =
      p.declarations.filterMap (p.dangling? z.suggestions) :=
    congrArg (List.filterMap · _) (funext (z.checkReference_eq_dangling? (z.records_symbols p)))
  have hproblems : (z.analyze p).problems =
      (Symbols.empty.declareAll p.declarations).2 ++
        p.declarations.filterMap (p.dangling? z.suggestions) ++
        (Node.program p).walk.flatMap z.checkNode := by
    rw [← hreferences]
    rfl
  have htyping : ∀ q ∈ (Node.program p).walk.flatMap z.checkNode, q.IsTyping := by
    intro q hq
    obtain ⟨n, -, hn⟩ := List.mem_flatMap.mp hq
    exact isTyping_of_checkNode hn
  refine ⟨⟨_, _, hproblems, fun _ => Symbols.kind_of_mem_declareAll, htyping⟩, ?_⟩
  intro kind name line best h
  rw [hproblems, List.mem_append, List.mem_append] at h
  rcases h with (h | h) | h
  · exact absurd (Symbols.kind_of_mem_declareAll h) (by simp [Problem.kind])
  · obtain ⟨d, -, hd⟩ := List.mem_filterMap.mp h
    rw [p.dangling?_eq] at hd
    obtain ⟨⟨k, n, l⟩, -, hdangling⟩ := Option.bind_eq_some_iff.mp hd
    obtain ⟨rfl, hon, hbest⟩ := mem_of_danglingReference? hdangling
    exact ⟨hon, List.mem_filterMap.mp hbest⟩
  · exact (htyping _ h).elim

end Analyzer

end AccessPolicy
