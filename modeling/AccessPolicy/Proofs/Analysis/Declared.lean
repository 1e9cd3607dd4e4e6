import AccessPolicy.Analysis.Analyzer
import Mathlib.Data.List.Basic
import Mathlib.Data.List.Perm.Basic

/-!
# Declared names

What a run over some declarations does to the symbols : a name is known after it if it was known
before or one of the declarations declares it (`Symbols.mem_names_declareAll_iff`), and every
declaration of a name that is known by then is reported, so that a name is reported once less than
it is declared (`Symbols.countP_declareAll`).
-/

namespace AccessPolicy

/-- Whether a declaration declares a name of a kind. -/
def Declaration.declares (kind : NameKind) (name : String) (d : Declaration) : Bool :=
  d.declared?.any fun (k, n, _) => k = kind && n = name

theorem Declaration.line_of_declared? {d : Declaration} {kind : NameKind} {name : String}
    {line : Nat} (h : d.declared? = some (kind, name, line)) : line = d.line := by
  cases d with
  | policy p => simp [declared?] at h
  | role | user | resource =>
    simp only [declared?, Option.some.injEq, Prod.mk.injEq] at h
    exact h.2.2.symm

/-- Whether a problem is that a name of a kind is declared again. -/
def Problem.isDuplicateOf (kind : NameKind) (name : String) : Problem → Bool
  | duplicate k n _ _ => k = kind && n = name
  | _ => false

namespace SymbolTable

/-- Every name has an entry. -/
theorem map_fst_entries (t : SymbolTable) : t.entries.map Prod.fst = t.names := by
  have hline : ∀ n ∈ t.order,
      ((t.lineOf? n).map fun line => (n, line)).map Prod.fst = some n := fun n hn => by
    obtain ⟨line, hline⟩ := Option.isSome_iff_exists.mp ((t.mem_order_iff n).mp hn)
    rw [lineOf?, hline]
    rfl
  rw [entries, List.map_filterMap, List.filterMap_congr hline, List.filterMap_some]
  rfl

end SymbolTable

namespace Symbols

variable {s : Symbols} {kind k : NameKind} {name n : String} {line : Nat}

@[simp] theorem table_setTable (s : Symbols) (k kind : NameKind) (t : SymbolTable) :
    (s.setTable k t).table kind = if k = kind then t else s.table kind := by
  cases k <;> cases kind <;> rfl

@[simp] theorem names_table_empty (kind : NameKind) : (empty.table kind).names = [] := by
  cases kind <;> rfl

/-! ## One name -/

/-- A name that is known leaves the symbols as they are and is reported with its first line. -/
theorem declare_of_lineOf?_eq_some {first : Nat} (h : (s.table k).lineOf? n = some first)
    (line : Nat) : s.declare k n line = (s, [.duplicate k n first line]) := by
  rw [declare, SymbolTable.declare_of_lineOf?_eq_some h]

/-- A new name is added to the table of its kind, and nothing is reported. -/
theorem declare_of_lineOf?_eq_none (h : (s.table k).lineOf? n = none) (line : Nat) :
    s.declare k n line = (s.setTable k ((s.table k).add n line h), []) := by
  rw [declare, SymbolTable.declare_of_lineOf?_eq_none h]

theorem mem_names_declare_iff :
    name ∈ ((s.declare k n line).1.table kind).names ↔
      name ∈ (s.table kind).names ∨ k = kind ∧ n = name := by
  cases hline : (s.table k).lineOf? n with
  | some first =>
    rw [declare_of_lineOf?_eq_some hline]
    refine (or_iff_left_of_imp ?_).symm
    rintro ⟨rfl, rfl⟩
    exact SymbolTable.mem_names_of_lineOf?_eq_some hline
  | none =>
    rw [declare_of_lineOf?_eq_none hline, table_setTable]
    by_cases hk : k = kind
    · subst hk
      simp [eq_comm]
    · simp [hk]

/-! ## All names -/

theorem declareAll_cons_of_none {d : Declaration} (h : d.declared? = none)
    (ds : List Declaration) : s.declareAll (d :: ds) = s.declareAll ds := by
  rw [declareAll, h]

theorem declareAll_cons_of_some {d : Declaration} (h : d.declared? = some (k, n, line))
    (ds : List Declaration) :
    s.declareAll (d :: ds) =
      (((s.declare k n line).1.declareAll ds).1,
        (s.declare k n line).2 ++ ((s.declare k n line).1.declareAll ds).2) := by
  rw [declareAll, h]

/-- All that is reported is that some declaration declares a name again, on its own line. -/
theorem exists_duplicate_of_mem_declareAll {ds : List Declaration} {q : Problem}
    (h : q ∈ (s.declareAll ds).2) :
    ∃ d ∈ ds, ∃ kind name first, q = .duplicate kind name first d.line := by
  induction ds generalizing s with
  | nil => simp [declareAll] at h
  | cons d ds ih =>
    rw [List.exists_mem_cons_iff]
    cases hd : d.declared? with
    | none => exact Or.inr (ih (declareAll_cons_of_none hd ds ▸ h))
    | some declared =>
      obtain ⟨k, n, line⟩ := declared
      obtain rfl := Declaration.line_of_declared? hd
      rw [declareAll_cons_of_some hd] at h
      rcases List.mem_append.mp h with h | h
      · cases hline : (s.table k).lineOf? n with
        | some first =>
          rw [declare_of_lineOf?_eq_some hline] at h
          exact Or.inl ⟨k, n, first, List.mem_singleton.mp h⟩
        | none => simp [declare_of_lineOf?_eq_none hline] at h
      · exact Or.inr (ih h)

theorem mem_names_declareAll_iff {ds : List Declaration} :
    name ∈ ((s.declareAll ds).1.table kind).names ↔
      name ∈ (s.table kind).names ∨ ∃ d ∈ ds, d.declares kind name = true := by
  induction ds generalizing s with
  | nil => simp [declareAll]
  | cons d ds ih =>
    rw [List.exists_mem_cons_iff]
    cases hd : d.declared? with
    | none =>
      have hother : ¬ d.declares kind name = true := by simp [Declaration.declares, hd]
      rw [declareAll_cons_of_none hd, ih, or_iff_right hother]
    | some declared =>
      obtain ⟨k, n, line⟩ := declared
      have hdeclares : d.declares kind name = true ↔ k = kind ∧ n = name := by
        simp [Declaration.declares, hd]
      rw [declareAll_cons_of_some hd, ih, mem_names_declare_iff, hdeclares, or_assoc]

/-- A name that is known is reported as often as it is declared, and another once less. -/
theorem countP_declareAll (ds : List Declaration) :
    (s.declareAll ds).2.countP (·.isDuplicateOf kind name) =
      ds.countP (·.declares kind name) - if name ∈ (s.table kind).names then 0 else 1 := by
  induction ds generalizing s with
  | nil => simp [declareAll]
  | cons d ds ih =>
    cases hd : d.declared? with
    | none =>
      have hother : d.declares kind name = false := by simp [Declaration.declares, hd]
      rw [declareAll_cons_of_none hd, ih, List.countP_cons_of_neg (by simp [hother])]
    | some declared =>
      obtain ⟨k, n, line⟩ := declared
      rw [declareAll_cons_of_some hd, List.countP_append, ih]
      simp only [mem_names_declare_iff]
      by_cases hname : k = kind ∧ n = name
      · obtain ⟨rfl, rfl⟩ := hname
        have hself : d.declares k n = true := by simp [Declaration.declares, hd]
        rw [List.countP_cons_of_pos hself]
        cases hline : (s.table k).lineOf? n with
        | some first =>
          have hn : n ∈ (s.table k).names := SymbolTable.mem_names_of_lineOf?_eq_some hline
          simp [declare_of_lineOf?_eq_some hline, hn, Problem.isDuplicateOf, Nat.add_comm]
        | none =>
          have hn : n ∉ (s.table k).names := SymbolTable.lineOf?_eq_none_iff.mp hline
          simp [declare_of_lineOf?_eq_none hline, hn]
      · have hother : d.declares kind name = false := by
          simpa [Declaration.declares, hd] using hname
        have hquiet : (s.declare k n line).2.countP (·.isDuplicateOf kind name) = 0 := by
          cases hline : (s.table k).lineOf? n with
          | some first =>
            simpa [declare_of_lineOf?_eq_some hline, Problem.isDuplicateOf] using hname
          | none => simp [declare_of_lineOf?_eq_none hline]
        rw [List.countP_cons_of_neg (by simp [hother]), hquiet]
        simp [hname]

end Symbols

end AccessPolicy
