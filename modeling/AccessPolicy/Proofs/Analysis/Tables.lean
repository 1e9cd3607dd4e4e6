import AccessPolicy.Proofs.Analysis.Order

/-!
# Symbol tables and names declared twice

What the first pass should find is said here from the declarations alone : the names of a kind
(`declaredNames`), the first declaration of each (`firstDeclaration?`), and for every declaration
whether one before it has the same name (`repeats`). The pass fills three tables on its way, and
`SymbolTable.Holds` says what is in each of them after some declarations : the names so far, each
once, with the line of its first declaration. One more declaration keeps that true and is reported
exactly if it repeats a name (`Symbols.Records.declare`), so the tables and the reports of a whole
program are as they should be (`Analyzer.tables_exact`).
-/

namespace AccessPolicy

/-! ## Names -/

namespace Declaration

/-- What a declaration names. -/
def named? : Declaration → Option (NameKind × String)
  | role r => some (.role, r.name)
  | user u => some (.user, u.name)
  | resource r => some (.resource, r.name)
  | policy _ => none

/-- The name in a declaration of a kind. -/
def nameOf? (kind : NameKind) (d : Declaration) : Option String :=
  d.named?.bind fun (k, name) => if k = kind then some name else none

theorem declared?_eq (d : Declaration) :
    d.declared? = d.named?.map fun (kind, name) => (kind, name, d.line) := by
  cases d <;> rfl

theorem nameOf?_of_named? {d : Declaration} {k : NameKind} {name : String}
    (h : d.named? = some (k, name)) (kind : NameKind) :
    d.nameOf? kind = if k = kind then some name else none := by
  rw [nameOf?, h, Option.bind_some]

theorem nameOf?_of_not_named {d : Declaration} (h : d.named? = none) (kind : NameKind) :
    d.nameOf? kind = none := by
  rw [nameOf?, h, Option.bind_none]

end Declaration

/-- The names of a kind, in order and as often as they are declared. -/
def declaredNames (kind : NameKind) (ds : List Declaration) : List String :=
  ds.filterMap (·.nameOf? kind)

/-- The first declaration of a name. -/
def firstDeclaration? (kind : NameKind) (name : String) (ds : List Declaration) :
    Option Declaration :=
  ds.find? (·.nameOf? kind = some name)

/-- The problem with a declaration behind others : one of them declares its name. -/
def Declaration.repeats? (before : List Declaration) (d : Declaration) : Option Problem :=
  match d.named? with
  | none => none
  | some (kind, name) =>
    (firstDeclaration? kind name before).map fun first => .duplicate kind name first.line d.line

/-- Whether a declaration declares a name of a kind. -/
def Declaration.isOf (kind : NameKind) (d : Declaration) : Bool :=
  (d.nameOf? kind).isSome

/-- Whether a problem is that some name of a kind is declared again. -/
def Problem.isDuplicateIn (kind : NameKind) : Problem → Bool
  | duplicate k _ _ _ => k = kind
  | _ => false

/-- The problems with declarations whose name is declared before, in order. -/
def repeats (ds : List Declaration) : List Problem :=
  ds.zipIdx.filterMap fun (d, i) => d.repeats? (ds.take i)

theorem declaredNames_concat (kind : NameKind) (ds : List Declaration) (d : Declaration) :
    declaredNames kind (ds ++ [d]) = declaredNames kind ds ++ (d.nameOf? kind).toList := by
  rw [declaredNames, List.filterMap_append, declaredNames]
  cases h : d.nameOf? kind <;> simp [h]

theorem firstDeclaration?_concat (kind : NameKind) (name : String) (ds : List Declaration)
    (d : Declaration) :
    firstDeclaration? kind name (ds ++ [d]) =
      (firstDeclaration? kind name ds).or
        (if d.nameOf? kind = some name then some d else none) := by
  rw [firstDeclaration?, List.find?_append, firstDeclaration?, List.find?_singleton]
  simp

theorem firstDeclaration?_isSome_iff {kind : NameKind} {name : String} {ds : List Declaration} :
    (firstDeclaration? kind name ds).isSome = true ↔ name ∈ declaredNames kind ds := by
  simp [firstDeclaration?, declaredNames]

theorem exists_firstDeclaration?_of_mem {kind : NameKind} {name : String}
    {ds : List Declaration} (h : name ∈ declaredNames kind ds) :
    ∃ first, firstDeclaration? kind name ds = some first :=
  Option.isSome_iff_exists.mp (firstDeclaration?_isSome_iff.mpr h)

theorem firstDeclaration?_eq_none {kind : NameKind} {name : String} {ds : List Declaration}
    (h : name ∉ declaredNames kind ds) : firstDeclaration? kind name ds = none :=
  Option.not_isSome_iff_eq_none.mp (mt firstDeclaration?_isSome_iff.mp h)

/-- One more name stands last among the distinct ones, unless it is one of them. -/
theorem eraseDups_concat (names : List String) (name : String) :
    (names ++ [name]).eraseDups =
      if name ∈ names then names.eraseDups else names.eraseDups ++ [name] := by
  rw [List.eraseDups_append, List.removeAll]
  by_cases h : name ∈ names
  · simp [h]
  · simp [h, List.eraseDups_cons]

/-! ## What the tables hold -/

/-- The table holds the names of a kind in some declarations, with the lines of the first. -/
structure SymbolTable.Holds (t : SymbolTable) (k : NameKind) (ds : List Declaration) : Prop where
  kind : t.kind = k
  names : t.names = (declaredNames k ds).eraseDups
  lineOf? : ∀ name, t.lineOf? name = (firstDeclaration? k name ds).map Declaration.line

namespace SymbolTable.Holds

variable {t : SymbolTable} {kind : NameKind} {name : String} {ds : List Declaration}
  {d : Declaration}

theorem mem_names_iff (h : t.Holds kind ds) : name ∈ t.names ↔ name ∈ declaredNames kind ds := by
  rw [h.names, List.mem_eraseDups]

/-- A declaration of another kind leaves the table right as it is. -/
theorem skip (h : t.Holds kind ds) (hd : d.nameOf? kind = none) : t.Holds kind (ds ++ [d]) where
  kind := h.kind
  names := by
    rw [declaredNames_concat, hd, Option.toList_none, List.append_nil, h.names]
  lineOf? n := by
    rw [firstDeclaration?_concat, hd, if_neg nofun, Option.or_none, h.lineOf?]

/-- A declaration of a name that is known leaves the table right as it is. -/
theorem again (h : t.Holds kind ds) (hd : d.nameOf? kind = some name)
    (hname : name ∈ declaredNames kind ds) : t.Holds kind (ds ++ [d]) where
  kind := h.kind
  names := by
    rw [declaredNames_concat, hd, Option.toList_some, eraseDups_concat, if_pos hname, h.names]
  lineOf? n := by
    rw [firstDeclaration?_concat, hd, h.lineOf?]
    by_cases hn : name = n
    · subst hn
      obtain ⟨first, hfirst⟩ := exists_firstDeclaration?_of_mem hname
      rw [hfirst, Option.some_or]
    · rw [if_neg (by simpa using hn), Option.or_none]

/-- A new name comes last in the table, with the line of its declaration. -/
theorem add (h : t.Holds kind ds) (hd : d.nameOf? kind = some name)
    (hline : t.lineOf? name = none) : (t.add name d.line hline).Holds kind (ds ++ [d]) where
  kind := h.kind
  names := by
    have hname : name ∉ declaredNames kind ds :=
      mt h.mem_names_iff.mpr (lineOf?_eq_none_iff.mp hline)
    rw [declaredNames_concat, hd, Option.toList_some, eraseDups_concat, if_neg hname, ← h.names,
      names_add]
  lineOf? n := by
    rw [lineOf?_add, firstDeclaration?_concat, hd]
    by_cases hn : n = name
    · subst hn
      have hfresh : firstDeclaration? kind n ds = none :=
        Option.map_eq_none_iff.mp (by rw [← h.lineOf?, hline])
      rw [if_pos rfl, hfresh, if_pos rfl]
      rfl
    · rw [if_neg hn, if_neg fun heq => hn (Option.some.inj heq).symm, Option.or_none, h.lineOf?]

end SymbolTable.Holds

namespace Symbols

variable {s t : Symbols} {ds before : List Declaration} {d : Declaration} {k kind : NameKind}
  {name : String}

/-- The tables hold the names in some declarations. -/
def Records (s : Symbols) (ds : List Declaration) : Prop :=
  ∀ kind, (s.table kind).Holds kind ds

theorem records_empty : empty.Records [] := fun kind =>
  ⟨by cases kind <;> rfl, names_table_empty kind, fun _ => by cases kind <;> rfl⟩

/-- A declaration with a name keeps the tables right, and it is reported exactly if its name is
declared before. -/
theorem Records.declare (h : s.Records ds) (hd : d.named? = some (k, name)) :
    (s.declare k name d.line).1.Records (ds ++ [d]) ∧
      (s.declare k name d.line).2 = (d.repeats? ds).toList := by
  have hself : d.nameOf? k = some name := by rw [Declaration.nameOf?_of_named? hd, if_pos rfl]
  have hother : ∀ kind, k ≠ kind → (s.table kind).Holds kind (ds ++ [d]) := fun kind hk =>
    (h kind).skip (by rw [Declaration.nameOf?_of_named? hd, if_neg hk])
  by_cases hname : name ∈ declaredNames k ds
  · obtain ⟨first, hfirst⟩ := exists_firstDeclaration?_of_mem hname
    have hline : (s.table k).lineOf? name = some first.line := by
      rw [(h k).lineOf?, hfirst, Option.map_some]
    rw [declare_of_lineOf?_eq_some hline]
    refine ⟨fun kind => ?_, by simp [Declaration.repeats?, hd, hfirst]⟩
    by_cases hk : k = kind
    · subst hk
      exact (h k).again hself hname
    · exact hother kind hk
  · have hline : (s.table k).lineOf? name = none :=
      SymbolTable.lineOf?_eq_none_iff.mpr (mt (h k).mem_names_iff.mp hname)
    rw [declare_of_lineOf?_eq_none hline]
    refine ⟨fun kind => ?_, by simp [Declaration.repeats?, hd, firstDeclaration?_eq_none hname]⟩
    rw [table_setTable]
    by_cases hk : k = kind
    · subst hk
      rw [if_pos rfl]
      exact (h k).add hself hline
    · rw [if_neg hk]
      exact hother kind hk

/-- The tables stay right over some declarations, and those are reported whose name is declared
before. -/
theorem Records.declareAll (h : s.Records before) (ds : List Declaration) :
    (s.declareAll ds).1.Records (before ++ ds) ∧
      (s.declareAll ds).2 = (ds.zipIdx before.length).filterMap
        fun (d, i) => d.repeats? ((before ++ ds).take i) := by
  induction ds generalizing s before with
  | nil => exact ⟨by simpa [Symbols.declareAll] using h, rfl⟩
  | cons d ds ih =>
    -- `d` moves over to the declarations before, so places are those in the whole list.
    have happend : before ++ d :: ds = (before ++ [d]) ++ ds := by simp
    have htake : ((before ++ [d]) ++ ds).take before.length = before := by simp
    rw [happend, List.zipIdx_cons, List.filterMap_cons]
    dsimp only
    rw [htake]
    cases hd : d.named? with
    | none =>
      have hdeclared : d.declared? = none := by rw [d.declared?_eq, hd]; rfl
      have hrepeats : d.repeats? before = none := by rw [Declaration.repeats?, hd]
      obtain ⟨hrecords, hproblems⟩ := ih fun kind =>
        (h kind).skip (Declaration.nameOf?_of_not_named hd kind)
      rw [declareAll_cons_of_none hdeclared, hrepeats]
      exact ⟨hrecords, by rw [hproblems, List.length_append]; rfl⟩
    | some declared =>
      obtain ⟨k, name⟩ := declared
      have hdeclared : d.declared? = some (k, name, d.line) := by rw [d.declared?_eq, hd]; rfl
      obtain ⟨hstep, hreport⟩ := h.declare hd
      obtain ⟨hrecords, hproblems⟩ := ih hstep
      rw [declareAll_cons_of_some hdeclared]
      refine ⟨hrecords, ?_⟩
      rw [hproblems, hreport, List.length_append]
      cases d.repeats? before <;> rfl

/-! ## One kind and the others -/

theorem table_declare_of_ne (h : k ≠ kind) (s : Symbols) (name : String) (line : Nat) :
    (s.declare k name line).1.table kind = s.table kind ∧
      (s.declare k name line).2.filter (·.isDuplicateIn kind) = [] := by
  cases hline : (s.table k).lineOf? name with
  | some first =>
    rw [declare_of_lineOf?_eq_some hline]
    exact ⟨rfl, by simp [Problem.isDuplicateIn, h]⟩
  | none =>
    rw [declare_of_lineOf?_eq_none hline, table_setTable, if_neg h]
    exact ⟨rfl, rfl⟩

/-- What a declaration does to the table of its kind depends on that table only. -/
theorem declare_congr (h : s.table kind = t.table kind) (name : String) (line : Nat) :
    (s.declare kind name line).1.table kind = (t.declare kind name line).1.table kind ∧
      (s.declare kind name line).2.filter (·.isDuplicateIn kind) =
        (t.declare kind name line).2 := by
  cases hline : (t.table kind).lineOf? name with
  | some first =>
    rw [declare_of_lineOf?_eq_some (h ▸ hline), declare_of_lineOf?_eq_some hline]
    exact ⟨h, by simp [Problem.isDuplicateIn]⟩
  | none =>
    rw [declare_of_lineOf?_eq_none hline, declare_of_lineOf?_eq_none (h ▸ hline), table_setTable,
      table_setTable, if_pos rfl, if_pos rfl]
    exact ⟨by simp only [h], rfl⟩

/-- The table of a kind, and the reports of names of that kind, come from the declarations of the
kind alone. -/
theorem declareAll_filter (h : s.table kind = t.table kind) (ds : List Declaration) :
    (s.declareAll ds).1.table kind = (t.declareAll (ds.filter (·.isOf kind))).1.table kind ∧
      (s.declareAll ds).2.filter (·.isDuplicateIn kind) =
        (t.declareAll (ds.filter (·.isOf kind))).2 := by
  induction ds generalizing s t with
  | nil => exact ⟨h, rfl⟩
  | cons d ds ih =>
    cases hd : d.named? with
    | none =>
      have hdeclared : d.declared? = none := by rw [d.declared?_eq, hd]; rfl
      have hother : d.isOf kind = false := by
        rw [Declaration.isOf, Declaration.nameOf?_of_not_named hd]; rfl
      rw [declareAll_cons_of_none hdeclared, List.filter_cons_of_neg (by simp [hother])]
      exact ih h
    | some declared =>
      obtain ⟨k, name⟩ := declared
      have hdeclared : d.declared? = some (k, name, d.line) := by rw [d.declared?_eq, hd]; rfl
      rw [declareAll_cons_of_some hdeclared, List.filter_append]
      by_cases hk : k = kind
      · subst hk
        have hself : d.isOf k = true := by
          rw [Declaration.isOf, Declaration.nameOf?_of_named? hd, if_pos rfl]; rfl
        obtain ⟨htable, hreport⟩ := declare_congr h name d.line
        obtain ⟨htables, hreports⟩ := ih htable
        rw [List.filter_cons_of_pos hself, declareAll_cons_of_some hdeclared, hreport, hreports]
        exact ⟨htables, rfl⟩
      · have hother : d.isOf kind = false := by
          rw [Declaration.isOf, Declaration.nameOf?_of_named? hd, if_neg hk]; rfl
        obtain ⟨htable, hreport⟩ := table_declare_of_ne hk s name d.line
        obtain ⟨htables, hreports⟩ := ih (htable.trans h)
        rw [List.filter_cons_of_neg (by simp [hother]), hreport, hreports]
        exact ⟨htables, rfl⟩

end Symbols

/-! ## Whole programs -/

/-- The tables and the reports of names declared twice are those that some declarations should
have. -/
structure Analysis.Records (a : Analysis) (ds : List Declaration) : Prop where
  kind : ∀ kind, (a.symbols.table kind).kind = kind
  /-- The names of a kind, each once, in the order of their first declarations. -/
  names : ∀ kind, (a.symbols.table kind).names = (declaredNames kind ds).eraseDups
  contains : ∀ kind name,
    (a.symbols.table kind).contains name = true ↔ name ∈ declaredNames kind ds
  /-- The line of a name is that of its first declaration. -/
  lineOf? : ∀ kind name, (a.symbols.table kind).lineOf? name =
    (firstDeclaration? kind name ds).map Declaration.line
  size : ∀ kind, (a.symbols.table kind).size = (declaredNames kind ds).eraseDups.length
  /-- Repeated names are reported in order and before anything else. -/
  problems : ∃ later, a.problems = repeats ds ++ later ∧
    ∀ q ∈ later, q.kind ≠ .duplicateDeclaration

namespace Analyzer

theorem problems_analyze_eq_repeats (z : Analyzer) (p : Program) :
    (z.analyze p).problems =
      repeats p.declarations ++ z.laterProblems (z.analyze p).symbols p := by
  rw [problems_analyze, (Symbols.records_empty.declareAll p.declarations).2]
  rfl

theorem records_symbols (z : Analyzer) (p : Program) :
    (z.analyze p).symbols.Records p.declarations :=
  (Symbols.records_empty.declareAll p.declarations).1

theorem filter_isDuplicateIn_analyze (z : Analyzer) (p : Program) (kind : NameKind) :
    (z.analyze p).problems.filter (·.isDuplicateIn kind) =
      (Symbols.empty.declareAll p.declarations).2.filter (·.isDuplicateIn kind) := by
  have hlater : (z.laterProblems (Symbols.empty.declareAll p.declarations).1 p).filter
      (·.isDuplicateIn kind) = [] := by
    refine List.filter_eq_nil_iff.mpr fun q hq => ?_
    have hkind := kind_of_mem_laterProblems hq
    cases q with
    | duplicate => exact absurd rfl hkind
    | _ => simp [Problem.isDuplicateIn]
  rw [problems_analyze, List.filter_append, hlater, List.append_nil]

/-- The tables of a program list the names of each kind in the order of their first declarations,
and every later declaration of a name is reported, before anything else. Of two programs with the
same declarations of a kind, the table and the reports of that kind are the same. -/
theorem tables_exact (z : Analyzer) (p : Program) :
    (z.analyze p).Records p.declarations ∧
      ∀ (kind : NameKind) (q : Program),
        q.declarations.filter (·.isOf kind) = p.declarations.filter (·.isOf kind) →
          (z.analyze q).symbols.table kind = (z.analyze p).symbols.table kind ∧
          (z.analyze q).problems.filter (·.isDuplicateIn kind) =
            (z.analyze p).problems.filter (·.isDuplicateIn kind) := by
  have hrecords := z.records_symbols p
  refine ⟨⟨fun kind => (hrecords kind).kind, fun kind => (hrecords kind).names,
    fun kind _ => SymbolTable.contains_iff.trans (hrecords kind).mem_names_iff,
    fun kind => (hrecords kind).lineOf?, fun kind => ?_, ?_⟩, fun kind q hq => ?_⟩
  · exact congrArg List.length (hrecords kind).names
  · exact ⟨_, z.problems_analyze_eq_repeats p, fun _ => kind_of_mem_laterProblems⟩
  · obtain ⟨htable, hreports⟩ := Symbols.declareAll_filter
      (rfl : Symbols.empty.table kind = _) p.declarations
    obtain ⟨htable', hreports'⟩ := Symbols.declareAll_filter
      (rfl : Symbols.empty.table kind = _) q.declarations
    rw [filter_isDuplicateIn_analyze, filter_isDuplicateIn_analyze, hreports, hreports', hq]
    rw [hq] at htable'
    exact ⟨htable'.trans htable.symm, rfl⟩

end Analyzer

/-- A name is reported with its first line each time, and apart from the same name of another
kind. -/
example :
    repeats [.role ⟨"Ops", .wildcard 1, 1⟩, .user ⟨"Ops", "Ops", 2⟩,
      .role ⟨"Ops", .wildcard 3, 3⟩, .role ⟨"Ops", .wildcard 4, 4⟩] =
        [.duplicate .role "Ops" 1 3, .duplicate .role "Ops" 1 4] := by decide

end AccessPolicy
