import AccessPolicy.Proofs.Analysis.Declared

/-!
# Categories of operands

Which operands have a category, said without the analysis : numbers and arithmetic on numbers
are numeric, names and strings are categorical, an attribute has the category that it is
registered with, and a wildcard can stand for either (`Expr.HasCategory`).

The analysis never works a category out. It guesses one without looking inside an operand, and
checks every node of a program on its own. `Analyzer.hasCategory_iff` says what these checks
amount to for one operand : it has a category if nothing in it is reported and the guess does
not speak against it. So the analysis reports nothing about conditions exactly if both operands
of every comparison have a category in common (`Analyzer.no_typing_problem_iff`).
-/

namespace AccessPolicy

/-! ## The judgement -/

/-- The operand has the category where attributes are those of the registry `r`. -/
inductive Expr.HasCategory (r : Registry) : Expr → Category → Prop
  | number (n : Int) (line : Nat) : HasCategory r (.literal (.number n line)) .numeric
  | string (s : String) (line : Nat) : HasCategory r (.literal (.string s line)) .categorical
  | identifier (name : String) (line : Nat) :
    HasCategory r (.literal (.identifier name line)) .categorical
  | wildcard (line : Nat) (t : Category) : HasCategory r (.literal (.wildcard line)) t
  | access {a : AttributeAccess} {t : Category} (h : r.lookup a.object a.name = .found t) :
    HasCategory r (.access a) t
  | binary (op : BinaryOp) {left right : Expr} (line : Nat) (hl : HasCategory r left .numeric)
    (hr : HasCategory r right .numeric) : HasCategory r (.binary op left right line) .numeric
  | unary (sign : Sign) {operand : Expr} (line : Nat) (h : HasCategory r operand .numeric) :
    HasCategory r (.unary sign operand line) .numeric

/-- The operands have a category in common. -/
def Comparison.WellTyped (r : Registry) (c : Comparison) : Prop :=
  ∃ t, c.left.HasCategory r t ∧ c.right.HasCategory r t

/-- The comparison is one of those that a condition joins, at any depth. -/
inductive Comparison.PartOf (c : Comparison) : Condition → Prop
  | whole : PartOf c (.comparison c)
  | andLeft {left : Condition} (right : Condition) (line : Nat) (h : PartOf c left) :
    PartOf c (.and left right line)
  | andRight (left : Condition) {right : Condition} (line : Nat) (h : PartOf c right) :
    PartOf c (.and left right line)
  | orLeft {left : Condition} (right : Condition) (line : Nat) (h : PartOf c left) :
    PartOf c (.or left right line)
  | orRight (left : Condition) {right : Condition} (line : Nat) (h : PartOf c right) :
    PartOf c (.or left right line)

/-- The problems that a condition can have. -/
def Problem.IsTyping : Problem → Prop
  | unknownNamespace _ _ | unknownAttribute _ _ _ | mismatch _ _ _ | nonNumeric _ _ _ => True
  | duplicate _ _ _ _ | undefined _ _ _ _ => False

theorem Symbols.not_isTyping_of_declareAll {s : Symbols} {ds : List Declaration} {q : Problem}
    (h : q ∈ (s.declareAll ds).2) : ¬ q.IsTyping := by
  obtain ⟨d, -, kind, name, first, rfl⟩ := exists_duplicate_of_mem_declareAll h
  exact id

namespace Analyzer

variable {z : Analyzer}

/-- All that can be wrong with a reference is that it is to no name, on the line of its
declaration. -/
theorem exists_undefined_of_checkReference {s : Symbols} {d : Declaration} {q : Problem}
    (h : z.checkReference s d = some q) :
    ∃ kind name suggestion, q = .undefined kind name d.line suggestion := by
  unfold checkReference at h
  split at h
  · simp at h
  · next kind name line hreference =>
    have hline : line = d.line := by
      cases d <;> simp_all [Declaration.reference?, Declaration.line]
    dsimp only at h
    split at h
    · simp at h
    · exact ⟨kind, name, _, hline ▸ (Option.some.inj h).symm⟩

theorem not_isTyping_of_checkReference {s : Symbols} {d : Declaration} {q : Problem}
    (h : z.checkReference s d = some q) : ¬ q.IsTyping := by
  obtain ⟨kind, name, suggestion, rfl⟩ := exists_undefined_of_checkReference h
  exact id

/-- What is wrong with a node is a problem of a condition, on the line of the node. -/
theorem of_mem_checkNode {n : Node} {q : Problem} (h : q ∈ z.checkNode n) :
    q.IsTyping ∧ q.line = n.line := by
  have hoperand : ∀ {operator line e}, q ∈ z.checkOperand operator line e →
      q.IsTyping ∧ q.line = line := by
    intro operator line e h
    unfold checkOperand at h
    split at h
    · rw [List.mem_singleton.mp h]
      exact ⟨trivial, rfl⟩
    · simp at h
  unfold checkNode at h
  split at h
  · unfold checkAccess at h
    split at h
    · simp at h
    · rw [List.mem_singleton.mp h]
      exact ⟨trivial, rfl⟩
    · rw [List.mem_singleton.mp h]
      exact ⟨trivial, rfl⟩
  · unfold checkComparison at h
    split at h
    · split at h
      · simp at h
      · rw [List.mem_singleton.mp h]
        exact ⟨trivial, rfl⟩
    · simp at h
  · next e =>
    cases e with
    | binary op left right line => exact (List.mem_append.mp h).elim hoperand hoperand
    | unary sign operand line => exact hoperand h
    | _ => simp [checkArithmetic] at h
  · simp at h

theorem isTyping_of_checkNode {n : Node} {q : Problem} (h : q ∈ z.checkNode n) : q.IsTyping :=
  (of_mem_checkNode h).1

/-! ## One node and all below it -/

variable (z) in
/-- Nothing is reported about a node or any node below it. -/
def Passes (n : Node) : Prop :=
  ∀ m ∈ n.walk, z.checkNode m = []

theorem passes_iff {n : Node} :
    z.Passes n ↔ z.checkNode n = [] ∧ ∀ c ∈ n.children, z.Passes c := by
  unfold Passes
  rw [Node.walk_eq, List.forall_mem_cons]
  simp only [List.mem_flatMap]
  refine and_congr_right fun _ => ⟨?_, ?_⟩
  · exact fun h c hc m hm => h m ⟨c, hc, hm⟩
  · rintro h m ⟨c, hc, hm⟩
    exact h c hc m hm

theorem passes_pair_iff {n c d : Node} (h : n.children = [c, d]) :
    z.Passes n ↔ z.checkNode n = [] ∧ z.Passes c ∧ z.Passes d := by
  rw [passes_iff, h, List.forall_mem_cons, List.forall_mem_singleton]

theorem passes_leaf_iff {n : Node} (h : n.children = []) : z.Passes n ↔ z.checkNode n = [] := by
  rw [passes_iff, h]
  exact and_iff_left (List.forall_mem_nil _)

/-! ## Operands -/

variable (z) in
/-- What can be told of an operand without looking inside does not speak against a category. -/
def Allows (e : Expr) (t : Category) : Prop :=
  ∀ c, z.categoryOf e = some c → c = t

theorem allows_of_eq {e : Expr} {c t : Category} (h : z.categoryOf e = some c) :
    z.Allows e t ↔ c = t := by
  simp [Allows, h]

theorem allows_of_none {e : Expr} (h : z.categoryOf e = none) (t : Category) : z.Allows e t := by
  simp [Allows, h]

theorem checkOperand_eq_nil_iff {operator : String} {line : Nat} {e : Expr} :
    z.checkOperand operator line e = [] ↔ z.Allows e .numeric := by
  unfold checkOperand
  cases he : z.categoryOf e with
  | none => simp [allows_of_none he]
  | some c => cases c <;> simp [allows_of_eq he]

theorem checkComparison_eq_nil_iff {c : Comparison} :
    z.checkComparison c = [] ↔ ∃ t, z.Allows c.left t ∧ z.Allows c.right t := by
  unfold checkComparison
  cases hl : z.categoryOf c.left with
  | none =>
    have hright : ∃ t, z.Allows c.right t := by
      cases hr : z.categoryOf c.right with
      | none => exact ⟨.numeric, allows_of_none hr _⟩
      | some r => exact ⟨r, (allows_of_eq hr).mpr rfl⟩
    simpa [allows_of_none hl] using hright
  | some l =>
    cases hr : z.categoryOf c.right with
    | none => simp [allows_of_eq hl, allows_of_none hr]
    | some r => simp [allows_of_eq hl, allows_of_eq hr, eq_comm]

theorem hasCategory_access_iff {a : AttributeAccess} {t : Category} :
    (Expr.access a).HasCategory z.registry t ↔
      z.Passes (.access a) ∧ z.Allows (.access a) t := by
  rw [passes_leaf_iff rfl, checkNode, checkAccess]
  cases ha : z.registry.lookup a.object a.name with
  | found c =>
    have hc : z.categoryOf (.access a) = some c := by simp [categoryOf, ha]
    rw [allows_of_eq hc]
    refine ⟨fun h => ?_, ?_⟩
    · cases h with
      | access h => exact ⟨rfl, Lookup.found.inj (ha.symm.trans h)⟩
    · rintro ⟨-, rfl⟩
      exact .access ha
  | _ =>
    refine ⟨fun h => ?_, fun h => by simp at h⟩
    cases h with
    | access h => simp [ha] at h

theorem hasCategory_literal_iff {l : Literal} {t : Category} :
    (Expr.literal l).HasCategory z.registry t ↔ z.Allows (.literal l) t := by
  refine ⟨fun h c hc => ?_, fun h => ?_⟩
  · cases h <;> cases hc <;> rfl
  · cases l with
    | identifier name line =>
      obtain rfl := h .categorical rfl
      exact .identifier name line
    | number n line =>
      obtain rfl := h .numeric rfl
      exact .number n line
    | string s line =>
      obtain rfl := h .categorical rfl
      exact .string s line
    | wildcard line => exact .wildcard line t

/-- An operand has a category if nothing in it is reported and its looks do not speak against
the category. -/
theorem hasCategory_iff {e : Expr} {t : Category} :
    e.HasCategory z.registry t ↔ z.Passes (.ofExpr e) ∧ z.Allows e t := by
  induction e generalizing t with
  | binary op left right line ihl ihr =>
    have hcheck : z.checkNode (.ofExpr (.binary op left right line)) = [] ↔
        z.Allows left .numeric ∧ z.Allows right .numeric := by
      rw [← checkOperand_eq_nil_iff, ← checkOperand_eq_nil_iff]
      exact List.append_eq_nil_iff
    rw [passes_pair_iff rfl, allows_of_eq (c := .numeric) rfl, hcheck]
    refine ⟨fun h => ?_, ?_⟩
    · cases h with
      | binary _ _ hl hr =>
        obtain ⟨hpl, hal⟩ := ihl.mp hl
        obtain ⟨hpr, har⟩ := ihr.mp hr
        exact ⟨⟨⟨hal, har⟩, hpl, hpr⟩, rfl⟩
    · rintro ⟨⟨⟨hal, har⟩, hpl, hpr⟩, rfl⟩
      exact .binary op line (ihl.mpr ⟨hpl, hal⟩) (ihr.mpr ⟨hpr, har⟩)
  | unary sign operand line ih =>
    have hcheck : z.checkNode (.ofExpr (.unary sign operand line)) = [] ↔
        z.Allows operand .numeric := checkOperand_eq_nil_iff
    have hpasses : z.Passes (.ofExpr (.unary sign operand line)) ↔
        z.Allows operand .numeric ∧ z.Passes (.ofExpr operand) := by
      rw [passes_iff, hcheck]
      exact and_congr_right fun _ => List.forall_mem_singleton
    rw [hpasses, allows_of_eq (e := .unary sign operand line) (c := .numeric) rfl]
    refine ⟨fun h => ?_, ?_⟩
    · cases h with
      | unary _ _ h => exact ⟨(ih.mp h).symm, rfl⟩
    · rintro ⟨⟨hal, hp⟩, rfl⟩
      exact .unary sign line (ih.mpr ⟨hp, hal⟩)
  | access a => exact hasCategory_access_iff
  | literal l =>
    rw [hasCategory_literal_iff]
    exact (and_iff_right ((passes_leaf_iff rfl).mpr rfl)).symm

/-! ## Conditions -/

theorem passes_comparison_iff {c : Comparison} :
    z.Passes (.comparison c) ↔ c.WellTyped z.registry := by
  have hcheck : z.checkNode (.comparison c) = [] ↔ _ := checkComparison_eq_nil_iff
  rw [passes_pair_iff rfl, hcheck, Comparison.WellTyped]
  simp only [hasCategory_iff]
  refine ⟨?_, ?_⟩
  · rintro ⟨⟨t, hal, har⟩, hpl, hpr⟩
    exact ⟨t, ⟨hpl, hal⟩, hpr, har⟩
  · rintro ⟨t, ⟨hpl, hal⟩, hpr, har⟩
    exact ⟨⟨t, hal, har⟩, hpl, hpr⟩

theorem passes_condition_iff {c : Condition} :
    z.Passes (.ofCondition c) ↔ ∀ d : Comparison, d.PartOf c → d.WellTyped z.registry := by
  induction c with
  | and left right line ihl ihr =>
    rw [passes_pair_iff rfl, ihl, ihr]
    refine ⟨?_, ?_⟩
    · rintro ⟨-, hl, hr⟩ d hd
      cases hd with
      | andLeft _ _ hd => exact hl d hd
      | andRight _ _ hd => exact hr d hd
    · exact fun h => ⟨rfl, fun d hd => h d (.andLeft right line hd),
        fun d hd => h d (.andRight left line hd)⟩
  | or left right line ihl ihr =>
    rw [passes_pair_iff rfl, ihl, ihr]
    refine ⟨?_, ?_⟩
    · rintro ⟨-, hl, hr⟩ d hd
      cases hd with
      | orLeft _ _ hd => exact hl d hd
      | orRight _ _ hd => exact hr d hd
    · exact fun h => ⟨rfl, fun d hd => h d (.orLeft right line hd),
        fun d hd => h d (.orRight left line hd)⟩
  | comparison c =>
    refine passes_comparison_iff.trans ⟨fun hc d hd => ?_, fun h => h c .whole⟩
    cases hd
    exact hc

/-! ## Programs -/

theorem passes_literals (a : ActionSet) : ∀ n ∈ a.literals.map Node.literal, z.Passes n := by
  intro n hn
  obtain ⟨l, -, rfl⟩ := List.mem_map.mp hn
  exact (passes_leaf_iff rfl).mpr rfl

theorem passes_policy_iff {p : Policy} :
    z.Passes (.policy p) ↔ ∀ c, p.condition = some c → z.Passes (.ofCondition c) := by
  rw [passes_iff, Node.children, List.forall_mem_append]
  have hactions := passes_literals (z := z) p.actions
  cases hc : p.condition with
  | none => simpa [checkNode] using hactions
  | some c => simpa [checkNode] using fun _ => hactions

theorem passes_declaration_iff {d : Declaration} :
    z.Passes (.ofDeclaration d) ↔ ∀ p, d = .policy p → ∀ c, p.condition = some c →
      ∀ k : Comparison, k.PartOf c → k.WellTyped z.registry := by
  cases d with
  | policy p => simp [Node.ofDeclaration, passes_policy_iff, passes_condition_iff]
  | role r =>
    have hrole : z.Passes (.role r) := passes_iff.mpr ⟨rfl, passes_literals r.actions⟩
    simpa [Node.ofDeclaration] using hrole
  | user u => simpa using (passes_leaf_iff rfl).mpr rfl
  | resource r => simpa using (passes_leaf_iff rfl).mpr rfl

theorem passes_program_iff {p : Program} :
    z.Passes (.program p) ↔ ∀ d ∈ p.declarations, z.Passes (.ofDeclaration d) := by
  rw [passes_iff, Node.children, List.forall_mem_map]
  exact and_iff_right rfl

/-- The first two passes report nothing about conditions, and the third nothing else. -/
theorem forall_not_isTyping_iff {p : Program} :
    (∀ q ∈ (z.analyze p).problems, ¬ q.IsTyping) ↔ z.Passes (.program p) := by
  have hdeclared : ∀ q ∈ (Symbols.empty.declareAll p.declarations).2, ¬ q.IsTyping :=
    fun _ => Symbols.not_isTyping_of_declareAll
  have hreferences : ∀ s, ∀ q ∈ p.declarations.filterMap (z.checkReference s), ¬ q.IsTyping := by
    intro s q hq
    obtain ⟨d, -, hd⟩ := List.mem_filterMap.mp hq
    exact not_isTyping_of_checkReference hd
  rw [analyze]
  simp only [List.forall_mem_append]
  rw [and_iff_right ⟨hdeclared, hreferences _⟩]
  refine ⟨fun h n hn => ?_, fun h q hq => ?_⟩
  · refine List.eq_nil_iff_forall_not_mem.mpr fun q hq => ?_
    exact h q (List.mem_flatMap.mpr ⟨n, hn, hq⟩) (isTyping_of_checkNode hq)
  · obtain ⟨n, hn, hq⟩ := List.mem_flatMap.mp hq
    simp [h n hn] at hq

/-- The analysis reports nothing about conditions exactly if both operands of every comparison
in a policy have a category in common. -/
theorem no_typing_problem_iff (z : Analyzer) (p : Program) :
    (∀ q ∈ (z.analyze p).problems, ¬ q.IsTyping) ↔
      ∀ d, .policy d ∈ p.declarations → ∀ c, d.condition = some c →
        ∀ k : Comparison, k.PartOf c → k.WellTyped z.registry := by
  rw [forall_not_isTyping_iff, passes_program_iff]
  simp only [passes_declaration_iff]
  refine ⟨fun h d hd => h _ hd d rfl, ?_⟩
  rintro h _ hd d rfl
  exact h d hd

end Analyzer

end AccessPolicy
