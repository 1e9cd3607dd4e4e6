import AccessPolicy.Proofs.Program.Decoding

/-!
# Errors of decoding are true

An error of `Program.decode` names a path that leads to a value of the document, and a fault that
this value has, and a document that decodes has no fault at any place (`Program.faults_exact`). In
writing, the path of the root is `program` and every other path goes on from the index of a
declaration.
-/

namespace AccessPolicy

open DecodeError (Path Step pathText)

namespace DecodeError

/-- The step leads further into a declaration. -/
def Step.IsInner : Step → Prop
  | declaration _ => False
  | actions | action _ | condition | left | right | operand => True

/-- The path is that of the root or leads into a declaration, and is written so. -/
def Path.Rendered (path : Path) : Prop :=
  path = [] ∧ pathText path = "program" ∨
    ∃ i steps, path = .declaration i :: steps ∧ (∀ s ∈ steps, s.IsInner) ∧
      pathText path = "declarations[" ++ i.repr ++ "]" ++ String.join (steps.map Step.text)

end DecodeError

namespace Document

variable {v d : Document} {path : Path} {place : Place}

theorem isInner_and_ne_program_of_mem_parts {t : NodeType} :
    ∀ part ∈ t.parts, part.1.IsInner ∧ part.2.2 ≠ .program := by
  cases t <;> simp [NodeType.parts, Step.IsInner]

/-- A place below the root is reached by the index of a declaration and steps into it. -/
theorem Located.exists_steps (h : Located v path place d) :
    path = [] ∧ place = .program ∨
      place ≠ .program ∧ ∃ i steps, path = .declaration i :: steps ∧ ∀ s ∈ steps, s.IsInner := by
  induction h with
  | root => exact .inl ⟨rfl, rfl⟩
  | step h hstep ih =>
    cases hstep with
    | declaration hd hitems hc =>
      obtain ⟨rfl, -⟩ | ⟨hplace, -⟩ := ih
      · exact .inr ⟨by decide, _, [], rfl, by simp⟩
      · exact (hplace rfl).elim
    | part hd hpart hc hnull =>
      obtain ⟨hinner, hprogram⟩ := isInner_and_ne_program_of_mem_parts _ hpart
      obtain ⟨rfl, rfl⟩ | ⟨-, i, steps, rfl, hsteps⟩ := ih
      · -- A program has no parts but its declarations.
        obtain rfl := List.mem_singleton.mp hd.mem_types
        simp [NodeType.parts] at hpart
      · refine .inr ⟨hprogram, i, steps ++ [_], List.cons_append, ?_⟩
        exact List.forall_mem_append.mpr ⟨hsteps, List.forall_mem_singleton.mpr hinner⟩
    | action hc =>
      obtain ⟨-, hplace⟩ | ⟨-, i, steps, rfl, hsteps⟩ := ih
      · simp at hplace
      · exact .inr ⟨by decide, i, steps ++ [_], List.cons_append,
          List.forall_mem_append.mpr ⟨hsteps, by simp [Step.IsInner]⟩⟩

theorem Located.rendered (h : Located v path place d) : path.Rendered := by
  obtain ⟨rfl, -⟩ | ⟨-, i, steps, rfl, hsteps⟩ := h.exists_steps
  · exact .inl ⟨rfl, rfl⟩
  · refine .inr ⟨i, steps, rfl, hsteps, ?_⟩
    rw [pathText, if_neg nofun, List.map_cons, String.join_cons, Step.text]

end Document

namespace Program

open Document (Located Faulty)

/-- An error of decoding leads to a value that has the fault it names, and a document that decodes
has no fault anywhere. -/
theorem faults_exact (v : Document) :
    (∀ e, decode v = .error e →
      e.path.Rendered ∧ ∃ place d, Located v e.path place d ∧ Faulty place d e.cause) ∧
    ∀ p, decode v = .ok p → ∀ path place d, Located v path place d →
      ∀ cause, ¬ Faulty place d cause := by
  refine ⟨fun e h => ?_, fun p h path place d hlocated cause hfaulty => ?_⟩
  · obtain ⟨place, d, hlocated, hfaulty⟩ := (yields_decode v).of_eq_error h
    exact ⟨hlocated.rendered, place, d, hlocated, hfaulty⟩
  · obtain ⟨-, -, -, hfaultless⟩ := (yields_decode v).of_eq_ok h
    exact hfaultless.not_blamed ⟨path, cause⟩ ⟨place, d, hlocated, hfaulty⟩

/-- A node for the number one. -/
def numberOne : Document :=
  .object [("type", .string "Number"), ("line", .int 1), ("value", .int 1)]

/-- A node for a wildcard. -/
def anyAction : Document :=
  .object [("type", .string "Wildcard"), ("line", .int 1)]

/-- A program with a policy that compares the number one with an operand under a sign. -/
def signed (effect : String) (action : Document) (sign : String) (operand : Document) : Document :=
  .object [("type", .string "Program"), ("declarations", .list [.object [
    ("type", .string "PolicyDef"), ("line", .int 1), ("effect", .string effect),
    ("actions", .list [action]), ("resource", .string "Db"),
    ("condition", .object [
      ("type", .string "Comparison"), ("line", .int 1), ("operator", .string "=="),
      ("left", numberOne),
      ("right", .object [
        ("type", .string "UnaryExpr"), ("line", .int 1), ("operator", .string sign),
        ("operand", operand)])])]])]

/-- An unknown sign deep inside a condition is reported before an unknown effect and an action that
is no name. -/
theorem faults_exact_signed :
    decode (signed "PERMIT" numberOne "!" .null) =
      .error ⟨[.declaration 0, .condition, .right], .unknownOperator "!"⟩ ∧
    Path.Rendered [.declaration 0, .condition, .right] ∧
    (∃ place d,
      Located (signed "PERMIT" numberOne "!" .null) [.declaration 0, .condition, .right] place d ∧
      Faulty place d (.unknownOperator "!")) ∧
    ∀ path place d, Located (signed "ALLOW" anyAction "-" numberOne) path place d →
      ∀ cause, ¬ Faulty place d cause := by
  have herror : decode (signed "PERMIT" numberOne "!" .null) =
      .error ⟨[.declaration 0, .condition, .right], .unknownOperator "!"⟩ := by decide +kernel
  have hok : decode (signed "ALLOW" anyAction "-" numberOne) =
      .ok (ofDeclarations [.policy {
        effect := .allow
        actions := .wildcard 1
        resource := "Db"
        condition := some (.comparison ⟨.eq, .literal (.number 1 1),
          .unary .minus (.literal (.number 1 1)) 1, 1⟩)
        line := 1 }]) := by decide +kernel
  obtain ⟨hrendered, hfault⟩ := (faults_exact _).1 _ herror
  exact ⟨herror, hrendered, hfault, (faults_exact _).2 _ hok⟩

end Program

end AccessPolicy
