import AccessPolicy.Program.Decode
import AccessPolicy.Proofs.Program.Gist

/-!
# Faults of a document

What a document must hold depends on the place, and a place is found by a path from the root : there
are declarations in a program, conditions and action lists in declarations, operands in comparisons
(`Document.Located`). A place asks for fields, and so does the type of the node that stands there
(`Place.fields`, `NodeType.fields`, `NodeType.parts`). A value at a place is faulty if it is no
object, or an object without a field that is asked for, with such a field of the wrong sort, of a
type that does not belong there or with an unknown operator, or if it lists actions that are none
(`Document.Faulty`).

A document without faults at any place is `Document.Faultless`. It is so if every value has what is
asked for and every part of it is without faults (`Document.Faultless.of_parts`).
-/

namespace AccessPolicy

open DecodeError (Path Step Cause)

/-! ## Places and types -/

/-- What a field must hold that is no node. -/
inductive FieldSort where
  | text
  | list
  | integer (low high : Int)
deriving DecidableEq, Repr

/-- The value is of the sort. -/
def FieldSort.Holds : FieldSort → Document → Prop
  | text, d => ∃ s, d = .string s
  | list, d => ∃ items, d = .list items
  | integer low high, d => ∃ n, d = .int n ∧ low ≤ n ∧ n ≤ high

/-- The places of a document that encodes a program. -/
inductive Place where
  | program
  | declaration
  | actions
  | action
  | condition
  | operand
deriving DecidableEq, Repr

namespace Place

/-- The types of the nodes that may stand at a place. -/
def types : Place → List NodeType
  | program => [.program]
  | declaration => [.role, .user, .resource, .policy]
  | actions => []
  | action => [.identifier, .number, .string, .wildcard]
  | condition => [.and, .or, .comparison]
  | operand => [.binary, .unary, .access, .identifier, .number, .string, .wildcard]

/-- The types that may stand at a place, in words. -/
def expected : Place → String
  | program => "Program"
  | declaration => "RoleDef, UserDef, ResourceDef or PolicyDef"
  | actions => ""
  | condition => "And, Or or Comparison"
  | action | operand => "a literal or expression node"

/-- The fields that are asked for at a place before the type is known. The line of the root is
not. -/
def fields : Place → List (String × FieldSort)
  | program => [("type", .text)]
  | actions => []
  | declaration | action | condition | operand =>
    [("line", .integer 0 maxUInt64), ("type", .text)]

end Place

namespace NodeType

/-- The fields that a node of a type needs besides, and that are no nodes. -/
def fields : NodeType → List (String × FieldSort)
  | program => [("declarations", .list)]
  | role => [("name", .text), ("actions", .list)]
  | user => [("name", .text), ("role", .text)]
  | resource => [("name", .text), ("path", .text)]
  | policy => [("effect", .text), ("actions", .list), ("resource", .text)]
  | comparison | binary | unary => [("operator", .text)]
  | access => [("object", .text), ("attribute", .text)]
  | identifier | string => [("value", .text)]
  | number => [("value", .integer (-(maxInt64 + 1)) maxInt64)]
  | and | or | wildcard => []

/-- The parts of a node that are places of their own : the step to them, their keys and what they
are. -/
def parts : NodeType → List (Step × String × Place)
  | role => [(.actions, "actions", .actions)]
  | policy => [(.actions, "actions", .actions), (.condition, "condition", .condition)]
  | and | or => [(.left, "left", .condition), (.right, "right", .condition)]
  | comparison | binary => [(.left, "left", .operand), (.right, "right", .operand)]
  | unary => [(.operand, "operand", .operand)]
  | _ => []

/-- The key of the operator of a node, with the operators that it may be. That of a policy is its
effect. -/
def operators? : NodeType → Option (String × List String)
  | policy => some ("effect", ["ALLOW", "DENY"])
  | comparison => some ("operator", ["==", "!=", "<", ">", "<=", ">="])
  | binary => some ("operator", ["+", "-", "*", "/"])
  | unary => some ("operator", ["+", "-"])
  | _ => none

/-- What is asked for is what an encoded node has, where the program has a line too. -/
theorem mem_keys_iff {t : NodeType} {key : String} :
    key ∈ t.keys ↔ key = "line" ∨ key = "type" ∨ key ∈ t.fields.map Prod.fst ∨
      key ∈ t.parts.map fun part => part.2.1 := by
  cases t <;> simp [keys, fields, parts] <;> tauto

/-- An operator is a text of its own. -/
theorem mem_fields_of_operators? {t : NodeType} {key : String} {symbols : List String}
    (h : t.operators? = some (key, symbols)) : (key, .text) ∈ t.fields := by
  cases t <;> simp_all [operators?, fields]

end NodeType

/-- One wildcard, or some names : what the nodes in an action list may be. -/
def AreActions (types : List (Option NodeType)) : Prop :=
  types = [some .wildcard] ∨ types ≠ [] ∧ ∀ t ∈ types, t = some .identifier ∨ t = some .string

namespace Document

variable {v d c : Document} {path : Path} {place inner : Place} {t : NodeType} {step : Step}
  {key : String} {sort : FieldSort}

/-! ## Faults -/

/-- The value is a node of a type that may stand at the place. -/
structure IsNodeAt (d : Document) (place : Place) (t : NodeType) : Prop where
  nodeType? : d.nodeType? = some t
  mem_types : t ∈ place.types

/-- One step leads from the value at a place to a place in it. A policy without a condition says
`null` there, which is no place. -/
inductive Leads : Place → Document → Step → Place → Document → Prop
  | declaration {d c : Document} {items : List Document} {i : Nat}
    (hd : d.IsNodeAt .program .program) (hitems : d.get? "declarations" = some (list items))
    (hc : items[i]? = some c) : Leads .program d (.declaration i) .declaration c
  | part {place inner : Place} {d c : Document} {t : NodeType} {step : Step} {key : String}
    (hd : d.IsNodeAt place t) (hpart : (step, key, inner) ∈ t.parts) (hc : d.get? key = some c)
    (hnull : t = .policy → c ≠ null) : Leads place d step inner c
  | action {items : List Document} {c : Document} {j : Nat} (hc : items[j]? = some c) :
    Leads .actions (list items) (.action j) .action c

/-- The path leads from the root `v` to a place and the value there. -/
inductive Located (v : Document) : Path → Place → Document → Prop
  | root : Located v [] .program v
  | step {path : Path} {place inner : Place} {d c : Document} {step : Step}
    (h : Located v path place d) (hstep : Leads place d step inner c) :
    Located v (path ++ [step]) inner c

/-- The value at the place must have the field, and of the sort. -/
def Needs (place : Place) (d : Document) (key : String) (sort : FieldSort) : Prop :=
  (key, sort) ∈ place.fields ∨ ∃ t, d.IsNodeAt place t ∧ (key, sort) ∈ t.fields

/-- The value at the place must have the part. -/
def NeedsPart (place : Place) (d : Document) (key : String) : Prop :=
  ∃ t step inner, d.IsNodeAt place t ∧ (step, key, inner) ∈ t.parts

/-- What an error says is wrong is wrong with the value `d` at a place. -/
def Faulty (place : Place) (d : Document) : Cause → Prop
  | .notAnObject => place ≠ .actions ∧ ∀ fields, d ≠ object fields
  | .missingField key =>
    (∃ fields, d = object fields) ∧ ((∃ sort, Needs place d key sort) ∨ NeedsPart place d key) ∧
      d.get? key = none
  | .wrongType key => ∃ sort c, Needs place d key sort ∧ d.get? key = some c ∧ ¬ sort.Holds c
  | .unexpectedType found expected =>
    place ≠ .actions ∧ d.get? "type" = some (string found) ∧
      (∀ t ∈ place.types, t.name ≠ found) ∧ expected = place.expected
  | .unknownOperator operator =>
    ∃ t key symbols, d.IsNodeAt place t ∧ t.operators? = some (key, symbols) ∧
      d.get? key = some (string operator) ∧ operator ∉ symbols
  | .invalidActions =>
    place = .actions ∧ ∃ items, d = list items ∧
      (∀ c ∈ items, ∃ path l, Literal.decode path c = .ok l) ∧ ¬ AreActions (items.map nodeType?)

/-- The error is true of the document `v` : its path leads to a value with the fault that it
names. -/
def Blamed (v : Document) (e : DecodeError) : Prop :=
  ∃ place d, v.Located e.path place d ∧ Faulty place d e.cause

/-! ## No faults -/

/-- There is no fault at a place, nor at any place in it. -/
inductive Faultless : Place → Document → Prop
  | intro {place : Place} {d : Document} (hfault : ∀ cause, ¬ Faulty place d cause)
    (hinner : ∀ step inner c, Leads place d step inner c → Faultless inner c) : Faultless place d

theorem Located.faultless (h : Located v path place d) (hv : Faultless .program v) :
    Faultless place d := by
  induction h with
  | root => exact hv
  | step h hstep ih =>
    obtain ⟨-, hinner⟩ := ih
    exact hinner _ _ _ hstep

theorem Faultless.not_blamed (hv : Faultless .program v) (e : DecodeError) : ¬ Blamed v e := by
  rintro ⟨place, d, hlocated, hfaulty⟩
  obtain ⟨hfault, -⟩ := hlocated.faultless hv
  exact hfault e.cause hfaulty

/-- The value has the field, and of the sort. -/
def HasField (d : Document) (f : String × FieldSort) : Prop :=
  ∃ c, d.get? f.1 = some c ∧ f.2.Holds c

/-- There is no fault where a value has what is asked for, a known operator, and parts and
declarations without faults. -/
theorem Faultless.of_parts (hd : d.IsNodeAt place t) (hplace : ∀ f ∈ place.fields, d.HasField f)
    (hfields : ∀ f ∈ t.fields, d.HasField f)
    (hoperator : ∀ key symbols, t.operators? = some (key, symbols) →
      ∃ symbol ∈ symbols, d.get? key = some (string symbol))
    (hparts : ∀ part ∈ t.parts, ∃ c, d.get? part.2.1 = some c ∧
      ((t = .policy → c ≠ null) → Faultless part.2.2 c))
    (hitems : t = .program → ∀ items, d.get? "declarations" = some (list items) →
      ∀ c ∈ items, Faultless .declaration c) : Faultless place d := by
  obtain ⟨fields, rfl⟩ := exists_fields_of_nodeType? hd.nodeType?
  have htype : ∀ {t'}, (object fields).IsNodeAt place t' → t' = t := fun hd' =>
    Option.some.inj (hd'.nodeType?.symm.trans hd.nodeType?)
  have hneeds : ∀ {key sort}, Needs place (object fields) key sort →
      (object fields).HasField (key, sort) := by
    rintro key sort (hmem | ⟨t', hd', hmem⟩)
    · exact hplace _ hmem
    · exact hfields _ (htype hd' ▸ hmem)
  refine .intro (fun cause hfaulty => ?_) fun step inner c hleads => ?_
  · cases cause with
    | notAnObject => exact hfaulty.2 fields rfl
    | missingField key =>
      obtain ⟨-, ⟨sort, hneed⟩ | ⟨t', step, inner, hd', hpart⟩, hnone⟩ := hfaulty
      · obtain ⟨c, hc, -⟩ := hneeds hneed
        cases hnone.symm.trans hc
      · obtain ⟨c, hc, -⟩ := hparts _ (htype hd' ▸ hpart)
        cases hnone.symm.trans hc
    | wrongType key =>
      obtain ⟨sort, c, hneed, hc, hsort⟩ := hfaulty
      obtain ⟨c', hc', hsort'⟩ := hneeds hneed
      exact hsort (Option.some.inj (hc.symm.trans hc') ▸ hsort')
    | unexpectedType found expected =>
      obtain ⟨-, hfound, hother, -⟩ := hfaulty
      have hof : NodeType.ofName? found = some t := by
        rw [← hd.nodeType?, nodeType?, hfound]
      exact hother t hd.mem_types (NodeType.name_of_ofName? hof)
    | unknownOperator operator =>
      obtain ⟨t', key, symbols, hd', hsymbols, hget, hunknown⟩ := hfaulty
      obtain ⟨symbol, hmem, hget'⟩ := hoperator key symbols (htype hd' ▸ hsymbols)
      cases hget.symm.trans hget'
      exact hunknown hmem
    | invalidActions =>
      obtain ⟨-, items, hlist, -⟩ := hfaulty
      cases hlist
  · cases hleads with
    | declaration hd' hdeclarations hc =>
      exact hitems (htype hd').symm _ hdeclarations c (List.mem_of_getElem? hc)
    | part hd' hpart hc hnull =>
      obtain rfl := htype hd'
      obtain ⟨c', hc', hinner⟩ := hparts _ hpart
      cases hc.symm.trans hc'
      exact hinner hnull

/-- A node but for the program has no declarations, so its parts are all there is in it. -/
theorem Faultless.node (hprogram : t ≠ .program) (hd : d.IsNodeAt place t)
    (hplace : ∀ f ∈ place.fields, d.HasField f) (hfields : ∀ f ∈ t.fields, d.HasField f)
    (hoperator : ∀ key symbols, t.operators? = some (key, symbols) →
      ∃ symbol ∈ symbols, d.get? key = some (string symbol))
    (hparts : ∀ part ∈ t.parts, ∃ c, d.get? part.2.1 = some c ∧
      ((t = .policy → c ≠ null) → Faultless part.2.2 c)) : Faultless place d :=
  .of_parts hd hplace hfields hoperator hparts fun h => (hprogram h).elim

/-- A node without operator and parts is without faults if it has the fields that are asked for. -/
theorem Faultless.leaf (hprogram : t ≠ .program) (hoperator : t.operators? = none)
    (hparts : t.parts = []) (hd : d.IsNodeAt place t)
    (hplace : ∀ f ∈ place.fields, d.HasField f) (hfields : ∀ f ∈ t.fields, d.HasField f) :
    Faultless place d :=
  .node hprogram hd hplace hfields (by simp [hoperator]) (by simp [hparts])

/-- A list of actions is without faults if its items are and make an action set. -/
theorem Faultless.actions {items : List Document} (hitems : ∀ c ∈ items, Faultless .action c)
    (hset : AreActions (items.map nodeType?)) : Faultless .actions (list items) := by
  have hnode : ∀ {t}, ¬ (list items).IsNodeAt .actions t := fun h => by cases h.nodeType?
  refine .intro (fun cause hfaulty => ?_) fun step inner c hleads => ?_
  · cases cause with
    | notAnObject | unexpectedType => exact hfaulty.1 rfl
    | missingField =>
      obtain ⟨⟨fields, hobject⟩, -⟩ := hfaulty
      cases hobject
    | wrongType =>
      obtain ⟨sort, c, -, hget, -⟩ := hfaulty
      cases hget
    | unknownOperator =>
      obtain ⟨t, key, symbols, hd, -⟩ := hfaulty
      exact hnode hd
    | invalidActions =>
      obtain ⟨-, items', hlist, -, hinvalid⟩ := hfaulty
      cases hlist
      exact hinvalid hset
  · cases hleads with
    | part hd => exact (hnode hd).elim
    | action hc => exact hitems c (List.mem_of_getElem? hc)

end Document

end AccessPolicy
