import AccessPolicy.Program.Encode
import AccessPolicy.Proofs.Document.Objects
import AccessPolicy.Proofs.Program.Tree

/-!
# Walks and documents

A program is seen as a tree twice : by the walk over its nodes, and by the document that encodes
it. The two are the same tree. Read along its parts, the document has an object for every node of
the walk, in the same order, and that object encodes the node (`Program.reads_encode`), so its
`type` and `line` are those of the node (`Node.tag?_encode`). On the way the walk meets no
comparison and no leaf in the view of what has parts (`Node.IsProper`). `Program.walk_reads_encode`
puts this together.
-/

namespace AccessPolicy

/-- The type and the line of an object that encodes a node. -/
def Document.tag? (d : Document) : Option (String × Int) :=
  match d.get? "type", d.get? "line" with
  | some (.string type), some (.int line) => some (type, line)
  | _, _ => none

namespace Node

/-- The object of a node. -/
def encode : Node → Document
  | program p => p.encode
  | role r => (Declaration.role r).encode
  | user u => (Declaration.user u).encode
  | resource r => (Declaration.resource r).encode
  | policy p => (Declaration.policy p).encode
  | logical c => c.encode
  | comparison c => c.encode
  | arithmetic e => e.encode
  | access a => (Expr.access a).encode
  | literal l => l.encode

/-- The view is not of a bare comparison as something joined, nor of a leaf as arithmetic. -/
def IsProper : Node → Prop
  | logical (.comparison _) | arithmetic (.access _) | arithmetic (.literal _) => False
  | _ => True

end Node

/-! ## The number of nodes -/

/-- The number of nodes of a declaration. -/
def Declaration.nodeCount : Declaration → Nat
  | role r => r.actions.literals.length + 1
  | user _ | resource _ => 1
  | policy p =>
    p.actions.literals.length + (p.condition.map Node.conditionSize).getD 0 + 1

/-- The number of nodes of some declarations. -/
def declarationsNodeCount : List Declaration → Nat
  | [] => 0
  | d :: ds => d.nodeCount + declarationsNodeCount ds

/-- The number of nodes of a program. -/
def Program.nodeCount (p : Program) : Nat :=
  declarationsNodeCount p.declarations + 1

namespace Node

theorem length_walk (n : Node) : n.walk.length = (n.children.flatMap walk).length + 1 := by
  rw [walk_eq, List.length_cons]

theorem length_walk_pair {n c d : Node} (h : n.children = [c, d]) :
    n.walk.length = c.walk.length + d.walk.length + 1 := by
  simp [length_walk n, h]

theorem length_walk_ofExpr (e : Expr) : (ofExpr e).walk.length = exprSize e := by
  induction e with
  | binary op left right line ihl ihr => rw [length_walk_pair rfl, ihl, ihr, exprSize]
  | unary sign operand line ih =>
    have hchildren : (ofExpr (.unary sign operand line)).children = [ofExpr operand] := rfl
    rw [length_walk, hchildren, List.flatMap_singleton, ih, exprSize]
  | access a => exact length_walk (access a)
  | literal l => exact length_walk (literal l)

theorem length_walk_ofCondition (c : Condition) :
    (ofCondition c).walk.length = conditionSize c := by
  induction c with
  | and left right line ihl ihr => rw [length_walk_pair rfl, ihl, ihr, conditionSize]
  | or left right line ihl ihr => rw [length_walk_pair rfl, ihl, ihr, conditionSize]
  | comparison c =>
    rw [length_walk_pair rfl, length_walk_ofExpr, length_walk_ofExpr, conditionSize]

theorem length_walk_literals (ls : List Literal) :
    ((ls.map literal).flatMap walk).length = ls.length := by
  induction ls with
  | nil => rfl
  | cons l ls ih =>
    have hleaf : (literal l).walk.length = 1 := length_walk (literal l)
    rw [List.map_cons, List.flatMap_cons, List.length_append, hleaf, ih, List.length_cons,
      Nat.add_comm]

theorem length_walk_ofDeclaration (d : Declaration) :
    (ofDeclaration d).walk.length = d.nodeCount := by
  cases d with
  | role r => rw [ofDeclaration, length_walk, children, length_walk_literals]; rfl
  | user u => exact length_walk (user u)
  | resource r => exact length_walk (resource r)
  | policy p =>
    rw [ofDeclaration, length_walk, children, List.flatMap_append, List.length_append,
      length_walk_literals, Declaration.nodeCount]
    cases p.condition with
    | none => rfl
    | some c => simp [length_walk_ofCondition]

theorem length_walk_declarations (ds : List Declaration) :
    ((ds.map ofDeclaration).flatMap walk).length = declarationsNodeCount ds := by
  induction ds with
  | nil => rfl
  | cons d ds ih =>
    rw [List.map_cons, List.flatMap_cons, List.length_append, length_walk_ofDeclaration, ih,
      declarationsNodeCount]

/-- The walk over a program has as many nodes as the program. -/
theorem length_walk_program (p : Program) : (program p).walk.length = p.nodeCount := by
  rw [length_walk, children, length_walk_declarations, Program.nodeCount]

/-! ## Types and lines -/

theorem tag?_encode_literal (l : Literal) :
    l.encode.tag? = some (l.type.name, (l.line : Int)) := by
  cases l <;> rfl

theorem tag?_encode_expr (e : Expr) : e.encode.tag? = some (e.type.name, (e.line : Int)) := by
  cases e with
  | literal l => exact tag?_encode_literal l
  | _ => rfl

theorem tag?_encode_condition (c : Condition) :
    c.encode.tag? = some (c.type.name, (c.line : Int)) := by
  cases c <;> rfl

/-- The object of a node has its type and its line. -/
theorem tag?_encode (n : Node) : n.encode.tag? = some (n.type.name, (n.line : Int)) := by
  cases n with
  | logical c => exact tag?_encode_condition c
  | arithmetic e => exact tag?_encode_expr e
  | literal l => exact tag?_encode_literal l
  | _ => rfl

/-! ## Views -/

/-- Children are seen as what they are, however their parent is seen. -/
theorem isProper_of_mem_children {n c : Node} (h : c ∈ n.children) : c.IsProper := by
  rcases mem_children_cases h with ⟨d, rfl⟩ | ⟨l, rfl⟩ | ⟨d, rfl⟩ | ⟨e, rfl⟩
  · cases d <;> trivial
  · trivial
  · cases d <;> trivial
  · cases e <;> trivial

/-- All nodes of a walk are proper views if the first is. -/
theorem isProper_of_mem_walk {n m : Node} (hn : n.IsProper) (h : m ∈ n.walk) : m.IsProper := by
  induction n using walk.induct with
  | case1 n ih =>
    rw [walk_eq, List.mem_cons, List.mem_flatMap] at h
    rcases h with rfl | ⟨c, hc, hm⟩
    · exact hn
    · exact ih c hc (isProper_of_mem_children hc) hm

/-! ## Objects in the order of the walk -/

/-- The objects of a node and of all below it, in the order of the walk. -/
def objects (n : Node) : List Document :=
  n.walk.map encode

theorem objects_eq (n : Node) : n.objects = n.encode :: n.children.flatMap objects := by
  rw [objects, walk_eq, List.map_cons, List.map_flatMap]
  rfl

/-- The object of a node is read as the walk goes if its parts are : the children of the node stand
in some of the fields, in order, and there are no objects in the others. -/
theorem reads_of_children {n : Node} {fields : List (String × Document)}
    (parts : List (String × List Node)) (hencode : n.encode = .object fields)
    (hchildren : n.children = parts.flatMap Prod.snd)
    (hparts : ∀ part ∈ parts, ∃ c, Document.lastField? part.1 fields = some c ∧
      c.Reads (part.2.flatMap objects))
    (hothers : ∀ f ∈ fields, (∀ part ∈ parts, f.1 ≠ part.1) → f.2.Reads [])
    (horder : parts.Pairwise fun x y => (Selector.field x.1).Before (.field y.1)) :
    n.encode.Reads n.objects := by
  have hreads : (Document.object fields).Reads (Document.object fields ::
      (parts.map fun part => (part.1, part.2.flatMap objects)).flatMap Prod.snd) := by
    refine Document.reads_object _ ?_ ?_ (List.pairwise_map.mpr horder)
    · exact List.forall_mem_map.mpr hparts
    · exact fun f hf h => hothers f hf fun part hpart => h _ (List.mem_map_of_mem hpart)
  rw [objects_eq, hencode, hchildren, List.flatMap_assoc]
  rwa [List.flatMap_map] at hreads

theorem reads_literal (l : Literal) : (literal l).encode.Reads (literal l).objects := by
  cases l <;> exact reads_of_children [] rfl rfl (by simp) (by simp) .nil

theorem reads_literals (a : ActionSet) :
    a.encode.Reads ((a.literals.map literal).flatMap objects) := by
  rw [List.flatMap_map]
  exact Document.reads_list fun l _ => reads_literal l

theorem reads_pair {n c d : Node} {fields : List (String × Document)}
    (hencode : n.encode = .object fields) (hchildren : n.children = [c, d])
    (hleft : ∃ e, Document.lastField? "left" fields = some e ∧ e.Reads c.objects)
    (hright : ∃ e, Document.lastField? "right" fields = some e ∧ e.Reads d.objects)
    (hothers : ∀ f ∈ fields, f.1 ≠ "left" → f.1 ≠ "right" → f.2.Reads []) :
    n.encode.Reads n.objects :=
  reads_of_children [("left", [c]), ("right", [d])] hencode hchildren
    (by simpa using ⟨hleft, hright⟩) (by simpa using hothers) (by simp [Selector.Before.right])

theorem reads_expr (e : Expr) : e.encode.Reads (ofExpr e).objects := by
  induction e with
  | binary op left right line ihl ihr =>
    exact reads_pair (n := arithmetic (.binary op left right line)) rfl rfl ⟨_, rfl, ihl⟩
      ⟨_, rfl, ihr⟩ (by simp)
  | unary sign operand line ih =>
    exact reads_of_children (n := arithmetic (.unary sign operand line))
      [("operand", [ofExpr operand])] rfl rfl (by simpa [Document.lastField?] using ih) (by simp)
      (by simp)
  | access a => exact reads_of_children (n := access a) [] rfl rfl (by simp) (by simp) .nil
  | literal l => exact reads_literal l

theorem reads_comparison (c : Comparison) : c.encode.Reads (comparison c).objects :=
  reads_pair (n := comparison c) rfl rfl ⟨_, rfl, reads_expr c.left⟩ ⟨_, rfl, reads_expr c.right⟩
    (by simp)

theorem reads_condition (c : Condition) : c.encode.Reads (ofCondition c).objects := by
  induction c with
  | and left right line ihl ihr =>
    exact reads_pair (n := logical (.and left right line)) rfl rfl ⟨_, rfl, ihl⟩ ⟨_, rfl, ihr⟩
      (by simp)
  | or left right line ihl ihr =>
    exact reads_pair (n := logical (.or left right line)) rfl rfl ⟨_, rfl, ihl⟩ ⟨_, rfl, ihr⟩
      (by simp)
  | comparison c => exact reads_comparison c

theorem reads_policy (p : Policy) : (policy p).encode.Reads (policy p).objects := by
  have hcondition : ((p.condition.map Condition.encode).getD .null).Reads
      ((p.condition.map ofCondition).toList.flatMap objects) := by
    cases p.condition with
    | none => exact Document.reads_null
    | some c => simpa using reads_condition c
  exact reads_of_children [("actions", p.actions.literals.map literal),
      ("condition", (p.condition.map ofCondition).toList)] rfl (by simp [children])
    (by simpa [Document.lastField?] using ⟨reads_literals p.actions, hcondition⟩) (by simp)
    (by simp [Selector.Before.condition])

theorem reads_declaration (d : Declaration) : d.encode.Reads (ofDeclaration d).objects := by
  cases d with
  | role r =>
    exact reads_of_children (n := role r) [("actions", r.actions.literals.map literal)] rfl
      (by simp [children]) (by simpa [Document.lastField?] using reads_literals r.actions)
      (by simp) (by simp)
  | user u => exact reads_of_children (n := user u) [] rfl rfl (by simp) (by simp) .nil
  | resource r => exact reads_of_children (n := resource r) [] rfl rfl (by simp) (by simp) .nil
  | policy p => exact reads_policy p

end Node

namespace Program

/-- The document of a program has an object for every node of the walk, in the same order. -/
theorem reads_encode (p : Program) : p.encode.Reads (Node.program p).objects := by
  have hdeclarations : (Document.list (p.declarations.map Declaration.encode)).Reads
      ((p.declarations.map Node.ofDeclaration).flatMap Node.objects) := by
    rw [List.flatMap_map]
    exact Document.reads_list fun d _ => Node.reads_declaration d
  exact Node.reads_of_children (n := .program p)
    [("declarations", p.declarations.map Node.ofDeclaration)] rfl (by simp [Node.children])
    (by simpa [Document.lastField?] using hdeclarations) (by simp) (by simp)

/-- The walk over a program goes through the objects of its document, all of them and each once, in
the order of reading, as many as the program has nodes. Each of them is the object of the node that
is visited, with its type and its line, and no comparison or leaf is visited in the view of what has
parts. -/
theorem walk_reads_encode (p : Program) :
    (∃ places : List (List Selector),
      places.Pairwise ReadBefore ∧ places.Nodup ∧
      (∀ path, path ∈ places ↔ ∃ fields, p.encode.follow? path = some (.object fields)) ∧
      places.map p.encode.follow? = (Node.program p).walk.map (fun n => some n.encode) ∧
      places.map (fun path => (p.encode.follow? path).bind Document.tag?) =
        (Node.program p).walk.map fun n => some (n.type.name, (n.line : Int))) ∧
    (Node.program p).walk.length = p.nodeCount ∧
    ∀ n ∈ (Node.program p).walk, n.IsProper := by
  obtain ⟨places, hreads⟩ := p.reads_encode
  have hobjects : places.map p.encode.follow? =
      (Node.program p).walk.map fun n => some n.encode := by
    rw [hreads.objects, Node.objects, List.map_map]
    rfl
  have htags : places.map (fun path => (p.encode.follow? path).bind Document.tag?) =
      (Node.program p).walk.map fun n => some (n.type.name, (n.line : Int)) := by
    calc places.map (fun path => (p.encode.follow? path).bind Document.tag?)
        = (places.map p.encode.follow?).map (·.bind Document.tag?) := by
          rw [List.map_map]
          rfl
      _ = (Node.program p).walk.map fun n => some (n.type.name, (n.line : Int)) := by
          rw [hobjects, List.map_map]
          exact List.map_congr_left fun n _ => n.tag?_encode
  exact ⟨⟨places, hreads.ordered, hreads.ordered.imp ReadBefore.ne, hreads.complete, hobjects,
    htags⟩, Node.length_walk_program p, fun n => Node.isProper_of_mem_walk trivial⟩

end Program

end AccessPolicy
