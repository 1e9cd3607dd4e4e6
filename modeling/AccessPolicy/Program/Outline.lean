import AccessPolicy.Program.Node

/-!
# Outlines

The outline of a program draws its tree in text, one line for each node below the root.
A line shows the type, the label and the line number of the node behind a connector, `└─`
for the last child of its parent and `├─` for the others. In front of the connector
stands one cell of two characters for each ancestor below the root : a bar if the ancestor
has younger siblings, whose connectors are still to come, and blank otherwise. Long labels
are cut.
-/

namespace AccessPolicy

/-- The items of a list, each with whether it is the last. -/
def withLast {α : Type} : List α → List (α × Bool)
  | [] => []
  | [a] => [(a, true)]
  | a :: b :: rest => (a, false) :: withLast (b :: rest)

/-- A text cut to `n` characters, with dots if anything was cut. -/
def shortened (n : Nat) (s : String) : String :=
  if n < s.length then String.ofList (s.toList.take n) ++ "..." else s

namespace Node

/-- The greatest number of characters of a label that an outline shows. -/
def labelWidth : Nat :=
  40

/-- The mark in front of a node. -/
def connector (last : Bool) : String :=
  if last then "└─" else "├─"

/-- The cell that a node leaves in front of the lines below it. -/
def cell (last : Bool) : String :=
  if last then "  " else "│ "

/-- The line of a node. -/
def outlineLine (margin : String) (last : Bool) (n : Node) : String :=
  margin ++ connector last ++ " " ++ n.type.name ++ ": " ++ shortened labelWidth n.label ++
    " (line " ++ n.line.repr ++ ")"

/-- The lines of a node and all below it. -/
def outline (margin : String) (last : Bool) (n : Node) : List String :=
  outlineLine margin last n ::
    (withLast n.children.attach).flatMap fun (⟨c, _⟩, l) => outline (margin ++ cell last) l c
termination_by n.weight
decreasing_by exact weight_lt_of_mem_children ‹_›

end Node

namespace Program

/-- The lines of the outline of a program. The root has none. -/
def outlineLines (p : Program) : List String :=
  (withLast (Node.program p).children).flatMap fun (c, l) => c.outline "" l

/-- The outline of a program, each line ended by a line feed. -/
def outline (p : Program) : String :=
  String.join (p.outlineLines.map (· ++ "\n"))

end Program

end AccessPolicy
