import AccessPolicy.Analysis.Problem
import AccessPolicy.Analysis.Similarity
import AccessPolicy.Program.Node

/-!
# Analysing programs

An `Analyzer` looks for problems in three passes over a program : names declared twice,
references to names that are declared nowhere, and conditions that make no sense. Declarations
may come in any order, so references are checked when all names are known. Conditions are
checked node by node over one walk of the program; what is not registered has no category and
causes no further problem.
-/

namespace AccessPolicy

namespace Declaration

/-- What a declaration names, with its line. Policies have no name. -/
def declared? : Declaration → Option (NameKind × String × Nat)
  | role r => some (.role, r.name, r.line)
  | user u => some (.user, u.name, u.line)
  | resource r => some (.resource, r.name, r.line)
  | policy _ => none

/-- The name that a declaration refers to, with its line. -/
def reference? : Declaration → Option (NameKind × String × Nat)
  | user u => some (.role, u.role, u.line)
  | policy p => some (.resource, p.resource, p.line)
  | role _ | resource _ => none

end Declaration

namespace Symbols

/-- The symbols with one more name, or a problem if the name is taken. -/
def declare (s : Symbols) (kind : NameKind) (name : String) (line : Nat) :
    Symbols × List Problem :=
  match (s.table kind).declare name line with
  | .ok t => (s.setTable kind t, [])
  | .error first => (s, [.duplicate kind name first line])

/-- The symbols with the names of some declarations, and the problems on the way. -/
def declareAll (s : Symbols) : List Declaration → Symbols × List Problem
  | [] => (s, [])
  | d :: ds =>
    match d.declared? with
    | none => s.declareAll ds
    | some (kind, name, line) =>
      let (t, problems) := s.declare kind name line
      let (u, more) := t.declareAll ds
      (u, problems ++ more)

end Symbols

/-- What is found in a program. -/
structure Analysis where
  /-- The declared names. -/
  symbols : Symbols
  /-- What is wrong, pass by pass. -/
  problems : List Problem
deriving DecidableEq, Repr

namespace Analysis

/-- Whether nothing is wrong. -/
def isOk (a : Analysis) : Bool :=
  a.problems.isEmpty

/-- What is wrong, as diagnostics. -/
def diagnostics (a : Analysis) : List Diagnostic :=
  a.problems.map Problem.diagnostic

end Analysis

/-- What an analysis goes by. -/
structure Analyzer where
  /-- The attributes that conditions may speak of. -/
  registry : Registry
  /-- Whether names are suggested for misspelled ones. -/
  suggestions : Bool

namespace Analyzer

/-- The built-in attributes, with suggestions. -/
def standard : Analyzer :=
  ⟨.builtin, true⟩

variable (z : Analyzer)

/-- The problem with a reference, if there is one. -/
def checkReference (s : Symbols) (d : Declaration) : Option Problem :=
  match d.reference? with
  | none => none
  | some (kind, name, line) =>
    let t := s.table kind
    if t.contains name then none
    else
      some (.undefined kind name line (if z.suggestions then closest name t.names else none))

/-- The category of an operand, as far as it can be told without looking inside. -/
def categoryOf : Expr → Option Category
  | .binary _ _ _ _ | .unary _ _ _ => some .numeric
  | .access a =>
    match z.registry.lookup a.object a.name with
    | .found c => some c
    | .unknownNamespace | .unknownAttribute => none
  | .literal (.number _ _) => some .numeric
  | .literal (.string _ _) | .literal (.identifier _ _) => some .categorical
  | .literal (.wildcard _) => none

/-- The problem with an attribute, if there is one. -/
def checkAccess (a : AttributeAccess) : List Problem :=
  match z.registry.lookup a.object a.name with
  | .found _ => []
  | .unknownNamespace => [.unknownNamespace a.object a.line]
  | .unknownAttribute => [.unknownAttribute a.object a.name a.line]

/-- The problem with a comparison : operands of two known categories. -/
def checkComparison (c : Comparison) : List Problem :=
  match z.categoryOf c.left, z.categoryOf c.right with
  | some l, some r => if l = r then [] else [.mismatch l r c.line]
  | _, _ => []

/-- The problem with an operand of arithmetic : it is not a number. -/
def checkOperand (operator : String) (line : Nat) (e : Expr) : List Problem :=
  if z.categoryOf e = some .categorical then [.nonNumeric operator .categorical line] else []

/-- The problems with the operands of one operation. -/
def checkArithmetic : Expr → List Problem
  | .binary op left right line =>
    z.checkOperand op.symbol line left ++ z.checkOperand op.symbol line right
  | .unary sign operand line => z.checkOperand sign.symbol line operand
  | .access _ | .literal _ => []

/-- The problems with one node, not counting those below it. -/
def checkNode : Node → List Problem
  | .access a => z.checkAccess a
  | .comparison c => z.checkComparison c
  | .arithmetic e => z.checkArithmetic e
  | _ => []

/-- The names and the problems of a program. -/
def analyze (p : Program) : Analysis :=
  let (symbols, duplicates) := Symbols.empty.declareAll p.declarations
  ⟨symbols, duplicates ++ p.declarations.filterMap (z.checkReference symbols) ++
    (Node.program p).walk.flatMap z.checkNode⟩

end Analyzer

end AccessPolicy
