import AccessPolicy.Analysis.Index

/-!
# Symbol tables

Roles, users and resources have names, and the names of each kind are kept apart. A
`SymbolTable` has the lines of the names of one kind, to look them up by name, and their order.
That the two are about the same names, and that each name stands only once in the order, is part
of the type. A name can be declared only once : a second declaration leaves the table as it is
and is told the line of the first.
-/

namespace AccessPolicy

/-- The kinds of declaration that have a name. -/
inductive NameKind where
  | role
  | user
  | resource
deriving DecidableEq, Repr

/-- The word for a kind. -/
def NameKind.word : NameKind → String
  | role => "role"
  | user => "user"
  | resource => "resource"

/-- The declared names of one kind. -/
structure SymbolTable where
  /-- What the names stand for. -/
  kind : NameKind
  /-- The lines of the declarations, under their names. -/
  lines : Index Nat
  /-- The names, in the order of their declarations. -/
  order : List String
  /-- No name stands twice in the order. -/
  nodup : order.Nodup
  /-- The names in the order are those that have a line. -/
  mem_order_iff : ∀ name, name ∈ order ↔ (lines.find? name).isSome = true
deriving DecidableEq, Repr

namespace SymbolTable

variable {t : SymbolTable} {name : String}

/-- A table with no names. -/
def empty (kind : NameKind) : SymbolTable where
  kind := kind
  lines := .empty
  order := []
  nodup := .nil
  mem_order_iff := by simp

/-- The line where a name was declared. -/
def lineOf? (t : SymbolTable) (name : String) : Option Nat :=
  t.lines.find? name

/-- Whether a name is declared. -/
def contains (t : SymbolTable) (name : String) : Bool :=
  (t.lineOf? name).isSome

/-- The names, in the order of their declarations. -/
def names (t : SymbolTable) : List String :=
  t.order

/-- The number of names. -/
def size (t : SymbolTable) : Nat :=
  t.order.length

/-- Whether there are no names. -/
def isEmpty (t : SymbolTable) : Bool :=
  t.order.isEmpty

/-- The names with their lines, in the order of their declarations. -/
def entries (t : SymbolTable) : List (String × Nat) :=
  t.order.filterMap fun name => (t.lineOf? name).map fun line => (name, line)

/-- The names that are listed are those that are found. -/
theorem contains_iff : t.contains name = true ↔ name ∈ t.names :=
  (t.mem_order_iff name).symm

theorem lineOf?_eq_none_iff : t.lineOf? name = none ↔ name ∉ t.names := by
  rw [← contains_iff, contains, Option.not_isSome_iff_eq_none]

theorem mem_names_of_lineOf?_eq_some {line : Nat} (h : t.lineOf? name = some line) :
    name ∈ t.names :=
  contains_iff.mp (by rw [contains, h, Option.isSome_some])

/-- The table with a new name, which comes last. -/
def add (t : SymbolTable) (name : String) (line : Nat) (h : t.lineOf? name = none) :
    SymbolTable where
  kind := t.kind
  lines := t.lines.insert name line
  order := t.order ++ [name]
  nodup := by
    refine List.nodup_append.mpr ⟨t.nodup, List.pairwise_singleton _ _, fun n hn m hm heq => ?_⟩
    obtain rfl := List.mem_singleton.mp hm
    exact lineOf?_eq_none_iff.mp h (heq ▸ hn)
  mem_order_iff n := by
    rw [Index.find?_insert, List.mem_append, List.mem_singleton, t.mem_order_iff]
    by_cases hn : n = name <;> simp [hn]

@[simp] theorem names_add (line : Nat) (h : t.lineOf? name = none) :
    (t.add name line h).names = t.names ++ [name] := rfl

theorem lineOf?_add (line : Nat) (h : t.lineOf? name = none) (n : String) :
    (t.add name line h).lineOf? n = if n = name then some line else t.lineOf? n :=
  Index.find?_insert t.lines name n line

/-- The table with a new name, or the line where the name was declared before. -/
def declare (t : SymbolTable) (name : String) (line : Nat) : Except Nat SymbolTable :=
  match h : t.lineOf? name with
  | some first => .error first
  | none => .ok (t.add name line h)

theorem declare_of_lineOf?_eq_some {first : Nat} (h : t.lineOf? name = some first) (line : Nat) :
    t.declare name line = .error first := by
  unfold declare
  split
  · next h' => rw [Option.some.inj (h'.symm.trans h)]
  · next h' => exact nomatch h'.symm.trans h

theorem declare_of_lineOf?_eq_none (h : t.lineOf? name = none) (line : Nat) :
    t.declare name line = .ok (t.add name line h) := by
  unfold declare
  split
  · next h' => exact nomatch h'.symm.trans h
  · rfl

end SymbolTable

/-- The declared names of every kind. -/
structure Symbols where
  roles : SymbolTable
  users : SymbolTable
  resources : SymbolTable
deriving DecidableEq, Repr

namespace Symbols

/-- No names. -/
def empty : Symbols :=
  ⟨.empty .role, .empty .user, .empty .resource⟩

/-- The table of a kind. -/
def table (s : Symbols) : NameKind → SymbolTable
  | .role => s.roles
  | .user => s.users
  | .resource => s.resources

/-- The symbols with the table of a kind replaced. -/
def setTable (s : Symbols) (kind : NameKind) (t : SymbolTable) : Symbols :=
  match kind with
  | .role => { s with roles := t }
  | .user => { s with users := t }
  | .resource => { s with resources := t }

end Symbols

end AccessPolicy
