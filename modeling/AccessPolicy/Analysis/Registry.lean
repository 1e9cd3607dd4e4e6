import AccessPolicy.Analysis.Index

/-!
# Attribute registries

A `Registry` gives the attributes that conditions may speak of their category. Attributes are
grouped by the object they belong to, so looking one up can fail in two ways.
`Registry.builtin` holds what every policy can rely on.
-/

namespace AccessPolicy

/-- What kind of values an attribute or an operand has. -/
inductive Category where
  | numeric
  | categorical
deriving DecidableEq, Repr

namespace Category

/-- The name of a category. -/
def name : Category → String
  | numeric => "numeric"
  | categorical => "categorical"

/-- The category with a given name. -/
def ofName? : String → Option Category
  | "numeric" => some numeric
  | "categorical" => some categorical
  | _ => none

end Category

/-- What a registry says of an attribute. -/
inductive Lookup where
  | found (c : Category)
  | unknownNamespace
  | unknownAttribute
deriving DecidableEq, Repr

/-- The categories of attributes, by object and attribute. -/
structure Registry where
  /-- The attributes of each object. -/
  namespaces : Index (Index Category)

namespace Registry

/-- No attributes. -/
def empty : Registry :=
  ⟨.empty⟩

/-- The registry with one attribute added, or its category replaced. -/
def insert (r : Registry) (object attributeName : String) (c : Category) : Registry :=
  ⟨r.namespaces.insert object
    (((r.namespaces.find? object).getD .empty).insert attributeName c)⟩

/-- What the registry says of an attribute. -/
def lookup (r : Registry) (object attributeName : String) : Lookup :=
  match r.namespaces.find? object with
  | none => .unknownNamespace
  | some attributes =>
    match attributes.find? attributeName with
    | some c => .found c
    | none => .unknownAttribute

/-- Whether an object has any attributes. -/
def hasNamespace (r : Registry) (object : String) : Bool :=
  (r.namespaces.find? object).isSome

/-- The objects with attributes, in order. -/
def objects (r : Registry) : List String :=
  r.namespaces.keys

/-- The attributes of an object, in order. -/
def attributes (r : Registry) (object : String) : List String :=
  ((r.namespaces.find? object).map Index.keys).getD []

/-- All that is in a registry, in order. -/
def entries (r : Registry) : List (String × List (String × Category)) :=
  r.namespaces.entries.map fun (object, attributes) => (object, attributes.entries)

/-- The attributes every policy can rely on. -/
def builtins : List (String × String × Category) :=
  [("time", "hour", .numeric), ("time", "minute", .numeric), ("time", "day", .numeric),
    ("user", "role", .categorical), ("user", "name", .categorical),
    ("resource", "path", .categorical), ("resource", "name", .categorical)]

/-- The registry with some attributes added in order, so that of two categories for one
attribute the last holds. -/
def insertAll (r : Registry) (specs : List (String × String × Category)) : Registry :=
  specs.foldl (fun r (object, attributeName, c) => r.insert object attributeName c) r

/-- The registry of the attributes every policy can rely on. -/
def builtin : Registry :=
  empty.insertAll builtins

/-- Whether a registry is `builtin`. -/
def isBuiltin (r : Registry) : Bool :=
  r.entries = builtin.entries

end Registry

end AccessPolicy
