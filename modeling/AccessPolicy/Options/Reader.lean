import AccessPolicy.Document.Json.Reader
import AccessPolicy.Document.Yaml.Reader
import AccessPolicy.Options.Basic
import AccessPolicy.Text.Blank

/-!
# Reading options

Options are written as a record with two parts : `parse` with `recover`, and `analysis` with
`suggestions` and `attributes`, a list of records with `object`, `attribute` and `category`. What is
left out keeps its standard value, except in an attribute; a field that is unknown or given twice is
refused.

The formats differ in what they take for what : a JSON list can stand for a record, and a YAML
scalar can stand for a string whatever it looks like. A `Format` says how its values are taken, and
one reader serves all formats.
-/

namespace AccessPolicy.Options

/-- How the values of a format are taken. -/
structure Format (ν : Type) where
  /-- A record by the names of its fields. -/
  fields? : ν → Option (List (String × ν))
  /-- A record by the order of its fields. -/
  values? : ν → Option (List ν)
  /-- A list. -/
  items? : ν → Option (List ν)
  /-- A truth value. -/
  bool? : ν → Option Bool
  /-- A string. -/
  string? : ν → Option String
  /-- A category. -/
  category? : ν → Option Category

/-- JSON values are taken for what they are. A list can also stand for a record, and an object with
a null under the name of a category for the category. -/
def jsonFormat : Format Document where
  fields?
    | .object fs => some fs
    | _ => none
  values?
    | .list ds => some ds
    | _ => none
  items?
    | .list ds => some ds
    | _ => none
  bool?
    | .bool b => some b
    | _ => none
  string?
    | .string s => some s
    | _ => none
  category?
    | .string s => Category.ofName? s
    | .object [(s, .null)] => Category.ofName? s
    | _ => none

/-- A YAML scalar is a string whatever it looks like, and a value that is left out is an empty
record or list. Truth values are plain scalars, or literal blocks with the tag of truth values. A
category can also be the tag of a null. -/
def yamlFormat : Format Yaml.Node where
  fields?
    | .mapping _ fs => some fs
    | .scalar _ .plain "" => some []
    | _ => none
  values? _ := none
  items?
    | .sequence _ ns => some ns
    | .scalar _ .plain "" => some []
    | _ => none
  bool?
    | .scalar _ .plain s => Yaml.bool? s.toList
    | .scalar (some "tag:yaml.org,2002:bool") .literal s => Yaml.bool? s.toList
    | _ => none
  string?
    | .scalar _ _ s => some s
    | _ => none
  category?
    | .scalar tag style s =>
      match Yaml.Node.localName? tag with
      | some name => if style = .plain && Yaml.isNull s.toList then Category.ofName? name else none
      | none => Category.ofName? s
    | _ => none

namespace Format

variable {ν : Type} (f : Format ν)

/-- The values of a record with the fields `names`, in that order. -/
def record? (names : List String) (v : ν) : Option (List (Option ν)) :=
  match f.fields? v with
  | some fs =>
    let keys := fs.map Prod.fst
    if keys.all names.contains && keys.eraseDups.length = keys.length then
      some (names.map fun name => fs.lookup name)
    else none
  | none =>
    match f.values? v with
    | some vs =>
      if vs.length ≤ names.length then
        some (vs.map some ++ List.replicate (names.length - vs.length) none)
      else none
    | none => none

/-- The value of a field, or `standard` if it is left out. -/
def orElse {α : Type} (standard : α) (read : ν → Option α) : Option ν → Option α
  | none => some standard
  | some v => read v

/-- An attribute to add. All its fields are needed. -/
def attributeSpec? (v : ν) : Option AttributeSpec :=
  match f.record? ["object", "attribute", "category"] v with
  | some [some object, some name, some category] => do
    return ⟨← f.string? object, ← f.string? name, ← f.category? category⟩
  | _ => none

/-- Whether to go on after a syntax error. -/
def parse? (v : ν) : Option Bool :=
  match f.record? ["recover"] v with
  | some [recover] => orElse standard.recover f.bool? recover
  | _ => none

/-- Whether to suggest names, and the attributes to add. -/
def analysis? (v : ν) : Option (Bool × List AttributeSpec) :=
  match f.record? ["suggestions", "attributes"] v with
  | some [suggestions, attributes] => do
    let s ← orElse standard.suggestions f.bool? suggestions
    let as ← orElse standard.attributes
      (fun v => (f.items? v).bind (·.mapM f.attributeSpec?)) attributes
    return (s, as)
  | _ => none

/-- The options. -/
def options? (v : ν) : Option Options :=
  match f.record? ["parse", "analysis"] v with
  | some [parse, analysis] => do
    let recover ← orElse standard.recover f.parse? parse
    let (suggestions, attributes) ←
      orElse (standard.suggestions, standard.attributes) f.analysis? analysis
    return ⟨recover, suggestions, attributes⟩
  | _ => none

end Format

/-- The options of a JSON text. -/
def ofJson? (text : String) : Option Options :=
  (Json.read Json.maxDepth text).bind jsonFormat.options?

/-- The options of a YAML text. Nothing but white space leaves everything out. -/
def ofYaml? (text : String) : Option Options :=
  if isBlankText text then some standard
  else (Yaml.readNode text).bind yamlFormat.options?

end AccessPolicy.Options
