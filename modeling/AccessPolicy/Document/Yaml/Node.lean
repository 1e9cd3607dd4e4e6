import AccessPolicy.Document.Yaml.Scalar
import AccessPolicy.Document.Yaml.Tree

/-!
# YAML nodes

A `Yaml.Node` is what a YAML text says before its scalars are given a meaning : scalars keep their
characters, their tags and how they were written, so that a reader who wants a string can take any
scalar as it is written. Keys are always taken as written. `Yaml.Node.ofTree?` puts the node that an
alias stands for in its place, and `Yaml.Node.document?` gives the scalars their meaning.
-/

namespace AccessPolicy.Yaml

/-- A value of a YAML text. -/
inductive Node where
  | scalar (tag : Option String) (style : Style) (text : String)
  | sequence (tag : Option String) (items : List Node)
  | mapping (tag : Option String) (fields : List (String × Node))
deriving Repr, Inhabited

/-! ## Aliases -/

namespace Tree

mutual

/-- The nodes of a tree that have an anchor, with its number, in the order of the text. -/
def anchored : Tree → List (Nat × Tree)
  | aliasOf _ => []
  | scalar p style text => (p.anchor.map fun n => (n, scalar p style text)).toList
  | sequence p items =>
    (p.anchor.map fun n => (n, sequence p items)).toList ++ anchoredItems items
  | mapping p fields =>
    (p.anchor.map fun n => (n, mapping p fields)).toList ++ anchoredFields fields

/-- The nodes of some items that have an anchor. -/
def anchoredItems : List Tree → List (Nat × Tree)
  | [] => []
  | t :: ts => anchored t ++ anchoredItems ts

/-- The nodes of some fields that have an anchor. -/
def anchoredFields : List (Tree × Tree) → List (Nat × Tree)
  | [] => []
  | (k, v) :: fs => anchored k ++ anchored v ++ anchoredFields fs

end

mutual

/-- The size of a tree : one for a scalar or an alias, two for a collection besides its parts. -/
def size : Tree → Nat
  | aliasOf _ | scalar _ _ _ => 1
  | sequence _ items => sizeItems items + 2
  | mapping _ fields => sizeFields fields + 2

/-- The size of some items. -/
def sizeItems : List Tree → Nat
  | [] => 0
  | t :: ts => size t + sizeItems ts

/-- The size of some fields. -/
def sizeFields : List (Tree × Tree) → Nat
  | [] => 0
  | (k, v) :: fs => size k + size v + sizeFields fs

end

end Tree

namespace Node

/-- The value of a text that leaves it out. -/
def absent : Node :=
  scalar none .plain ""

/-- A reading of trees that counts down the aliases it may still follow. -/
abbrev Expansion (α : Type) : Type :=
  StateT Nat Option α

/-- The tree that an alias stands for, which uses up one alias; any other tree as it is. The last
node with a number is the one that counts. -/
def follow (anchors : List (Nat × Tree)) : Tree → Expansion Tree
  | .aliasOf n => fun
    | 0 => none
    | budget + 1 => (anchors.reverse.lookup n).map fun t => (t, budget)
  | t => pure t

/-- The text of a key, which must be a scalar. -/
def keyText (anchors : List (Nat × Tree)) (t : Tree) : Expansion String := do
  match ← follow anchors t with
  | .scalar _ _ text => return text
  | _ => failure

/-- The node of a tree, in which collections enclose each other at most `depth` deep. -/
def expand (anchors : List (Nat × Tree)) : (depth : Nat) → Tree → Expansion Node
  | depth, t => do
    match ← follow anchors t, depth with
    | .scalar p style text, _ => return .scalar p.tag style text
    | .sequence p items, depth + 1 =>
      return .sequence p.tag (← items.mapM (expand anchors depth))
    | .mapping p fields, depth + 1 =>
      let fields ← fields.mapM fun (k, v) => do
        let key ← keyText anchors k
        return (key, ← expand anchors depth v)
      return .mapping p.tag fields
    | _, _ => failure

/-- The number of aliases that are followed for each unit of the size of a tree. -/
def aliasFactor : Nat :=
  100

/-- The node of a tree, in which collections enclose each other at most `depth` deep. -/
def ofTree? (depth : Nat) (t : Tree) : Option Node :=
  ((expand t.anchored depth t).run (t.size * aliasFactor)).map Prod.fst

/-! ## Meaning -/

/-- The name in a tag that starts with an exclamation mark. It is empty if the mark is all. -/
def localName? (tag : Option String) : Option String :=
  match tag.map String.toList with
  | some ('!' :: name) => some (String.ofList name)
  | _ => none

/-- The value of a scalar with a tag, if it has one of that type. Other tags than those of the basic
types make it a string. -/
def taggedScalar? (tag text : String) : Option Document :=
  let cs := text.toList
  if (localName? tag).isSome then none
  else if tag = "tag:yaml.org,2002:null" then
    if isNull cs && cs ≠ [] then some .null else none
  else if tag = "tag:yaml.org,2002:bool" then (bool? cs).map .bool
  else if tag = "tag:yaml.org,2002:int" then (integer? cs).bind integerDocument?
  else if tag = "tag:yaml.org,2002:float" then floatDocument? cs
  else some (.string text)

mutual

/-- The document that a node denotes. Documents have no place for tags that start with an
exclamation mark. -/
def document? : Node → Option Document
  | scalar (some tag) _ text => taggedScalar? tag text
  | scalar none style text =>
    if style = .plain then resolve? text.toList else some (.string text)
  | sequence tag items =>
    if (localName? tag).isSome then none else (documents? items).map .list
  | mapping tag fields =>
    if (localName? tag).isSome then none else (fieldDocuments? fields).map .object

/-- The documents that some nodes denote. -/
def documents? : List Node → Option (List Document)
  | [] => some []
  | n :: ns => do
    let d ← document? n
    let ds ← documents? ns
    return d :: ds

/-- The fields that some fields denote. -/
def fieldDocuments? : List (String × Node) → Option (List (String × Document))
  | [] => some []
  | (k, n) :: fs => do
    let d ← document? n
    let ds ← fieldDocuments? fs
    return (k, d) :: ds

end

end Node

end AccessPolicy.Yaml
