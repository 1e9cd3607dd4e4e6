import AccessPolicy.Document.Yaml.Token

/-!
# YAML trees

A `Tree` is the tree that the tokens of a YAML text spell out. Aliases are still in it, as the
numbers of the anchors they name. Keys may be any tree, and what is left out is an empty plain
scalar.

`Tree.ofTokens?` reads the one document of a text, and `Tree.node?` one node with others inside it
up to a given depth. Each step of a repetition takes a token at least, so that the number of
tokens bounds the steps.
-/

namespace AccessPolicy.Yaml

/-- What stands in front of a node. -/
structure Properties where
  /-- The number of its anchor. -/
  anchor : Option Nat
  /-- Its tag. -/
  tag : Option String
deriving DecidableEq, Repr

/-- The tree of a YAML text. -/
inductive Tree where
  | aliasOf (anchor : Nat)
  | scalar (p : Properties) (style : Style) (text : String)
  | sequence (p : Properties) (items : List Tree)
  | mapping (p : Properties) (fields : List (Tree × Tree))
deriving Repr, Inhabited

/-- The tokens left, and the anchors so far. -/
structure Input where
  /-- The tokens left. -/
  tokens : List Token
  /-- The number that each name of an anchor stands for now. -/
  anchors : List (String × Nat)
deriving DecidableEq, Repr

/-- The input with other tokens left. -/
def Input.withTokens (i : Input) (ts : List Token) : Input :=
  { i with tokens := ts }

/-- The input with one more anchor. Its number is the number of names before it. -/
def Input.addAnchor (i : Input) (name : String) : Input :=
  { i with anchors := (name, i.anchors.length) :: i.anchors.filter (·.1 ≠ name) }

namespace Tree

/-- What is left out. -/
def absent : Tree :=
  scalar ⟨none, none⟩ .plain ""

/-! ## Properties -/

/-- What each handle of a tag stands for. -/
abbrev Handles : Type :=
  List (String × String)

/-- The handles that need no directive. -/
def standardHandles : Handles :=
  [("!", "!"), ("!!", "tag:yaml.org,2002:")]

/-- A tag in full. The tag without a handle is in full already. -/
def fullTag? (handles : Handles) (handle rest : String) : Option String :=
  if handle = "" then some rest else (handles.lookup handle).map (· ++ rest)

/-- The anchor and the tag at the front of the input, in either order. -/
def properties? (handles : Handles) (i : Input) : Option (Properties × Input) :=
  let withAnchor (name : String) (tag : Option String) (rest : List Token) : Properties × Input :=
    (⟨some i.anchors.length, tag⟩, (i.withTokens rest).addAnchor name)
  match i.tokens with
  | .anchor name :: .tag h t :: rest =>
    (fullTag? handles h t).map fun tag => withAnchor name (some tag) rest
  | .tag h t :: .anchor name :: rest =>
    (fullTag? handles h t).map fun tag => withAnchor name (some tag) rest
  | .anchor name :: rest => some (withAnchor name none rest)
  | .tag h t :: rest =>
    (fullTag? handles h t).map fun tag => (⟨none, some tag⟩, i.withTokens rest)
  | _ => some (⟨none, none⟩, i)

/-! ## Collections -/

/-- Where a node stands, which decides on the block collections it can be : none between brackets,
and under a key also a sequence that stands no further in than the key. -/
inductive Setting where
  | flow
  | item
  | field
deriving DecidableEq, Repr

/-- A way to read a node. -/
abbrev NodeReader : Type :=
  Setting → Input → Option (Tree × Input)

/-- Read a node, or nothing before one of the tokens `stops`. -/
def nodeUnless (node : NodeReader) (setting : Setting) (stops : List Token) (i : Input) :
    Option (Tree × Input) :=
  if i.tokens.head?.any stops.contains then some (absent, i) else node setting i

/-- Read the value of a field, which may be left out with its colon. -/
def fieldValue? (node : NodeReader) (setting : Setting) (stops : List Token) (i : Input) :
    Option (Tree × Input) :=
  match i.tokens with
  | .value :: rest => nodeUnless node setting stops (i.withTokens rest)
  | _ => some (absent, i)

/-- Read the items of a block sequence up to its end, in fewer than `bound` steps. -/
def blockItems? (node : NodeReader) : (bound : Nat) → Input → Option (List Tree × Input)
  | 0, _ => none
  | bound + 1, i =>
    match i.tokens with
    | .blockEnd :: rest => some ([], i.withTokens rest)
    | .item :: rest =>
      match nodeUnless node .item [.item, .blockEnd] (i.withTokens rest) with
      | none => none
      | some (t, j) => (blockItems? node bound j).map fun (ts, left) => (t :: ts, left)
    | _ => none

/-- Read the items of a block sequence that stands no further in than its key, in fewer than `bound`
steps. -/
def levelItems? (node : NodeReader) : (bound : Nat) → Input → Option (List Tree × Input)
  | 0, _ => none
  | bound + 1, i =>
    match i.tokens with
    | .item :: rest =>
      match nodeUnless node .item [.item, .key, .value, .blockEnd] (i.withTokens rest) with
      | none => none
      | some (t, j) => (levelItems? node bound j).map fun (ts, left) => (t :: ts, left)
    | _ => some ([], i)

/-- Read the fields of a block mapping up to its end, in fewer than `bound` steps. -/
def blockFields? (node : NodeReader) : (bound : Nat) → Input → Option (List (Tree × Tree) × Input)
  | 0, _ => none
  | bound + 1, i =>
    match i.tokens with
    | .blockEnd :: rest => some ([], i.withTokens rest)
    | .key :: rest =>
      let stops := [.key, .value, .blockEnd]
      match nodeUnless node .field stops (i.withTokens rest) with
      | none => none
      | some (k, j) =>
        match fieldValue? node .field stops j with
        | none => none
        | some (v, j) => (blockFields? node bound j).map fun (fs, left) => ((k, v) :: fs, left)
    | _ => none

/-- Read an item between brackets, which may be a single field. A key that is left out takes the
token behind it along. -/
def flowItem? (node : NodeReader) (i : Input) : Option (Tree × Input) :=
  match i.tokens with
  | .key :: rest =>
    let stops := [.comma, .flowSequenceEnd]
    let key :=
      match rest with
      | .value :: more | .comma :: more | .flowSequenceEnd :: more =>
        some (absent, i.withTokens more)
      | _ => node .flow (i.withTokens rest)
    match key with
    | none => none
    | some (k, j) =>
      (fieldValue? node .flow stops j).map fun (v, left) =>
        (mapping ⟨none, none⟩ [(k, v)], left)
  | _ => node .flow i

/-- Read a field between braces. -/
def flowField? (node : NodeReader) (i : Input) : Option ((Tree × Tree) × Input) :=
  match i.tokens with
  | .key :: rest =>
    match nodeUnless node .flow [.value, .comma, .flowMappingEnd] (i.withTokens rest) with
    | none => none
    | some (k, j) =>
      (fieldValue? node .flow [.comma, .flowMappingEnd] j).map fun (v, left) => ((k, v), left)
  | _ => (node .flow i).map fun (k, left) => ((k, absent), left)

/-- Read what stands between brackets up to `close`, with commas between the entries and perhaps
behind the last, in fewer than `bound` steps. -/
def flowEntries? {α : Type} (entry : Input → Option (α × Input)) (close : Token) :
    (bound : Nat) → Input → Option (List α × Input)
  | 0, _ => none
  | bound + 1, i =>
    match i.tokens with
    | [] => none
    | t :: rest =>
      if t = close then some ([], i.withTokens rest)
      else
        match entry i with
        | none => none
        | some (a, j) =>
          match j.tokens with
          | [] => none
          | t :: rest =>
            if t = close then some ([a], j.withTokens rest)
            else if t = .comma then
              (flowEntries? entry close bound (j.withTokens rest)).map fun (as, left) =>
                (a :: as, left)
            else none

/-! ## Nodes -/

/-- Read the content of a node behind its properties `p`, which must be there if it has none, with
fewer than `bound` parts. -/
def content? (node : NodeReader) (bound : Nat) (setting : Setting) (p : Properties) (i : Input) :
    Option (Tree × Input) :=
  match i.tokens with
  | .scalar style text :: rest => some (scalar p style text, i.withTokens rest)
  | .flowSequence :: rest =>
    (flowEntries? (flowItem? node) .flowSequenceEnd bound (i.withTokens rest)).map
      fun (ts, left) => (sequence p ts, left)
  | .flowMapping :: rest =>
    (flowEntries? (flowField? node) .flowMappingEnd bound (i.withTokens rest)).map
      fun (fs, left) => (mapping p fs, left)
  | .blockSequence :: rest =>
    if setting = .flow then none
    else (blockItems? node bound (i.withTokens rest)).map fun (ts, left) => (sequence p ts, left)
  | .blockMapping :: rest =>
    if setting = .flow then none
    else (blockFields? node bound (i.withTokens rest)).map fun (fs, left) => (mapping p fs, left)
  | ts =>
    if setting = .field && ts.head? = some .item then
      (levelItems? node bound i).map fun (ts, left) => (sequence p ts, left)
    else if p.anchor.isSome || p.tag.isSome then some (scalar p .plain "", i)
    else none

/-- Read a node, inside of which there are fewer than `depth` nodes one in the other, each with
fewer than `bound` parts. -/
def node? (handles : Handles) (bound : Nat) : (depth : Nat) → NodeReader
  | 0, _, _ => none
  | depth + 1, setting, i =>
    match i.tokens with
    | .aliasOf name :: rest =>
      (i.anchors.lookup name).map fun anchor => (.aliasOf anchor, i.withTokens rest)
    | _ =>
      (properties? handles i).bind fun (p, j) =>
        content? (node? handles bound depth) bound setting p j

/-! ## Documents -/

/-- Read the directives in front of a document : the handles they explain and the tokens after them.
At most one states the version, which must be a known one, and none explains a handle again. -/
def directives? (versioned : Bool) (handles : Handles) :
    List Token → Option (Handles × List Token)
  | .version major minor :: rest =>
    if versioned || major ≠ 1 || minor < 1 || 2 < minor then none
    else directives? true handles rest
  | .tagHandle handle expansion :: rest =>
    if (handles.lookup handle).isSome then none
    else directives? versioned (handles ++ [(handle, expansion)]) rest
  | ts => some (handles, ts)

/-- Whether a token cannot start a node of a document but is in front of one or behind it. -/
def isOutside : Token → Bool
  | .version _ _ | .tagHandle _ _ | .documentStart | .documentEnd => true
  | _ => false

/-- Read the node of a document and what is left. A document that starts with a marker may be
empty. -/
def document? (depth : Nat) (ts : List Token) : Option (Tree × List Token) :=
  let root (handles : Handles) (ts : List Token) : Option (Tree × List Token) :=
    (node? handles (ts.length + 1) depth .item ⟨ts, []⟩).map fun (t, left) => (t, left.tokens)
  match directives? false [] ts with
  | none => none
  | some (handles, .documentStart :: rest) =>
    if rest.head?.all isOutside then some (absent, rest)
    else root (handles ++ standardHandles) rest
  | some (_, rest) => if rest.length = ts.length then root standardHandles ts else none

/-- The tree of the only document of a text. A text without tokens has an empty one. -/
def ofTokens? (depth : Nat) (ts : List Token) : Option Tree :=
  if ts = [] then some absent
  else
    match document? depth ts with
    | some (t, rest) => if rest.all (· = .documentEnd) then some t else none
    | none => none

end Tree

end AccessPolicy.Yaml
