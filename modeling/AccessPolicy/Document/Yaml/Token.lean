import AccessPolicy.Document.Yaml.Cursor

/-!
# YAML tokens

Before a YAML text is read as a tree it is cut into tokens. Indentation has become brackets by
then : `blockSequence` and `blockMapping` open a collection where lines start to stand further in,
and `blockEnd` closes it. Every key is announced by `key`, even if the text marks it only by the
colon behind it.

The tokens in front of a node, and those in front of a document, are read here : anchors, aliases,
tags and directives.
-/

namespace AccessPolicy.Yaml

/-- How a scalar is written. -/
inductive Style where
  | plain
  | quoted
  | literal
  | folded
deriving DecidableEq, Repr

/-- A token of a YAML text. -/
inductive Token where
  | version (major minor : Nat)
  | tagHandle (handle expansion : String)
  | documentStart
  | documentEnd
  | blockSequence
  | blockMapping
  | blockEnd
  | flowSequence
  | flowSequenceEnd
  | flowMapping
  | flowMappingEnd
  | item
  | comma
  | key
  | value
  | aliasOf (name : String)
  | anchor (name : String)
  | tag (handle rest : String)
  | scalar (style : Style) (text : String)
deriving DecidableEq, Repr

/-- The characters of names. -/
def isNameChar (c : Char) : Bool :=
  c.isAlphanum || c = '_' || c = '-'

/-- The name of an anchor, after its `&` or `*`. -/
def anchorName? (cur : Cursor) : Option (String × Cursor) :=
  let (name, after) := cur.span isNameChar
  let ends := endsWord after.rest ||
    after.rest.head?.any ['?', ':', ',', ']', '\x7d', '%', '@', '\x60'].contains
  if name = [] || !ends then none else some (String.ofList name, after)

/-! ## Tags -/

/-- The characters that stand for themselves in a tag. Some of them only between angle brackets or
in a directive. -/
def isTagChar (verbatim : Bool) (c : Char) : Bool :=
  isNameChar c ||
    [';', '/', '?', ':', '@', '&', '=', '+', '$', '.', '!', '~', '*', '\'', '(', ')'].contains c ||
    verbatim && [',', '[', ']'].contains c

/-- The number of octets in a row that starts with `octet` and encodes one character, or 0. -/
def octetCount (octet : Nat) : Nat :=
  if octet < 0x80 then 1
  else if octet < 0xC0 then 0
  else if octet < 0xE0 then 2
  else if octet < 0xF0 then 3
  else if octet < 0xF8 then 4
  else 0

/-- The characters of a tag and how many characters they are written with. A percent sign stands
before two digits of an octet; `due` octets must follow those before. -/
def tagChars? (verbatim : Bool) (due : Nat) : List Char → Option (List Char × Nat)
  | '%' :: a :: b :: cs =>
    match hexNumber? [a, b] with
    | none => none
    | some octet =>
      let count := if due = 0 then octetCount octet else if octet / 0x40 = 2 then due else 0
      if count = 0 then none
      else
        (tagChars? verbatim (count - 1) cs).map fun (more, n) => (Char.ofNat octet :: more, n + 3)
  | c :: cs =>
    if c = '%' then none
    else if due ≠ 0 then none
    else if isTagChar verbatim c then
      (tagChars? verbatim 0 cs).map fun (more, n) => (c :: more, n + 1)
    else some ([], 0)
  | [] => if due = 0 then some ([], 0) else none

/-- The characters of a tag, and what follows them. -/
def tagText? (verbatim : Bool) (cur : Cursor) : Option (List Char × Cursor) :=
  (tagChars? verbatim 0 cur.rest).map fun (text, n) => (text, cur.drop n)

/-- A tag without the check of what follows it, at its exclamation mark. It is written in full
between angle brackets, or behind a handle, which is `!` if no other is written. -/
def tagBody? (cur : Cursor) : Option (String × String × Cursor) :=
  if (cur.drop 1).rest.head? = some '<' then
    match tagText? true (cur.drop 2) with
    | none => none
    | some (text, after) =>
      if text = [] || after.rest.head? ≠ some '>' then none
      else some ("", String.ofList text, after.drop 1)
  else
    let (name, after) := (cur.drop 1).span isNameChar
    if after.rest.head? = some '!' then
      match tagText? false (after.drop 1) with
      | none => none
      | some (text, left) =>
        if text = [] then none
        else some ("!" ++ String.ofList name ++ "!", String.ofList text, left)
    else
      (tagText? false after).map fun (text, left) =>
        if name ++ text = [] then ("", "!", left)
        else ("!", String.ofList (name ++ text), left)

/-- A tag, at its exclamation mark. -/
def tag? (flow : Bool) (cur : Cursor) : Option (Token × Cursor) :=
  match tagBody? cur with
  | none => none
  | some (handle, text, after) =>
    if endsWord after.rest || flow && after.rest.head? = some ',' then
      some (.tag handle text, after)
    else none

/-! ## Directives -/

/-- A number of a version, of at most nine digits. -/
def versionNumber? (cur : Cursor) : Option (Nat × Cursor) :=
  let (digits, after) := cur.span Char.isDigit
  if digits = [] || 9 < digits.length then none
  else some (Nat.ofDigitChars 10 digits 0, after)

/-- The version that a directive states, after its name. -/
def version? (cur : Cursor) : Option (Token × Cursor) := do
  let (major, dot) ← versionNumber? (cur.skip isBlank)
  if dot.rest.head? ≠ some '.' then none
  let (minor, after) ← versionNumber? (dot.drop 1)
  return (.version major minor, after)

/-- The handle that a directive explains, after its name. -/
def tagHandle? (cur : Cursor) : Option (Token × Cursor) := do
  let start := cur.skip isBlank
  if start.rest.head? ≠ some '!' then none
  let (name, after) := (start.drop 1).span isNameChar
  let closed := after.rest.head? = some '!'
  if !closed && name ≠ [] then none
  let blank := if closed then after.drop 1 else after
  let handle := if closed then "!" ++ String.ofList name ++ "!" else "!"
  if !blank.rest.head?.any isBlank then none
  let (text, left) ← tagText? true (blank.skip isBlank)
  if text = [] || !endsWord left.rest then none
  return (.tagHandle handle (String.ofList text), left)

/-- A directive, at its percent sign, up to the end of its line. -/
def directive? (cur : Cursor) : Option (Token × Cursor) := do
  let (name, after) := (cur.drop 1).span isNameChar
  if !endsWord after.rest then none
  let (t, left) ←
    if name = "YAML".toList then version? after
    else if name = "TAG".toList then tagHandle? after
    else none
  return (t, ← left.nextLine?)

end AccessPolicy.Yaml
