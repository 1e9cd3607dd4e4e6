import AccessPolicy.Document.Basic
import AccessPolicy.Text.Hex

/-!
# Writing JSON

`Json.write` writes a document as JSON text in a given `Layout` : `Json.pretty` puts each
item and each field on a line of its own, two spaces in for each level, and `Json.compact`
puts everything on one line. Fields keep their order. Strings escape the quote, the
backslash and the control characters below 0x20, and nothing else.
-/

namespace AccessPolicy.Json

/-- A character as it is written inside a string. -/
def escape (c : Char) : List Char :=
  if c = '"' then ['\\', '"']
  else if c = '\\' then ['\\', '\\']
  else if c = '\x08' then ['\\', 'b']
  else if c = '\x0c' then ['\\', 'f']
  else if c = '\n' then ['\\', 'n']
  else if c = '\r' then ['\\', 'r']
  else if c = '\t' then ['\\', 't']
  else if c.toNat < 0x20 then '\\' :: 'u' :: hexDigits 'a' 4 c.toNat
  else [c]

/-- A string between quotes. -/
def quoted (s : String) : List Char :=
  '"' :: s.toList.flatMap escape ++ ['"']

/-- The spacing of written JSON. -/
structure Layout where
  /-- What stands before an item or a closing bracket at a given level. -/
  newline : Nat → List Char
  /-- What stands between a key and its value. -/
  colon : List Char

mutual

/-- A document at level `n` of the text. -/
def write (l : Layout) (n : Nat) : Document → List Char
  | .null => "null".toList
  | .bool true => "true".toList
  | .bool false => "false".toList
  | .int k => k.repr.toList
  | .decimal w => w.toList
  | .string s => quoted s
  | .list [] => ['[', ']']
  | .list (d :: ds) =>
    '[' :: l.newline (n + 1) ++ write l (n + 1) d ++ writeItems l (n + 1) ds ++
      l.newline n ++ [']']
  | .object [] => ['\x7b', '\x7d']
  | .object ((k, d) :: fs) =>
    '\x7b' :: l.newline (n + 1) ++ quoted k ++ l.colon ++ write l (n + 1) d ++
      writeFields l (n + 1) fs ++ l.newline n ++ ['\x7d']

/-- The items after the first. -/
def writeItems (l : Layout) (n : Nat) : List Document → List Char
  | [] => []
  | d :: ds => ',' :: l.newline n ++ write l n d ++ writeItems l n ds

/-- The fields after the first. -/
def writeFields (l : Layout) (n : Nat) : List (String × Document) → List Char
  | [] => []
  | (k, d) :: fs =>
    ',' :: l.newline n ++ quoted k ++ l.colon ++ write l n d ++ writeFields l n fs

end

/-- One item a line, two spaces for each level. -/
def prettyLayout : Layout where
  newline n := '\n' :: List.replicate (2 * n) ' '
  colon := [':', ' ']

/-- Everything on one line. -/
def compactLayout : Layout where
  newline _ := []
  colon := [':']

/-- A document as indented JSON. -/
def pretty (d : Document) : String :=
  String.ofList (write prettyLayout 0 d)

/-- A document as JSON on one line. -/
def compact (d : Document) : String :=
  String.ofList (write compactLayout 0 d)

end AccessPolicy.Json
