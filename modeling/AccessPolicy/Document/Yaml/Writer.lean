import AccessPolicy.Document.Yaml.Scalar

/-!
# Writing YAML

`Yaml.write` writes a document in block style, a line for each field or item. The fields of an
object under a key stand two spaces further in, the items of a list under a key do not, and the
first line of an item stands behind its dash. Nothing is folded.

A string is written plain where that reads back as the same string, between double quotes if it
holds characters that are not printed, and between single quotes otherwise.
-/

namespace AccessPolicy.Yaml

/-- Spaces and tabs. -/
def isBlank (c : Char) : Bool :=
  c = ' ' || c = '\t'

/-- The characters that end a line. -/
def isBreak (c : Char) : Bool :=
  c = '\n' || c = '\r' || c = '\x85' || c = '\u2028' || c = '\u2029'

/-- The characters that are written as they are. -/
def isPrinted (c : Char) : Bool :=
  !(c.toNat < 0x20 || (0x7F ≤ c.toNat && c.toNat ≤ 0x9F) || isBreak c || c = '\ufeff' ||
    c = '\ufffe' || c = '\uffff')

/-- A character as it is written between double quotes. -/
def escape (c : Char) : List Char :=
  if c = '\x00' then ['\\', '0']
  else if c = '\x07' then ['\\', 'a']
  else if c = '\x08' then ['\\', 'b']
  else if c = '\t' then ['\\', 't']
  else if c = '\n' then ['\\', 'n']
  else if c = '\x0b' then ['\\', 'v']
  else if c = '\x0c' then ['\\', 'f']
  else if c = '\r' then ['\\', 'r']
  else if c = '\x1b' then ['\\', 'e']
  else if c = '"' then ['\\', '"']
  else if c = '\\' then ['\\', '\\']
  else if c = '\x85' then ['\\', 'N']
  else if c = '\u2028' then ['\\', 'L']
  else if c = '\u2029' then ['\\', 'P']
  else if isPrinted c then [c]
  else if c.toNat < 0x100 then '\\' :: 'x' :: hexDigits 'A' 2 c.toNat
  else '\\' :: 'u' :: hexDigits 'A' 4 c.toNat

/-- A string between double quotes. -/
def doubleQuoted (cs : List Char) : List Char :=
  '"' :: cs.flatMap escape ++ ['"']

/-- A string between single quotes, which are doubled inside. -/
def singleQuoted (cs : List Char) : List Char :=
  '\'' :: cs.flatMap (fun c => if c = '\'' then ['\'', '\''] else [c]) ++ ['\'']

/-- The characters that give a text a meaning of its own when it starts with them. -/
def indicators : List Char :=
  ['#', ',', '[', ']', '\x7b', '\x7d', '&', '*', '!', '|', '>', '\'', '"', '%', '@', '\x60']

/-- Whether a text starts like something other than a plain scalar. -/
def startsBadly : List Char → Bool
  | [] => true
  | c :: rest =>
    c = ' ' || indicators.contains c ||
      ((c = '?' || c = ':' || c = '-') && (rest.head?.map isBlank).getD true) ||
      (c :: rest).take 3 = ['-', '-', '-'] || (c :: rest).take 3 = ['.', '.', '.']

/-- Whether a text holds a colon that ends a key or a number sign that opens a comment. -/
def holdsMark : List Char → Bool
  | [] => false
  | c :: rest =>
    (c = ':' && (rest.head?.map isBlank).getD true) ||
      (isBlank c && rest.head? = some '#') || holdsMark rest

/-- A string as a scalar. -/
def stringText (cs : List Char) : List Char :=
  if !readsAsString cs then singleQuoted cs
  else if !cs.all isPrinted then doubleQuoted cs
  else if startsBadly cs || cs.getLast? = some ' ' || holdsMark cs then singleQuoted cs
  else cs

/-- Each line after the first with two spaces in front, and the first with `lead`. -/
def hang (lead : List Char) : List (List Char) → List (List Char)
  | [] => []
  | first :: rest => (lead ++ first) :: rest.map ([' ', ' '] ++ ·)

mutual

/-- The lines of a document. -/
def lines : Document → List (List Char)
  | .null => ["null".toList]
  | .bool true => ["true".toList]
  | .bool false => ["false".toList]
  | .int n => [n.repr.toList]
  | .decimal w => [w.toList]
  | .string s => [stringText s.toList]
  | .list [] => [['[', ']']]
  | .list (d :: ds) => itemLines (d :: ds)
  | .object [] => [['\x7b', '\x7d']]
  | .object (f :: fs) => fieldLines (f :: fs)

/-- The lines of items. -/
def itemLines : List Document → List (List Char)
  | [] => []
  | d :: ds => hang ['-', ' '] (lines d) ++ itemLines ds

/-- The lines of fields. -/
def fieldLines : List (String × Document) → List (List Char)
  | [] => []
  | (k, d) :: fs =>
    let key := stringText k.toList ++ [':']
    (match d with
      | .list (_ :: _) => key :: lines d
      | .object (_ :: _) => key :: (lines d).map ([' ', ' '] ++ ·)
      | _ => (lines d).map ((key ++ [' ']) ++ ·)) ++ fieldLines fs

end

/-- A document as YAML text. -/
def write (d : Document) : String :=
  String.ofList ((lines d).flatMap (· ++ ['\n']))

end AccessPolicy.Yaml
