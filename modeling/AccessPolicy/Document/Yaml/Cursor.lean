import AccessPolicy.Document.Yaml.Writer

/-!
# Places in a YAML text

In YAML the column where something stands carries meaning. A `Cursor` is what is left of a text with
the `Place` it starts at. Reading goes by single characters, and every character moves the place on
(`Place.step`); `unifyBreaks` makes sure first that every line ends in a single character.

A `Gap` is what stands between two words of a scalar that is not written as a block : blanks, or
line ends with blanks around them. Blanks count as they are. A single line feed counts as a space,
more of them count one less, and the line ends of other kinds count as they are.
-/

namespace AccessPolicy.Yaml

/-- The characters that may stand in a text. -/
def isAllowed (c : Char) : Bool :=
  c = '\t' || c = '\n' || c = '\r' || c = '\x85' || (0x20 ≤ c.toNat && c.toNat ≤ 0x7E) ||
    (0xA0 ≤ c.toNat && c.toNat ≤ 0xFFFD) || 0x10000 ≤ c.toNat

/-- The text with a line feed for each carriage return, alone or with a line feed, and for each next
line. -/
def unifyBreaks : List Char → List Char
  | [] => []
  | '\r' :: '\n' :: cs => '\n' :: unifyBreaks cs
  | c :: cs => (if c = '\r' || c = '\x85' then '\n' else c) :: unifyBreaks cs

/-- Blanks and line ends. -/
def isSpace (c : Char) : Bool :=
  isBlank c || isBreak c

/-- Whether a blank, a line end or nothing comes next, so that an indicator before it counts as
one. -/
def endsWord (cs : List Char) : Bool :=
  cs.head?.all isSpace

/-! ## Places -/

/-- A place in a text. Lines and columns count from 0. -/
structure Place where
  /-- Bytes of UTF-8 before this place. -/
  offset : Nat
  /-- Line ends before this place. -/
  line : Nat
  /-- Characters since the last line end. -/
  column : Nat
deriving DecidableEq, Repr

namespace Place

/-- The beginning of a text. -/
def start : Place :=
  ⟨0, 0, 0⟩

/-- The place after one more character. -/
def step (p : Place) (c : Char) : Place :=
  if isBreak c then ⟨p.offset + c.utf8Size, p.line + 1, 0⟩
  else ⟨p.offset + c.utf8Size, p.line, p.column + 1⟩

/-- The place after the characters `cs`. -/
def past (p : Place) (cs : List Char) : Place :=
  cs.foldl step p

end Place

/-- What is left of a text. -/
structure Cursor where
  /-- The place of the first character left. -/
  place : Place
  /-- The characters left. -/
  rest : List Char
deriving DecidableEq, Repr

namespace Cursor

/-- The cursor past `n` characters. -/
def drop (cur : Cursor) (n : Nat) : Cursor :=
  ⟨cur.place.past (cur.rest.take n), cur.rest.drop n⟩

/-- The characters at the front that satisfy `p`, and the cursor past them. -/
def span (cur : Cursor) (p : Char → Bool) : List Char × Cursor :=
  (cur.rest.takeWhile p, ⟨cur.place.past (cur.rest.takeWhile p), cur.rest.dropWhile p⟩)

/-- The cursor past the characters at the front that satisfy `p`. -/
def skip (cur : Cursor) (p : Char → Bool) : Cursor :=
  (cur.span p).2

/-- Whether the line is a document marker made of three characters `c`. -/
def isMarker (cur : Cursor) (c : Char) : Bool :=
  cur.place.column = 0 && cur.rest.take 3 = [c, c, c] && endsWord (cur.rest.drop 3)

/-- Whether the line is a document marker. -/
def isAnyMarker (cur : Cursor) : Bool :=
  cur.isMarker '-' || cur.isMarker '.'

/-- The cursor on the next line, if nothing but blanks and a comment is left of this one. -/
def nextLine? (cur : Cursor) : Option Cursor :=
  let next := cur.skip isBlank
  let next := if next.rest.head? = some '#' then next.skip (!isBreak ·) else next
  if next.rest.head?.all isBreak then some (next.drop 1) else none

theorem length_drop (cur : Cursor) (n : Nat) :
    (cur.drop n).rest.length = cur.rest.length - n :=
  List.length_drop

end Cursor

/-! ## Gaps -/

/-- What stands between two words. -/
inductive Gap where
  /-- Blanks on one line. -/
  | blanks (cs : List Char)
  /-- Line ends. The first is missing if it was taken away by a backslash. -/
  | lines (first : Option Char) (more : List Char)
deriving DecidableEq, Repr

namespace Gap

/-- Nothing. -/
def empty : Gap :=
  blanks []

/-- The gap with one more blank or line end. -/
def add (g : Gap) (c : Char) : Gap :=
  match g with
  | blanks cs => if isBreak c then lines (some c) [] else blanks (cs ++ [c])
  | lines first more => if isBreak c then lines first (more ++ [c]) else lines first more

/-- Whether the gap holds a line end. -/
def endsLine : Gap → Bool
  | blanks _ => false
  | lines _ _ => true

/-- What the gap counts as. -/
def text : Gap → List Char
  | blanks cs => cs
  | lines none more => more
  | lines (some c) more =>
    if c ≠ '\n' then c :: more
    else if more = [] then [' ']
    else more

end Gap

end AccessPolicy.Yaml
