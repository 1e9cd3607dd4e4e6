/-!
# Positions in a text

A `Position` stands before a character of a text. It counts what lies ahead of it in
three ways : bytes of UTF-8 (`offset`), lines and columns. Walking over characters
moves it (`Position.past`), so the position of any suffix is `Position.start` moved
past the characters before the suffix, however the walk was split up
(`Position.past_append`).

`cutAtByte` finds the suffix that a byte offset names.
-/

namespace AccessPolicy

/-- A place in a text : the bytes before it, and the line and column of the character
that follows, both counted from 1. -/
structure Position where
  /-- Bytes of UTF-8 before this place. -/
  offset : Nat
  /-- One more than the line feeds before this place. -/
  line : Nat
  /-- One more than the characters since the last line feed. -/
  column : Nat
deriving DecidableEq, Repr

namespace Position

/-- The beginning of a text. -/
def start : Position :=
  ⟨0, 1, 1⟩

/-- The place after one more character. Only a line feed opens a new line. -/
def step (p : Position) (c : Char) : Position :=
  if c = '\n' then ⟨p.offset + c.utf8Size, p.line + 1, 1⟩
  else ⟨p.offset + c.utf8Size, p.line, p.column + 1⟩

/-- The place after the characters `cs`. -/
def past (p : Position) (cs : List Char) : Position :=
  cs.foldl step p

@[simp] theorem past_nil (p : Position) : p.past [] = p := rfl

@[simp] theorem past_cons (p : Position) (c : Char) (cs : List Char) :
    p.past (c :: cs) = (p.step c).past cs := rfl

@[simp] theorem past_append (p : Position) (cs ds : List Char) :
    p.past (cs ++ ds) = (p.past cs).past ds :=
  List.foldl_append

end Position

/-- The characters of a text before and after the byte `offset`. An offset past the end
is the end, and one inside a character is the start of that character. -/
def cutAtByte (offset : Nat) : List Char → List Char × List Char
  | [] => ([], [])
  | c :: cs =>
    if c.utf8Size ≤ offset then
      let (before, after) := cutAtByte (offset - c.utf8Size) cs
      (c :: before, after)
    else ([], c :: cs)

theorem cutAtByte_append (offset : Nat) (cs : List Char) :
    (cutAtByte offset cs).1 ++ (cutAtByte offset cs).2 = cs := by
  induction cs generalizing offset with
  | nil => rfl
  | cons c cs ih =>
    unfold cutAtByte
    split
    · simpa using ih (offset - c.utf8Size)
    · rfl

end AccessPolicy
