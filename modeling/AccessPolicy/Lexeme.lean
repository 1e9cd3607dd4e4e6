import AccessPolicy.Text.Position
import AccessPolicy.Token.Kind

/-!
# Lexemes

A lexeme is a piece of the text that is read as one : a run of line feeds, a word, a run
of digits, a string, a symbol, or a character that starts none of these. `munch` takes
the longest lexeme at the front of a text. The characters it takes and the characters it
leaves make up the text (`munch_append`), so every lexeme shortens what is left.

`Lexeme.next?` passes over blanks first, and `Lexeme.scan` cuts a whole text.
-/

namespace AccessPolicy

/-- The symbols of one or two characters. `star` is a wildcard or a product sign. -/
inductive Symbol where
  | ge
  | le
  | eq
  | ne
  | gt
  | lt
  | plus
  | minus
  | star
  | divide
  | lbrace
  | rbrace
  | lparen
  | rparen
  | colon
  | dot
  | comma
deriving DecidableEq, Repr

namespace Symbol

/-- The symbol of two characters. -/
def ofPair? (c d : Char) : Option Symbol :=
  match c, d with
  | '>', '=' => some ge
  | '<', '=' => some le
  | '=', '=' => some eq
  | '!', '=' => some ne
  | _, _ => none

/-- The symbol of one character. -/
def ofChar? : Char → Option Symbol
  | '>' => some gt
  | '<' => some lt
  | '+' => some plus
  | '-' => some minus
  | '*' => some star
  | '/' => some divide
  | '\x7b' => some lbrace
  | '\x7d' => some rbrace
  | '(' => some lparen
  | ')' => some rparen
  | ':' => some colon
  | '.' => some dot
  | ',' => some comma
  | _ => none

/-- The token kind of a symbol that always has the same one. -/
def kind? : Symbol → Option Token.Kind
  | ge => some .ge
  | le => some .le
  | eq => some .eq
  | ne => some .ne
  | gt => some .gt
  | lt => some .lt
  | plus => some .plus
  | minus => some .minus
  | star => none
  | divide => some .divide
  | lbrace => some .lbrace
  | rbrace => some .rbrace
  | lparen => some .lparen
  | rparen => some .rparen
  | colon => some .colon
  | dot => some .dot
  | comma => some .comma

end Symbol

/-- What a lexeme is, before keywords are told from names. -/
inductive Lexeme.Shape where
  | newlines
  | word
  | digits
  | quoted
  | unterminated
  | symbol (s : Symbol)
  | illegal
deriving DecidableEq, Repr

/-- A piece of the text with its shape. -/
structure Lexeme where
  /-- What the piece is. -/
  shape : Lexeme.Shape
  /-- The characters of the piece. -/
  text : List Char
deriving DecidableEq, Repr

namespace Lexeme

/-- The characters between lexemes. The line feed is not one of them. -/
def isBlank (c : Char) : Bool :=
  c = ' ' || c = '\t' || c = '\r' || c = '\x0c'

/-- The characters a word starts with. -/
def isWordStart (c : Char) : Bool :=
  c.isAlpha || c = '_'

/-- The characters a word goes on with. -/
def isWordPart (c : Char) : Bool :=
  c.isAlphanum || c = '_'

/-- The characters inside a string : it ends at a quote and does not leave its line. -/
def isStringPart (c : Char) : Bool :=
  c ≠ '"' && c ≠ '\n'

/-- The lexeme of a single character : a symbol, or nothing that can be read. -/
def ofChar (c : Char) : Lexeme :=
  match Symbol.ofChar? c with
  | some s => ⟨.symbol s, [c]⟩
  | none => ⟨.illegal, [c]⟩

/-- The longest lexeme at the front of `c :: cs`, and what follows it. -/
def munch (c : Char) (cs : List Char) : Lexeme × List Char :=
  if c = '\n' then
    (⟨.newlines, c :: cs.takeWhile (· = '\n')⟩, cs.dropWhile (· = '\n'))
  else if isWordStart c then
    (⟨.word, c :: cs.takeWhile isWordPart⟩, cs.dropWhile isWordPart)
  else if c.isDigit then
    (⟨.digits, c :: cs.takeWhile Char.isDigit⟩, cs.dropWhile Char.isDigit)
  else if c = '"' then
    match cs.dropWhile isStringPart with
    | '"' :: rest => (⟨.quoted, c :: cs.takeWhile isStringPart ++ ['"']⟩, rest)
    | rest => (⟨.unterminated, c :: cs.takeWhile isStringPart⟩, rest)
  else
    match cs with
    | [] => (ofChar c, [])
    | d :: rest =>
      match Symbol.ofPair? c d with
      | some s => (⟨.symbol s, [c, d]⟩, rest)
      | none => (ofChar c, d :: rest)

@[simp] theorem text_ofChar (c : Char) : (ofChar c).text = [c] := by
  unfold ofChar
  split <;> rfl

/-- Nothing is lost : the lexeme and the rest make up the text. -/
theorem munch_append (c : Char) (cs : List Char) :
    (munch c cs).1.text ++ (munch c cs).2 = c :: cs := by
  unfold munch
  split
  · simp
  split
  · simp
  split
  · simp
  split
  · split
    · next rest h =>
      have := List.takeWhile_append_dropWhile (p := isStringPart) (l := cs)
      rw [h] at this
      simpa using this
    · simp
  · split
    · simp
    · split <;> simp

/-- A lexeme has a first character, the one the text starts with. -/
theorem exists_text_munch (c : Char) (cs : List Char) :
    ∃ more, (munch c cs).1.text = c :: more := by
  unfold munch
  split
  · exact ⟨_, rfl⟩
  split
  · exact ⟨_, rfl⟩
  split
  · exact ⟨_, rfl⟩
  split
  · split <;> exact ⟨_, rfl⟩
  · split
    · exact ⟨[], text_ofChar c⟩
    · split
      · exact ⟨_, rfl⟩
      · exact ⟨[], text_ofChar c⟩

theorem length_munch_le (c : Char) (cs : List Char) : (munch c cs).2.length ≤ cs.length := by
  have h := congrArg List.length (munch_append c cs)
  obtain ⟨more, hm⟩ := exists_text_munch c cs
  rw [hm] at h
  simp only [List.cons_append, List.length_cons, List.length_append] at h
  omega

/-- A lexeme where it stands in the text. -/
structure Placed where
  /-- The lexeme. -/
  lexeme : Lexeme
  /-- The place of its first character. -/
  start : Position
deriving DecidableEq, Repr

/-- The place after a lexeme. -/
def Placed.stop (l : Placed) : Position :=
  l.start.past l.lexeme.text

/-- The first lexeme of a text that starts at `p`, past any blanks, and what follows. -/
def next? (p : Position) (cs : List Char) : Option (Placed × List Char) :=
  match cs.dropWhile isBlank with
  | [] => none
  | c :: rest =>
    some (⟨(munch c rest).1, p.past (cs.takeWhile isBlank)⟩, (munch c rest).2)

theorem length_next?_lt {p : Position} {cs rest : List Char} {l : Placed}
    (h : next? p cs = some (l, rest)) : rest.length < cs.length := by
  unfold next? at h
  split at h
  · simp at h
  · next c more hc =>
    have hd := (List.dropWhile_sublist isBlank (l := cs)).length_le
    have hm := length_munch_le c more
    simp only [Option.some.injEq, Prod.mk.injEq] at h
    rw [hc, List.length_cons] at hd
    rw [← h.2]
    omega

/-- The lexemes of a text that starts at `p`. -/
def scan (p : Position) (cs : List Char) : List Placed :=
  match _h : next? p cs with
  | none => []
  | some (l, rest) => l :: scan l.stop rest
termination_by cs.length
decreasing_by exact length_next?_lt _h

end Lexeme

end AccessPolicy
