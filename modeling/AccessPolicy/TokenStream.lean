import AccessPolicy.Diagnostic
import AccessPolicy.Integer
import AccessPolicy.Lexeme
import AccessPolicy.Token.Basic
import AccessPolicy.Token.Word

/-!
# Token streams

A `TokenStream` is what is left of a text while it is read token by token. `Lexeme.read`
decides what one lexeme gives : a token, a diagnostic, or nothing for a run of line feeds.
The only context it needs is the kind of the last token given, because `*` is a wildcard
after a colon or an opening brace and a product sign everywhere else.

`TokenStream.next` gives one token, `TokenStream.tokens` all that are left, and
`TokenStream.startingAt` opens a text at any byte. `tokenize` reads a whole text.
-/

namespace AccessPolicy

/-- What one lexeme gives. -/
inductive Lexeme.Reading where
  | nothing
  | problem (d : Diagnostic)
  | token (t : Token)
deriving DecidableEq, Repr

namespace Lexeme

/-- The kind of a `*`, given the kind of the token before it. -/
def starKind : Option Token.Kind → Token.Kind
  | some .colon | some .lbrace => .wildcard
  | _ => .times

/-- The reading of a lexeme, given the kind of the token before it. -/
def read (lookback : Option Token.Kind) (l : Placed) : Reading :=
  let written := String.ofList l.lexeme.text
  let token (k : Token.Kind) (v : Token.Value) : Reading :=
    .token ⟨k, v, l.start.line, l.start.column⟩
  let problem (k : Diagnostic.Kind) (message : String) : Reading :=
    .problem ⟨k, message, l.start.line, l.start.column⟩
  match l.lexeme.shape with
  | .newlines => .nothing
  | .word => token (Token.classify written).1 (.text (Token.classify written).2)
  | .digits =>
    let n := Nat.ofDigitChars 10 l.lexeme.text 0
    if n ≤ maxInt64 then token .number (.number n)
    else problem .invalidNumber ("integer literal " ++ written ++ " is out of range")
  | .quoted => token .string (.text (String.ofList l.lexeme.text.tail.dropLast))
  | .unterminated =>
    problem .unterminatedString "illegal character '\"': unterminated string literal"
  | .symbol s => token (s.kind?.getD (starKind lookback)) (.text written)
  | .illegal => problem .illegalCharacter ("illegal character '" ++ written ++ "'")

end Lexeme

/-- What is left of a text, with what reading it so far has found. -/
structure TokenStream where
  /-- The characters not read yet. -/
  rest : List Char
  /-- The place of `rest` in the text. -/
  position : Position
  /-- The kind of the last token given. -/
  lookback : Option Token.Kind
  /-- The diagnostics so far, in order. -/
  diagnostics : List Diagnostic
deriving DecidableEq, Repr

namespace TokenStream

/-- The text from a byte on. Positions are those in the whole text, and no token has been
given yet. -/
def startingAt (source : String) (offset : Nat) : TokenStream :=
  let (before, after) := cutAtByte offset source.toList
  ⟨after, Position.start.past before, none, []⟩

/-- The whole text. -/
def ofString (source : String) : TokenStream :=
  startingAt source 0

/-- The byte offset just past the last lexeme read, or the end once there is none. -/
def offset (s : TokenStream) : Nat :=
  s.position.offset

/-- The stream with nothing left. -/
def drained (s : TokenStream) : TokenStream :=
  { s with rest := [], position := s.position.past s.rest }

/-- The stream after the lexeme `l`, with `rest` left. -/
def after (s : TokenStream) (l : Lexeme.Placed) (rest : List Char) : TokenStream :=
  { s with rest := rest, position := l.stop }

/-- The stream with one more diagnostic. -/
def report (s : TokenStream) (d : Diagnostic) : TokenStream :=
  { s with diagnostics := s.diagnostics ++ [d] }

/-- The next token, if any, and the stream after it. -/
def next (s : TokenStream) : Option Token × TokenStream :=
  match _h : Lexeme.next? s.position s.rest with
  | none => (none, s.drained)
  | some (l, rest) =>
    match Lexeme.read s.lookback l with
    | .nothing => (s.after l rest).next
    | .problem d => ((s.after l rest).report d).next
    | .token t => (some t, { s.after l rest with lookback := some t.kind })
termination_by s.rest.length
decreasing_by all_goals exact Lexeme.length_next?_lt _h

theorem length_rest_next_lt {s u : TokenStream} {t : Token} (h : s.next = (some t, u)) :
    u.rest.length < s.rest.length := by
  fun_induction next s with
  | case1 => simp at h
  | case2 s l rest hl _ ih => exact Nat.lt_trans (ih h) (Lexeme.length_next?_lt hl)
  | case3 s l rest hl d _ ih => exact Nat.lt_trans (ih h) (Lexeme.length_next?_lt hl)
  | case4 s l rest hl t' _ =>
    simp only [Prod.mk.injEq] at h
    rw [← h.2]
    exact Lexeme.length_next?_lt hl

/-- All tokens that are left, and the stream after them. -/
def tokens (s : TokenStream) : List Token × TokenStream :=
  match _h : s.next with
  | (none, u) => ([], u)
  | (some t, u) =>
    let (ts, v) := u.tokens
    (t :: ts, v)
termination_by s.rest.length
decreasing_by exact length_rest_next_lt _h

end TokenStream

/-- A text cut into tokens, with every diagnostic on the way. -/
structure Tokenized where
  /-- The tokens, in order. -/
  tokens : List Token
  /-- The diagnostics, in order. -/
  diagnostics : List Diagnostic
deriving DecidableEq, Repr

/-- The tokens and diagnostics of a text. -/
def tokenize (source : String) : Tokenized :=
  let (tokens, s) := (TokenStream.ofString source).tokens
  ⟨tokens, s.diagnostics⟩

end AccessPolicy
