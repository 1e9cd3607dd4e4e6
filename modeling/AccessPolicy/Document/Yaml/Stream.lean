import AccessPolicy.Document.Yaml.Block
import AccessPolicy.Document.Yaml.Plain
import AccessPolicy.Document.Yaml.Quoted
import AccessPolicy.Document.Yaml.Token

/-!
# Cutting a YAML text into tokens

A `Stream` is a YAML text while it is cut. It remembers the columns of the block collections that
are open, so that a token further out closes some of them, and where the node on the current line
started, because only a colon behind it tells that it is a key. A `Candidate` is such a start : it
must see its colon on the same line and not too far away, and at the column of an open mapping it
must see one at all. Each pair of brackets has its own candidate.

`keyAllowed` is whether a key, or an item of a block sequence, could start at the next token.
`tokens?` cuts a whole text.
-/

namespace AccessPolicy.Yaml

/-- The start of what may turn out to be a key. -/
structure Candidate where
  /-- The number of tokens before it. -/
  position : Nat
  /-- Where it starts. -/
  place : Place
  /-- Whether it must be a key. -/
  required : Bool
deriving DecidableEq, Repr

/-- The greatest number of bytes from the start of a key to its colon. -/
def keyLimit : Nat :=
  1024

/-- The deepest nesting of collections that is read. -/
def maxDepth : Nat :=
  128

/-- Whether the colon of a candidate can no longer come, now that `p` is reached. -/
def Candidate.isStale (k : Candidate) (p : Place) : Bool :=
  k.place.line < p.line || k.place.offset + keyLimit < p.offset

/-- A YAML text while it is cut into tokens. -/
structure Stream where
  /-- What is left of the text. -/
  cursor : Cursor
  /-- The columns of the open block collections, innermost first. -/
  columns : List Nat
  /-- The candidate between the innermost brackets, or outside all brackets. -/
  candidate : Option Candidate
  /-- The candidates further out, one for each open bracket. -/
  outer : List (Option Candidate)
  /-- Whether a key could start at the next token. -/
  keyAllowed : Bool
  /-- The tokens so far, last first. -/
  tokens : List Token
  /-- The number of tokens so far. -/
  count : Nat
deriving DecidableEq, Repr

namespace Stream

/-- An uncut text. -/
def ofText (cs : List Char) : Stream :=
  ⟨⟨.start, cs⟩, [], none, [], true, [], 0⟩

variable (s : Stream)

/-- Whether some bracket is open. -/
def inFlow : Bool :=
  !s.outer.isEmpty

/-- The column of the next token. -/
def column : Nat :=
  s.cursor.place.column

/-- The least column of what belongs inside the innermost block collection. -/
def least : Nat :=
  match s.columns with
  | [] => 0
  | c :: _ => c + 1

/-- The stream with one more token. -/
def emit (t : Token) : Stream :=
  { s with tokens := t :: s.tokens, count := s.count + 1 }

/-- The stream with a token put in after the first `position`. -/
def insert (position : Nat) (t : Token) : Stream :=
  let n := s.count - position
  { s with tokens := s.tokens.take n ++ t :: s.tokens.drop n, count := s.count + 1 }

/-- The stream with one more token, `n` characters further on. -/
def emitPast (n : Nat) (t : Token) : Stream :=
  { s.emit t with cursor := s.cursor.drop n }

/-! ## Block collections -/

/-- Close the block collections at the columns that satisfy `p`, innermost first. -/
def closeWhile (p : Nat → Bool) : Stream :=
  if s.inFlow then s
  else
    let closed := s.columns.takeWhile p
    { s with
      columns := s.columns.dropWhile p
      tokens := closed.map (fun _ => .blockEnd) ++ s.tokens
      count := s.count + closed.length }

/-- Open a block collection at `column`, after the first `position` tokens, unless one is open there
already. -/
def openBlock (column position : Nat) (t : Token) : Stream :=
  if s.inFlow || column < s.least then s
  else { s.insert position t with columns := column :: s.columns }

/-! ## Candidates -/

/-- Give up the candidate, which must not be a required one. -/
def giveUp? : Option Stream :=
  if s.candidate.any Candidate.required then none else some { s with candidate := none }

/-- Take the next token for the start of a candidate, if a key is allowed there. -/
def propose? : Option Stream :=
  if s.keyAllowed then
    let required := !s.inFlow && s.columns.head? = some s.column
    s.giveUp?.map fun s => { s with candidate := some ⟨s.count, s.cursor.place, required⟩ }
  else some s

/-- Give up all stale candidates, none of which must be a required one. -/
def dropStale? : Option Stream :=
  let stale (k : Candidate) : Bool := k.isStale s.cursor.place
  let keep (k : Option Candidate) : Option Candidate := k.filter (!stale ·)
  if (s.candidate :: s.outer).any (·.any fun k => stale k && k.required) then none
  else some { s with candidate := keep s.candidate, outer := s.outer.map keep }

/-! ## Between tokens -/

/-- What is left after the blanks, comments and line ends at the front of a text, and whether a
key is allowed there. Tabs may not stand where a key is allowed outside brackets. A byte order mark
may start a line, and takes up a column there. -/
def settled (flow : Bool) (allowed comment : Bool) : Place → List Char → Bool × Cursor
  | p, [] => (allowed, ⟨p, []⟩)
  | p, c :: cs =>
    if isBreak c then settled flow (allowed || !flow) false (p.step c) cs
    else if comment || c = ' ' || c = '\t' && (flow || !allowed) ||
        c = '\ufeff' && p.column = 0 then
      settled flow allowed comment (p.step c) cs
    else if c = '#' then settled flow allowed true (p.step c) cs
    else (allowed, ⟨p, c :: cs⟩)

/-- The stream at its next token, with the block collections closed that end before it. -/
def settle? : Option Stream :=
  let (allowed, cur) := settled s.inFlow s.keyAllowed false s.cursor.place s.cursor.rest
  ({ s with keyAllowed := allowed, cursor := cur } : Stream).dropStale?.map fun s =>
    s.closeWhile (s.column < ·)

/-! ## Tokens -/

/-- Cut what stands at column 0 and belongs to no document, or starts or ends one. -/
def cutOutside? (t : Token) (left : Cursor) : Option Stream :=
  (s.closeWhile fun _ => true).giveUp?.map fun s =>
    { s.emit t with cursor := left, keyAllowed := false }

/-- Cut an opening bracket, which must not be nested too deep. -/
def cutOpening? (t : Token) : Option Stream :=
  if maxDepth ≤ s.outer.length then none
  else
    s.propose?.map fun s =>
      { s.emitPast 1 t with
        candidate := none, outer := s.candidate :: s.outer, keyAllowed := true }

/-- Cut a closing bracket. -/
def cutClosing? (t : Token) : Option Stream :=
  s.giveUp?.map fun s =>
    { s.emitPast 1 t with
      candidate := s.outer.head?.getD none, outer := s.outer.tail, keyAllowed := false }

/-- Cut a comma between brackets. -/
def cutComma? : Option Stream :=
  s.giveUp?.map fun s => { s.emitPast 1 .comma with keyAllowed := true }

/-- Cut the dash of an item. -/
def cutItem? : Option Stream :=
  if !s.inFlow && !s.keyAllowed then none
  else
    (s.openBlock s.column s.count .blockSequence).giveUp?.map fun s =>
      { s.emitPast 1 .item with keyAllowed := true }

/-- Cut the question mark of a key. -/
def cutKey? : Option Stream :=
  if !s.inFlow && !s.keyAllowed then none
  else
    (s.openBlock s.column s.count .blockMapping).giveUp?.map fun s =>
      { s.emitPast 1 .key with keyAllowed := !s.inFlow }

/-- Cut the colon before a value. It makes the candidate a key, and without one it needs a key that
was marked by a question mark. -/
def cutValue? : Option Stream :=
  match s.candidate with
  | some k =>
    let s := (s.insert k.position .key).openBlock k.place.column k.position .blockMapping
    some { s.emitPast 1 .value with candidate := none, keyAllowed := false }
  | none =>
    if !s.inFlow && !s.keyAllowed then none
    else
      let s := s.openBlock s.column s.count .blockMapping
      some { s.emitPast 1 .value with keyAllowed := !s.inFlow }

/-- Cut a token that may start a key. -/
def cutNode? (t : Token) (left : Cursor) : Option Stream :=
  s.propose?.map fun s => { s.emit t with cursor := left, keyAllowed := false }

/-- Cut an anchor or an alias. -/
def cutAnchor? (t : String → Token) : Option Stream :=
  (anchorName? (s.cursor.drop 1)).bind fun (name, left) => s.cutNode? (t name) left

/-- Cut a block scalar. No key can start with one, and one can start behind it. -/
def cutBlockScalar? (folded : Bool) : Option Stream :=
  (blockScalar? folded s.least s.cursor).bind fun (text, left) =>
    s.giveUp?.map fun s =>
      { s.emit (.scalar (if folded then .folded else .literal) (String.ofList text)) with
        cursor := left, keyAllowed := true }

/-- Cut a quoted scalar. -/
def cutQuoted? : Option Stream :=
  (quoted? s.cursor).bind fun (text, left) =>
    s.cutNode? (.scalar .quoted (String.ofList text)) left

/-- Cut a plain scalar. A key can start behind it if a line end was passed over with it. -/
def cutPlain? : Option Stream :=
  (plain? s.inFlow s.least s.cursor).bind fun p =>
    (s.cutNode? (.scalar .plain (String.ofList p.text)) p.cursor).map fun s =>
      { s with keyAllowed := p.endsLine }

/-- Cut the token that starts with `c`. -/
def cut? (c : Char) : Option Stream :=
  let bare := endsWord s.cursor.rest.tail
  if c = '%' && s.column = 0 then
    (directive? s.cursor).bind fun (t, left) => s.cutOutside? t left
  else if s.cursor.isMarker '-' then s.cutOutside? .documentStart (s.cursor.drop 3)
  else if s.cursor.isMarker '.' then s.cutOutside? .documentEnd (s.cursor.drop 3)
  else if c = '[' then s.cutOpening? .flowSequence
  else if c = '\x7b' then s.cutOpening? .flowMapping
  else if c = ']' then s.cutClosing? .flowSequenceEnd
  else if c = '\x7d' then s.cutClosing? .flowMappingEnd
  else if c = ',' then s.cutComma?
  else if c = '-' && bare then s.cutItem?
  else if c = '?' && (s.inFlow || bare) then s.cutKey?
  else if c = ':' && (s.inFlow || bare) then s.cutValue?
  else if c = '*' then s.cutAnchor? .aliasOf
  else if c = '&' then s.cutAnchor? .anchor
  else if c = '!' then (tag? s.inFlow s.cursor).bind fun (t, left) => s.cutNode? t left
  else if c = '|' && !s.inFlow then s.cutBlockScalar? false
  else if c = '>' && !s.inFlow then s.cutBlockScalar? true
  else if c = '\'' || c = '"' then s.cutQuoted?
  else if startsPlain s.inFlow s.cursor.rest then s.cutPlain?
  else none

/-- The tokens of a stream, of which at most `fuel` are still to be cut. -/
def run? : (fuel : Nat) → Stream → Option (List Token)
  | 0, _ => none
  | fuel + 1, s =>
    match s.settle? with
    | none => none
    | some s =>
      match s.cursor.rest with
      | [] => (s.closeWhile fun _ => true).giveUp?.map fun s => s.tokens.reverse
      | c :: _ =>
        match s.cut? c with
        | none => none
        | some s => run? fuel s

end Stream

/-- The tokens of a text. Each takes at least one character. -/
def tokens? (cs : List Char) : Option (List Token) :=
  (Stream.ofText cs).run? (cs.length + 1)

end AccessPolicy.Yaml
