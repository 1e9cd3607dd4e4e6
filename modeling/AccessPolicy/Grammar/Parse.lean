import AccessPolicy.Diagnostic
import AccessPolicy.Grammar.Declaration
import AccessPolicy.TokenStream

/-!
# Parsing

The keywords that open declarations stand nowhere else, so a list of tokens falls into pieces
that each start with one and hold one declaration (`Program.pieces`). Every piece is read on
its own and gives a declaration or a `SyntaxError`. `Program.parse` stops at the first error,
and `Program.recover` keeps the declarations that can be read and collects all errors.
-/

namespace AccessPolicy

/-- A place where no declaration could go on. -/
structure SyntaxError where
  /-- What could have come there, in order. -/
  expected : List Expectation
  /-- The token that is there, or none at the end of the text. -/
  found : Option Token
  /-- The line of that token, or of the last one. -/
  line : Nat
  /-- The column of that token, or of the last one. -/
  column : Nat
  /-- What was being read. -/
  context : String
deriving DecidableEq, Repr

namespace SyntaxError

/-- The error in words. -/
def message (e : SyntaxError) : String :=
  e.context ++ ": expected " ++ Expectation.listText e.expected ++ ", found " ++
    ((e.found.map Token.display).getD "end of input")

/-- The error as a diagnostic. -/
def diagnostic (e : SyntaxError) : Diagnostic :=
  ⟨.syntaxError, e.message, e.line, e.column⟩

/-- What a piece that starts with a given kind of token is meant to be. -/
def contextOf : Token.Kind → String
  | .role => "role definition"
  | .user => "user definition"
  | .resource => "resource definition"
  | .allow | .deny => "policy definition"
  | _ => "declaration"

/-- The error of a piece that starts with `first` and got stuck before `rest`, when `follow`
is the token after the piece. -/
def ofStuck (first : Token) (body rest : List Token) (expected : List Expectation)
    (follow : Option Token) : SyntaxError :=
  let found := rest.head?.or follow
  let place := found.getD ((first :: body).getLast (List.cons_ne_nil _ _))
  ⟨Expectation.collect expected, found, place.line, place.column, contextOf first.kind⟩

end SyntaxError

/-- The declaration of the piece `first :: body`, when `follow` is the token after it. -/
def Declaration.read (first : Token) (body : List Token) (follow : Option Token) :
    Except SyntaxError Declaration :=
  match Reader.wholeDeclaration (first :: body) with
  | .done d _ _ => .ok d
  | .stuck rest expected => .error (SyntaxError.ofStuck first body rest expected follow)

/-- A program with the declarations that could be read and the errors of the others. -/
structure Recovered where
  /-- The declarations that could be read. -/
  program : Program
  /-- One error for each of the others. -/
  errors : List SyntaxError
deriving DecidableEq, Repr

/-- Whether everything could be read. -/
def Recovered.isOk (r : Recovered) : Bool :=
  r.errors.isEmpty

namespace Program

/-- Whether a token belongs to the declaration before it. -/
def continues (t : Token) : Bool :=
  !t.kind.startsDeclaration

/-- The reading of each piece, in order. -/
def pieces : List Token → List (Except SyntaxError Declaration)
  | [] => []
  | t :: ts =>
    Declaration.read t (ts.takeWhile continues) (ts.dropWhile continues).head? ::
      pieces (ts.dropWhile continues)
termination_by ts => ts.length
decreasing_by exact Nat.lt_succ_of_le (List.dropWhile_sublist _).length_le

/-- The program of some tokens, or its first error. -/
def parse (tokens : List Token) : Except SyntaxError Program :=
  ofDeclarations <$> (pieces tokens).mapM id

/-- The program of the declarations that can be read, with the errors of the others. -/
def recover (tokens : List Token) : Recovered where
  program := ofDeclarations ((pieces tokens).filterMap Except.toOption)
  errors := (pieces tokens).filterMap fun
    | .error e => some e
    | .ok _ => none

/-- The program of a text, or its first syntax error. Characters that cannot be read are
passed over. -/
def ofSource (source : String) : Except SyntaxError Program :=
  parse (tokenize source).tokens

end Program

end AccessPolicy
