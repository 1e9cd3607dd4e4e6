import AccessPolicy.Grammar.Expectation
import AccessPolicy.Token.Basic

/-!
# Readers

A `Reader` takes a value off the front of a list of tokens. It commits to an alternative at
its first token : `Reader.or` tries the second way only if the first got stuck where it
started, and `Reader.many` and `Reader.optional` stop only there.

What makes error messages exact is what a reader says besides its value. When it is done it
also names the leaves that could have carried it further (`Outcome.done`), and a reader that
gets stuck right there adds them to its own (`Outcome.after`). So the leaves named by a stuck
reader are all that could have come next, and no others.
-/

namespace AccessPolicy

/-- What reading came to : a value, the tokens left and what else could have followed; or the
tokens that could not be read and what was expected in their place. -/
inductive Outcome (α : Type) where
  | done (value : α) (rest : List Token) (also : List Expectation)
  | stuck (rest : List Token) (expected : List Expectation)

namespace Outcome

/-- An outcome of reading on at `rest`, where `also` could have come too. -/
def after {α : Type} (rest : List Token) (also : List Expectation) : Outcome α → Outcome α
  | done a r more => done a r (if r.length = rest.length then also ++ more else more)
  | stuck r more => stuck r (if r.length = rest.length then also ++ more else more)

end Outcome

/-- A way to take a value off the front of a list of tokens. -/
def Reader (α : Type) : Type :=
  List Token → Outcome α

namespace Reader

variable {α β : Type}

/-- Read nothing. -/
protected def pure (a : α) : Reader α :=
  fun ts => .done a ts []

/-- Read one thing and then another. -/
protected def bind (p : Reader α) (f : α → Reader β) : Reader β := fun ts =>
  match p ts with
  | .done a rest also => (f a rest).after rest also
  | .stuck rest expected => .stuck rest expected

instance : Monad Reader where
  pure := Reader.pure
  bind := Reader.bind

/-- Read one token that `accept` has a value for, or else expect `e`. -/
def leaf (e : Expectation) (accept : Token → Option α) : Reader α
  | [] => .stuck [] [e]
  | t :: ts =>
    match accept t with
    | some a => .done a ts []
    | none => .stuck (t :: ts) [e]

/-- Read in one of two ways. -/
def or (p q : Reader α) : Reader α := fun ts =>
  match p ts with
  | .done a rest also => .done a rest also
  | .stuck rest expected =>
    if rest.length = ts.length then (q ts).after ts expected else .stuck rest expected

/-- Read something or nothing. -/
def optional (p : Reader α) : Reader (Option α) := fun ts =>
  match p ts with
  | .done a rest also => .done (some a) rest also
  | .stuck rest expected =>
    if rest.length = ts.length then .done none ts expected else .stuck rest expected

/-- Read something as often as it comes. -/
def many (p : Reader α) (ts : List Token) : Outcome (List α) :=
  match p ts with
  | .done a rest also =>
    if _h : rest.length < ts.length then
      match (many p rest).after rest also with
      | .done as last more => .done (a :: as) last more
      | .stuck last expected => .stuck last expected
    else .done [] ts []
  | .stuck rest expected =>
    if rest.length = ts.length then .done [] ts expected else .stuck rest expected
termination_by ts.length

/-- Read items joined by operators, and combine them from the left. -/
def chain (item : Reader α) (operator : Reader (α → α → α)) : Reader α := do
  let first ← item
  let more ← many do
    let f ← operator
    let a ← item
    return (f, a)
  return more.foldl (fun left (f, right) => f left right) first

/-- Read with a bound on nesting that the tokens at hand cannot exceed. -/
def bounded (p : Nat → Reader α) : Reader α := fun ts =>
  p (ts.length + 1) ts

/-- Read nothing, at the end of the tokens. -/
def ending : Reader Unit
  | [] => .done () [] []
  | t :: ts => .stuck (t :: ts) [.endOfDeclaration]

/-- Read a token of one kind. -/
def kind (k : Token.Kind) : Reader Token :=
  leaf (.kind k) fun t => if t.kind = k then some t else none

/-- Read a token of one kind that stands for a given value. -/
def keyword (k : Token.Kind) (a : α) : Reader α :=
  leaf (.kind k) fun t => if t.kind = k then some a else none

end Reader

end AccessPolicy
