import AccessPolicy.Grammar.Parse
import AccessPolicy.Options.Basic

/-!
# Compiling

Compiling a text runs all stages on it. None stops the next : characters that cannot be read are
passed over, and what can be parsed is analysed. Diagnostics come stage by stage. Without recovery
the first syntax error leaves an empty program.
-/

namespace AccessPolicy

/-- What compiling a text gives. -/
structure Compilation where
  /-- The tokens of the text. -/
  tokens : List Token
  /-- The declarations that could be read. -/
  program : Program
  /-- What every stage had to say, in order. -/
  diagnostics : List Diagnostic
deriving DecidableEq, Repr

/-- Whether no stage had anything to say. -/
def Compilation.isOk (c : Compilation) : Bool :=
  c.diagnostics.isEmpty

/-- The program of some tokens and its syntax errors, all of them or only the first. -/
def Program.ofTokens (recover : Bool) (tokens : List Token) : Recovered :=
  if recover then Program.recover tokens
  else
    match Program.parse tokens with
    | .ok p => ⟨p, []⟩
    | .error e => ⟨Program.ofDeclarations [], [e]⟩

/-- Run all stages on a text. -/
def compile (source : String) (o : Options) : Compilation :=
  let t := tokenize source
  let r := Program.ofTokens o.recover t.tokens
  let a := o.analyzer.analyze r.program
  ⟨t.tokens, r.program,
    t.diagnostics ++ r.errors.map SyntaxError.diagnostic ++ a.diagnostics⟩

end AccessPolicy
