import AccessPolicy.Compilation
import AccessPolicy.Program.Encode
import AccessPolicy.Program.Outline

/-!
# Reports

A report shows the result of one stage in one format, and is asked for by a text such as
`ast-json`. Not every stage has every format.
-/

namespace AccessPolicy

namespace Report

/-- The result to show. -/
inductive Stage where
  | tokens
  | program
  | diagnostics
deriving DecidableEq, Repr

/-- The word for a stage. -/
def Stage.word : Stage → String
  | tokens => "token"
  | program => "ast"
  | diagnostics => "diagnostics"

/-- The stage with a given word. -/
def Stage.ofWord? : String → Option Stage
  | "token" => some tokens
  | "ast" => some program
  | "diagnostics" => some diagnostics
  | _ => none

/-- How to show it. -/
inductive Format where
  | simple
  | json
  | yaml
  | outline
deriving DecidableEq, Repr

/-- The word for a format. -/
def Format.word : Format → String
  | simple => "simple"
  | json => "json"
  | yaml => "yaml"
  | outline => "treeviz"

/-- The format with a given word. -/
def Format.ofWord? : String → Option Format
  | "simple" => some simple
  | "json" => some json
  | "yaml" => some yaml
  | "treeviz" => some outline
  | _ => none

end Report

/-- A stage and a format. -/
structure Report where
  stage : Report.Stage
  format : Report.Format
deriving DecidableEq, Repr

/-- Why there is no report. -/
inductive ReportError where
  | noDash (asked : String)
  | unknownStage (word : String)
  | unknownFormat (word : String)
  | unavailable (r : Report)
  | unsupported (r : Report)
  | unparsed (e : SyntaxError)
  | unknownSample (name : String)
deriving DecidableEq, Repr

namespace Report

/-- The text that asks for a report. -/
def text (r : Report) : String :=
  r.stage.word ++ "-" ++ r.format.word

/-- The reports there are, in order. -/
def available : List Report :=
  [⟨.tokens, .simple⟩, ⟨.tokens, .json⟩, ⟨.program, .json⟩, ⟨.program, .yaml⟩,
    ⟨.program, .outline⟩, ⟨.diagnostics, .simple⟩, ⟨.diagnostics, .json⟩]

end Report

/-- The error in words. -/
def ReportError.message : ReportError → String
  | noDash asked => "Invalid format: " ++ asked
  | unknownStage word => "Invalid stage: " ++ word
  | unknownFormat word => "Invalid format type: " ++ word
  | unavailable r =>
    "Invalid format type: Format '" ++ r.format.word ++ "' not supported for " ++ r.stage.word ++
      " stage"
  | unsupported r => "Invalid format type: " ++ r.text ++ " is not supported"
  | unparsed e => "Failed to parse source: " ++ e.message
  | unknownSample name => "Sample not found: " ++ name

namespace Report

/-- The report that a text asks for. The first dash divides the stage from the format. -/
def ofText (asked : String) : Except ReportError Report :=
  match asked.toList.dropWhile (· ≠ '-') with
  | [] => .error (.noDash asked)
  | _ :: rest =>
    let stageWord := String.ofList (asked.toList.takeWhile (· ≠ '-'))
    let formatWord := String.ofList rest
    match Stage.ofWord? stageWord with
    | none => .error (.unknownStage stageWord)
    | some stage =>
      match Format.ofWord? formatWord with
      | none => .error (.unknownFormat formatWord)
      | some format =>
        if available.contains ⟨stage, format⟩ then .ok ⟨stage, format⟩
        else .error (.unavailable ⟨stage, format⟩)

/-- A token as a document. -/
def tokenDocument (t : Token) : Document :=
  .object [("kind", .string t.kind.name),
    ("value", match t.value with
      | .number n => .int n
      | .text s => .string s),
    ("line", .int t.line), ("column", .int t.column)]

/-- A diagnostic as a document. -/
def diagnosticDocument (d : Diagnostic) : Document :=
  .object [("kind", .string d.kind.name), ("message", .string d.message), ("line", .int d.line),
    ("column", .int d.column)]

/-- Some texts, each on a line. -/
def onLines (texts : List String) : String :=
  String.join (texts.map (· ++ "\n"))

/-- The report on a text. -/
def write (r : Report) (source : String) : Except ReportError String :=
  match r.stage with
  | .tokens =>
    let tokens := (tokenize source).tokens
    match r.format with
    | .simple => .ok (onLines (tokens.map Token.display))
    | .json => .ok (Json.pretty (.list (tokens.map tokenDocument)))
    | .yaml | .outline => .error (.unsupported r)
  | .program =>
    match Program.ofSource source with
    | .error e => .error (.unparsed e)
    | .ok p =>
      match r.format with
      | .simple => .error (.unsupported r)
      | .json => .ok p.toJson
      | .yaml => .ok p.toYaml
      | .outline => .ok p.outline
  | .diagnostics =>
    let diagnostics := (compile source Options.standard).diagnostics
    match r.format with
    | .simple => .ok (onLines (diagnostics.map Diagnostic.text))
    | .json => .ok (Json.pretty (.list (diagnostics.map diagnosticDocument)))
    | .yaml | .outline => .error (.unsupported r)

end Report

end AccessPolicy
