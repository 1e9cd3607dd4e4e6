import AccessPolicy.Options.Reader
import AccessPolicy.Program.Decode
import AccessPolicy.Proofs.Grammar.SyntaxError
import AccessPolicy.Proofs.Program.RoundTrip
import AccessPolicy.Proofs.Source.Spelling
import AccessPolicy.Sample
import AccessPolicy.Proofs.Source.Normal
import AccessPolicy.Proofs.Source.Printing
import AccessPolicy.Proofs.Program.Lines
import AccessPolicy.Proofs.Source.Reparse
import AccessPolicy.Proofs.Analysis.Typing
import AccessPolicy.Proofs.Source.Offset
import AccessPolicy.Proofs.Source.Readings
import AccessPolicy.Proofs.Source.Restart
import AccessPolicy.Proofs.Source.Patterns
import AccessPolicy.Proofs.Source.Coverage
import AccessPolicy.Proofs.Source.Wildcard
import AccessPolicy.Proofs.Grammar.Recovery
import AccessPolicy.Proofs.Grammar.Ranges
import AccessPolicy.Proofs.Text.Lines
import AccessPolicy.Proofs.Text.Hex
import AccessPolicy.Proofs.Source.Places
import AccessPolicy.Proofs.Compilation.Stages
import AccessPolicy.Proofs.Compilation.Caret
import AccessPolicy.Proofs.Document.Json.Numbers
import AccessPolicy.Proofs.Document.Json.RoundTrip
import AccessPolicy.Proofs.Program.JsonText
import AccessPolicy.Proofs.Program.YamlText
import AccessPolicy.Proofs.Analysis.Suggestion
import AccessPolicy.Proofs.Analysis.Declared
import AccessPolicy.Proofs.Analysis.Order
import AccessPolicy.Proofs.Analysis.Tables
import AccessPolicy.Proofs.Analysis.References
import AccessPolicy.Proofs.Analysis.Nearest
import AccessPolicy.Proofs.Document.Canonical
import AccessPolicy.Proofs.Document.Objects
import AccessPolicy.Proofs.Program.Traversal
import AccessPolicy.Proofs.Program.Gist
import AccessPolicy.Proofs.Program.Fault
import AccessPolicy.Proofs.Program.Decoding
import AccessPolicy.Proofs.Program.Blame
import AccessPolicy.Proofs.Program.Laxity
import AccessPolicy.Proofs.Source.Respelling
import AccessPolicy.Proofs.Source.Rendering
import AccessPolicy.Proofs.Program.Tree
import AccessPolicy.Proofs.Grammar.Spans
import AccessPolicy.Proofs.Source.Order
import AccessPolicy.Proofs.Program.Strings
import AccessPolicy.Proofs.Program.Outline
import AccessPolicy.Proofs.Source.Suffix
import AccessPolicy.Proofs.Source.LineByLine
import AccessPolicy.Proofs.Source.Lookback
import AccessPolicy.Proofs.Compilation.Order
import AccessPolicy.Proofs.Analysis.Registry
import AccessPolicy.Proofs.Source.Digits
