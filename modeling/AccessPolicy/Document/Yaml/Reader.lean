import AccessPolicy.Document.Yaml.Node
import AccessPolicy.Document.Yaml.Stream

/-!
# Reading YAML

`Yaml.read` reads a text that holds at most one YAML document. The text is cut into tokens, the
tokens are read as a tree, aliases give way to what they stand for, and scalars are given their
meaning.
-/

namespace AccessPolicy.Yaml

/-- The characters of a text as they are read, all of which must be allowed. -/
def readable? (text : String) : Option (List Char) :=
  if text.toList.all isAllowed then some (unifyBreaks text.toList) else none

/-- The node of a whole text. A text without content has an absent one. -/
def readNode (text : String) : Option Node := do
  let cs ← readable? text
  let ts ← tokens? cs
  let t ← Tree.ofTokens? (maxDepth + 1) ts
  Node.ofTree? maxDepth t

/-- The document that a whole text denotes. -/
def read (text : String) : Option Document :=
  (readNode text).bind Node.document?

end AccessPolicy.Yaml
