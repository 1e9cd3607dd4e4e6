import AccessPolicy.Analysis.Analyzer

/-!
# Options

What a user can choose about compiling : whether to go on after a syntax error, whether to suggest
names for misspelled ones, and which attributes to know besides the built-in ones. A given attribute
takes the place of a built-in one of the same name, and of two given ones the last holds.
-/

namespace AccessPolicy

/-- An attribute that a user adds. -/
structure AttributeSpec where
  object : String
  name : String
  category : Category
deriving DecidableEq, Repr

/-- The choices of a user. -/
structure Options where
  /-- Whether to go on after a syntax error. -/
  recover : Bool
  /-- Whether to suggest names. -/
  suggestions : Bool
  /-- The attributes to add. -/
  attributes : List AttributeSpec
deriving DecidableEq, Repr

namespace Options

/-- The options of a user who chooses nothing. -/
def standard : Options :=
  ⟨true, true, []⟩

/-- The attributes known under the options. -/
def registry (o : Options) : Registry :=
  Registry.builtin.insertAll (o.attributes.map fun a => (a.object, a.name, a.category))

/-- The analyzer for the options. -/
def analyzer (o : Options) : Analyzer :=
  ⟨o.registry, o.suggestions⟩

end Options

end AccessPolicy
