import AccessPolicy.Token.Kind

/-!
# Keywords

A word is a keyword or an identifier. The structural keywords are spelled in capitals
only. The attribute keywords `CAN`, `PATH` and `ACTION` are read in any mix of ASCII case
and valued in capitals. Every other word is an identifier in its own spelling.
-/

namespace AccessPolicy.Token

/-- The structural keywords. -/
def structuralKeyword? : String → Option Kind
  | "ROLE" => some .role
  | "USER" => some .user
  | "RESOURCE" => some .resource
  | "ALLOW" => some .allow
  | "DENY" => some .deny
  | "IF" => some .guard
  | "ON" => some .on
  | "AND" => some .and
  | "OR" => some .or
  | _ => none

/-- The attribute keywords, by their spelling in capitals. -/
def attributeKeyword? : String → Option Kind
  | "CAN" => some .can
  | "PATH" => some .path
  | "ACTION" => some .action
  | _ => none

/-- A text with its ASCII letters in capitals. -/
def capitals (word : String) : String :=
  String.ofList (word.toList.map Char.toUpper)

/-- A text with its ASCII letters in lower case. -/
def smallLetters (word : String) : String :=
  String.ofList (word.toList.map Char.toLower)

/-- The kind of a word and the value of its token. -/
def classify (word : String) : Kind × String :=
  match structuralKeyword? word with
  | some k => (k, word)
  | none =>
    match attributeKeyword? (capitals word) with
    | some k => (k, capitals word)
    | none => (.identifier, word)

end AccessPolicy.Token
