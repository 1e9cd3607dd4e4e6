import AccessPolicy.Grammar.Expression

/-!
# The grammar of declarations

Four forms of declaration, each opened by a keyword of its own. The actions of a role or a
policy are `*` alone or names between commas, with no comma at the end.
-/

namespace AccessPolicy.Reader

/-- Read the name of an action. -/
def actionName : Reader ActionName :=
  ((fun (s, line) => ActionName.bare s line) <$> identifier).or
    ((fun (s, line) => ActionName.quoted s line) <$> string)

/-- Read one or more names between commas. -/
def actionNames : Reader ActionSet := do
  let first ← actionName
  let more ← many do
    let _ ← kind .comma
    actionName
  return .named first more

/-- Read the actions of a role or a policy. -/
def actions : Reader ActionSet :=
  ((fun t => ActionSet.wildcard t.line) <$> kind .wildcard).or actionNames

/-- Read a role : its keyword, its name and what it can do. -/
def role : Reader Role := do
  let opening ← kind .role
  let (name, _) ← identifier
  let _ ← kind .lbrace
  let _ ← kind .can
  let _ ← kind .colon
  let set ← actions
  let _ ← kind .rbrace
  return ⟨name, set, opening.line⟩

/-- Read a user : its keyword, its name and its role. -/
def user : Reader User := do
  let opening ← kind .user
  let (name, _) ← identifier
  let _ ← kind .lbrace
  let _ ← identifierNamed "role"
  let _ ← kind .colon
  let (roleName, _) ← identifier
  let _ ← kind .rbrace
  return ⟨name, roleName, opening.line⟩

/-- Read a resource : its keyword, its name and its path. -/
def resource : Reader Resource := do
  let opening ← kind .resource
  let (name, _) ← identifier
  let _ ← kind .lbrace
  let _ ← kind .path
  let _ ← kind .colon
  let (path, _) ← string
  let _ ← kind .rbrace
  return ⟨name, path, opening.line⟩

/-- Read the keyword of an effect, with its line. -/
def effect : Reader (Effect × Nat) :=
  ((fun t => (Effect.allow, t.line)) <$> kind .allow).or
    ((fun t => (Effect.deny, t.line)) <$> kind .deny)

/-- Read the condition of a policy. -/
def guard : Reader Condition := do
  let _ ← kind .guard
  parenthesized condition

/-- Read a policy : its effect, its actions, its resource and perhaps its condition. -/
def policy : Reader Policy := do
  let (e, line) ← effect
  let _ ← kind .action
  let _ ← kind .colon
  let set ← actions
  let _ ← kind .on
  let _ ← identifierNamed "resource"
  let _ ← kind .colon
  let (name, _) ← identifier
  let c ← optional guard
  return ⟨e, set, name, c, line⟩

/-- Read a declaration. -/
def declaration : Reader Declaration :=
  (Declaration.role <$> role).or ((Declaration.user <$> user).or
    ((Declaration.resource <$> resource).or (Declaration.policy <$> policy)))

/-- Read a declaration and nothing after it. -/
def wholeDeclaration : Reader Declaration := do
  let d ← declaration
  let _ ← ending
  return d

end AccessPolicy.Reader
