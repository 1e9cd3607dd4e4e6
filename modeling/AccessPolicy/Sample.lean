import AccessPolicy.Report

/-!
# Samples

Policy texts to try things on. Those whose names start with a zero are free of faults, and each of
the others shows one family of diagnostics.
-/

namespace AccessPolicy.Sample

/-- Roles with a wildcard and with names. -/
def roles : String :=
  String.join ["ROLE Admin \x7bcan: *\x7d\n",
    "ROLE Developer \x7bcan: read, write\x7d\n",
    "ROLE Auditor \x7bcan: \"read-logs\"\x7d\n"]

/-- Users, their roles and resources. -/
def usersAndResources : String :=
  String.join ["ROLE Admin \x7bcan: *\x7d\n",
    "ROLE Developer \x7bcan: read, write\x7d\n",
    "\n",
    "USER JaneDoe \x7brole: Developer\x7d\n",
    "USER Root \x7brole: Admin\x7d\n",
    "\n",
    "RESOURCE DB_Finance \x7bpath: \"/data/financial\"\x7d\n",
    "RESOURCE Logs \x7bpath: \"/var/log\"\x7d\n"]

/-- Policies with and without conditions. -/
def policies : String :=
  String.join ["ROLE Developer \x7bcan: read, write\x7d\n",
    "RESOURCE DB_Finance \x7bpath: \"/data/financial\"\x7d\n",
    "\n",
    "ALLOW action: read, write ON resource: DB_Finance\n",
    "IF (time.hour > 9 AND time.hour < 17)\n",
    "\n",
    "DENY action: * ON resource: DB_Finance\n",
    "IF (user.role == Intern OR time.hour * 2 + 1 >= -3)\n",
    "\n",
    "ALLOW action: read ON resource: DB_Finance\n"]

/-- All kinds of declarations together. -/
def fullProgram : String :=
  String.join ["ROLE Admin \x7bcan: *\x7d\n",
    "ROLE Developer \x7bcan: read, write\x7d\n",
    "USER JaneDoe \x7brole: Developer\x7d\n",
    "USER Root \x7brole: Admin\x7d\n",
    "RESOURCE DB_Finance \x7bpath: \"/data/financial\"\x7d\n",
    "RESOURCE Repo \x7bpath: \"/src\"\x7d\n",
    "ALLOW action: read, write ON resource: DB_Finance\n",
    "IF (time.hour > 9 AND time.hour < 17)\n",
    "ALLOW action: * ON resource: Repo IF (user.role == Admin)\n",
    "DENY action: write ON resource: Repo\n",
    "IF (resource.path == \"/src/secrets\" OR time.day == 7)\n"]

/-- Names declared twice. -/
def duplicateDeclarations : String :=
  String.join ["ROLE Admin \x7bcan: *\x7d\n",
    "ROLE Admin \x7bcan: *\x7d\n",
    "USER Bob \x7brole: Admin\x7d\n",
    "USER Bob \x7brole: Admin\x7d\n"]

/-- References to names that are not declared. -/
def undefinedReferences : String :=
  String.join ["ROLE Developer \x7bcan: read\x7d\n",
    "USER JaneDoe \x7brole: Developr\x7d\n",
    "RESOURCE DB_Finance \x7bpath: \"/data/financial\"\x7d\n",
    "ALLOW action: read ON resource: Missing\n"]

/-- Conditions that mix numbers and names. -/
def typeErrors : String :=
  String.join ["RESOURCE DB \x7bpath: \"/db\"\x7d\n",
    "ALLOW action: read ON resource: DB IF (time.hour > \"late\")\n",
    "ALLOW action: read ON resource: DB IF (weather.rain == 1)\n",
    "ALLOW action: read ON resource: DB IF (time.second == 1)\n",
    "ALLOW action: read ON resource: DB IF (user.role + 1 == 2)\n"]

/-- Declarations that cannot be parsed. -/
def syntaxErrors : String :=
  String.join ["ROLE Admin \x7bcan: *\x7d\n",
    "ROLE Broken \x7bcan: \x7d\n",
    "USER Bob \x7brole: Admin\x7d\n",
    "RESOURCE Db \x7bpath: /data\x7d\n",
    "ALLOW action: read ON resource: Db\n"]

/-- Characters that cannot be read. -/
def lexicalErrors : String :=
  String.join ["ROLE Admin \x7bcan: *\x7d @\n",
    "RESOURCE Db \x7bpath: \"/data\x7d\n",
    "USER Bob \x7brole: Admin\x7d\n"]

/-- The samples with their names, in the order of the names. -/
def all : List (String × String) :=
  [("000-roles.spl", roles),
    ("010-users-resources.spl", usersAndResources),
    ("020-policies.spl", policies),
    ("030-full-program.spl", fullProgram),
    ("100-duplicate-declarations.spl", duplicateDeclarations),
    ("110-undefined-references.spl", undefinedReferences),
    ("120-type-errors.spl", typeErrors),
    ("130-syntax-errors.spl", syntaxErrors),
    ("140-lexical-errors.spl", lexicalErrors)]

/-- The names of all samples. -/
def names : List String :=
  all.map Prod.fst

/-- The names of the samples without faults. -/
def validNames : List String :=
  names.filter fun name => name.toList.head? = some '0'

/-- The text of a sample. -/
def text (name : String) : Except ReportError String :=
  match all.lookup name with
  | some s => .ok s
  | none => .error (.unknownSample name)

/-- The tokens of a sample. -/
def tokens (name : String) : Except ReportError (List Token) :=
  (text name).map fun s => (tokenize s).tokens

/-- A report on a sample. What is asked for is looked at before the name. -/
def report (name asked : String) : Except ReportError String := do
  let r ← Report.ofText asked
  let s ← text name
  r.write s

end AccessPolicy.Sample
