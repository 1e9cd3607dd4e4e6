/-!
# Token kinds

The 33 kinds of token, in the order in which the kinds a reader expected are listed.
`Token.Kind.guard` is the keyword that opens the condition of a policy.
-/

namespace AccessPolicy

/-- The kind of a token. -/
inductive Token.Kind where
  | role
  | user
  | resource
  | allow
  | deny
  | guard
  | on
  | and
  | or
  | can
  | path
  | action
  | ge
  | le
  | eq
  | ne
  | gt
  | lt
  | plus
  | minus
  | times
  | wildcard
  | divide
  | lbrace
  | rbrace
  | lparen
  | rparen
  | colon
  | dot
  | comma
  | identifier
  | number
  | string
deriving DecidableEq, Repr

namespace Token.Kind

/-- The name shown for a kind. -/
def name : Kind → String
  | role => "ROLE"
  | user => "USER"
  | resource => "RESOURCE"
  | allow => "ALLOW"
  | deny => "DENY"
  | guard => "IF"
  | on => "ON"
  | and => "AND"
  | or => "OR"
  | can => "CAN"
  | path => "PATH"
  | action => "ACTION"
  | ge => "GE"
  | le => "LE"
  | eq => "EQ"
  | ne => "NE"
  | gt => "GT"
  | lt => "LT"
  | plus => "PLUS"
  | minus => "MINUS"
  | times => "TIMES"
  | wildcard => "WILDCARD"
  | divide => "DIVIDE"
  | lbrace => "LBRACE"
  | rbrace => "RBRACE"
  | lparen => "LPAREN"
  | rparen => "RPAREN"
  | colon => "COLON"
  | dot => "DOT"
  | comma => "COMMA"
  | identifier => "IDENTIFIER"
  | number => "NUMBER"
  | string => "STRING"

/-- Every kind, in order. -/
def all : List Kind :=
  [role, user, resource, allow, deny, guard, on, and, or, can, path, action, ge, le, eq, ne, gt,
    lt, plus, minus, times, wildcard, divide, lbrace, rbrace, lparen, rparen, colon, dot, comma,
    identifier, number, string]

/-- The kind with a given name. -/
def ofName? (s : String) : Option Kind :=
  all.find? fun k => k.name = s

/-- The place of a kind in `all`. -/
def rank (k : Kind) : Nat :=
  k.ctorIdx

/-- The keywords that open a declaration. They stand nowhere else in a program. -/
def startsDeclaration : Kind → Bool
  | role | user | resource | allow | deny => true
  | _ => false

/-- The kinds whose tokens differ by their value. -/
def isLiteral : Kind → Bool
  | identifier | number | string => true
  | _ => false

end Token.Kind

end AccessPolicy
