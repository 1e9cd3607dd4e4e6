import AccessPolicy.Document.Basic
import AccessPolicy.Integer
import AccessPolicy.Numeral
import AccessPolicy.Text.Hex

/-!
# What plain YAML scalars mean

A scalar without quotes is null, a truth value, a number or else a string, by its spelling
alone (`Yaml.resolve?`). Integers may have a sign and may be written in base sixteen, eight or
two behind `0x`, `0o` or `0b`; decimal digits behind a zero are no number. An integer that needs
more than 64 bits but not more than 128 has no place in a document. Other numbers are those that
round to a float; the spellings of infinity and of not-a-number have no place in a document
either and become null.
-/

namespace AccessPolicy.Yaml

/-- Whether a spelling means null. -/
def isNull (cs : List Char) : Bool :=
  cs = [] || cs = ['~'] || cs = "null".toList || cs = "Null".toList || cs = "NULL".toList

/-- The truth value of a spelling. -/
def bool? (cs : List Char) : Option Bool :=
  if cs = "true".toList || cs = "True".toList || cs = "TRUE".toList then some true
  else if cs = "false".toList || cs = "False".toList || cs = "FALSE".toList then some false
  else none

/-- A spelling without the sign in front, and whether the sign is a minus. -/
def splitSign : List Char → Bool × List Char
  | '-' :: rest => (true, rest)
  | '+' :: rest => (false, rest)
  | cs => (false, cs)

/-- Whether a spelling is a zero followed by more decimal digits, perhaps with a sign. -/
def isZeroPadded (cs : List Char) : Bool :=
  match (splitSign cs).2 with
  | '0' :: d :: ds => (d :: ds).all Char.isDigit
  | _ => false

/-- The number that digits of a base up to sixteen denote. -/
def radixNumber? (base : Nat) (cs : List Char) : Option Nat :=
  if cs = [] then none
  else
    cs.foldl (fun n? c => n?.bind fun n => (hexValue? c).bind fun v =>
      if v < base then some (n * base + v) else none) (some 0)

/-- The number that an unsigned integer denotes, of any size. -/
def magnitude? : List Char → Option Nat
  | '0' :: 'x' :: cs => radixNumber? 16 cs
  | '0' :: 'o' :: cs => radixNumber? 8 cs
  | '0' :: 'b' :: cs => radixNumber? 2 cs
  | cs => radixNumber? 10 cs

/-- The integer that a spelling denotes, if it fits 128 bits, signed or unsigned. -/
def integer? (cs : List Char) : Option Int :=
  let (negative, unsigned) := splitSign cs
  if isZeroPadded cs then none
  else
    match magnitude? unsigned with
    | none => none
    | some n =>
      if negative then if n ≤ maxInt128 + 1 then some (-(n : Int)) else none
      else if n ≤ maxUInt128 then some n
      else none

/-- The document of an integer, which must fit 64 bits. -/
def integerDocument? (n : Int) : Option Document :=
  if -(maxInt64 + 1 : Int) ≤ n ∧ n ≤ maxUInt64 then some (.int n) else none

/-- Whether a spelling is a number that rounds to a float. -/
def isFloat (cs : List Char) : Bool :=
  match Numeral.read? (splitSign cs).2 with
  | some n => (n.whole ≠ [] || n.fraction.getD [] ≠ []) && n.isFinite
  | none => false

/-- Whether a spelling is that of infinity or of not-a-number. -/
def isNonFinite (cs : List Char) : Bool :=
  let unsigned := (splitSign cs).2
  unsigned = ".inf".toList || unsigned = ".Inf".toList || unsigned = ".INF".toList ||
    cs = ".nan".toList || cs = ".NaN".toList || cs = ".NAN".toList

/-- The value of a spelling of a number other than an integer. -/
def floatDocument? (cs : List Char) : Option Document :=
  if isNonFinite cs then some .null
  else if isFloat cs then some (.decimal (String.ofList cs))
  else none

/-- The value of a plain scalar, if documents have a place for it. -/
def resolve? (cs : List Char) : Option Document :=
  if isNull cs then some .null
  else
    match bool? cs, integer? cs with
    | some b, _ => some (.bool b)
    | none, some n => integerDocument? n
    | none, none =>
      if isZeroPadded cs then some (.string (String.ofList cs))
      else (floatDocument? cs).or (some (.string (String.ofList cs)))

/-- Whether a plain scalar is read as the string of its characters, by this and by any reader
that takes digits behind a zero for a number. -/
def readsAsString (cs : List Char) : Bool :=
  match resolve? cs with
  | some (.string _) => !isZeroPadded cs
  | _ => false

end AccessPolicy.Yaml
