import AccessPolicy.Document.Basic
import AccessPolicy.Integer
import AccessPolicy.Numeral

/-!
# JSON numbers

A JSON number without point and exponent that fits 64 bits, signed or unsigned, is an integer;
`-0` is not. All other numbers are floats, and a number is refused if its float is infinite.

The float is that of a product (`Json.isFinite`) : the leading digits, as many as fit 64 bits,
times a power of ten. Both factors and the product are rounded to the nearest float, so close to
the greatest float the outcome can differ from that of rounding once.
-/

namespace AccessPolicy.Json

/-! ## Floats -/

/-- An integer rounded to 53 binary digits, to the nearest and a tie to the even one. -/
def roundBinary (n : Nat) : Nat :=
  let unit := Nat.pow 2 (n.log2 - 52)
  let kept := n / unit
  let cut := n % unit
  if unit < 2 * cut || (2 * cut = unit && kept % 2 = 1) then (kept + 1) * unit else kept * unit

/-- The number that `n` becomes with more digits behind it, as long as it fits 64 bits, and how many
of the digits that takes. -/
def appendDigits (n : Nat) : List Char → Nat × Nat
  | [] => (n, 0)
  | d :: ds =>
    let next := n * 10 + (d.toNat - '0'.toNat)
    if next ≤ maxUInt64 then
      let (m, taken) := appendDigits next ds
      (m, taken + 1)
    else (n, 0)

/-- The leading digits of a number that fit 64 bits, and the power of ten they are multiplied by.
Digits that do not fit count only by their places before the point. -/
def leadingDigits (n : Numeral) : Nat × Int :=
  let (whole, taken) := appendDigits 0 n.whole
  let (digits, places) := appendDigits whole (n.fraction.getD [])
  (digits, n.exponent.getD 0 + (n.whole.length - taken : Nat) - places)

/-- The greatest power of ten that is a float. -/
def maxPower : Nat :=
  308

/-- Whether the float of a number is finite. -/
def isFinite (n : Numeral) : Bool :=
  match leadingDigits n with
  | (0, _) => true
  | (_, .negSucc _) => true
  | (digits, .ofNat power) =>
    power ≤ maxPower &&
      roundBinary digits * roundBinary (Nat.pow 10 power) < Numeral.floatLimit

/-! ## Numbers -/

/-- The characters that numbers are made of. -/
def isNumberPart (c : Char) : Bool :=
  c.isDigit || c = '-' || c = '+' || c = '.' || c = 'e' || c = 'E'

/-- Whether the parts of a number are those JSON asks for : digits before the point,
without a leading zero, and digits after it. -/
def isStrict (n : Numeral) : Bool :=
  (n.whole ≠ [] && (n.whole.head? ≠ some '0' || n.whole = ['0'])) && n.fraction ≠ some []

/-- The number a text denotes. -/
def number? (written : List Char) : Option Document :=
  let (negative, unsigned) :=
    match written with
    | '-' :: rest => (true, rest)
    | _ => (false, written)
  match Numeral.read? unsigned with
  | none => none
  | some n =>
    if !isStrict n || !isFinite n then none
    else
      let other : Document := .decimal (String.ofList written)
      if n.fraction ≠ none || n.exponent ≠ none then some other
      else if negative then
        if n.mantissa = 0 || maxInt64 + 1 < n.mantissa then some other
        else some (.int (-(n.mantissa : Int)))
      else if n.mantissa ≤ maxUInt64 then some (.int n.mantissa)
      else some other

end AccessPolicy.Json
