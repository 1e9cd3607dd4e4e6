/-!
# Written numbers

A `Numeral` is an unsigned decimal number as written : digits, perhaps a point and more
digits, perhaps an exponent. The formats that use it differ in which parts may be left
out, and in how they round it to a binary64 float. `Numeral.isFinite` is whether that is
possible if it is rounded once and to the nearest : a number is too great if it is at least
halfway from the greatest float, `2 ^ 1024 - 2 ^ 971`, to the next power of two.
-/

namespace AccessPolicy

/-- The parts of an unsigned decimal number. -/
structure Numeral where
  /-- The digits before the point. -/
  whole : List Char
  /-- The digits after the point, if there is a point. -/
  fraction : Option (List Char)
  /-- The exponent, if there is one. -/
  exponent : Option Int
deriving DecidableEq, Repr

namespace Numeral

/-- The digits at the front of a text, if any, and what follows them. -/
def digits? (cs : List Char) : Option (List Char × List Char) :=
  if cs.takeWhile Char.isDigit = [] then none
  else some (cs.takeWhile Char.isDigit, cs.dropWhile Char.isDigit)

/-- An exponent without its mark : digits with an optional sign, to the end of the text. -/
def exponent? (cs : List Char) : Option Int :=
  match cs with
  | '-' :: rest => (digits? rest).bind fun (ds, more) =>
    if more = [] then some (-(Nat.ofDigitChars 10 ds 0 : Int)) else none
  | '+' :: rest => (digits? rest).bind fun (ds, more) =>
    if more = [] then some (Nat.ofDigitChars 10 ds 0 : Int) else none
  | rest => (digits? rest).bind fun (ds, more) =>
    if more = [] then some (Nat.ofDigitChars 10 ds 0 : Int) else none

/-- What follows the digits of a number : nothing, or an exponent. -/
def tail? (whole : List Char) (fraction : Option (List Char)) (cs : List Char) :
    Option Numeral :=
  match cs with
  | [] => some ⟨whole, fraction, none⟩
  | c :: rest =>
    if c = 'e' || c = 'E' then (exponent? rest).map fun e => ⟨whole, fraction, some e⟩
    else none

/-- The parts of a text that is a number from end to end. Any digits may be missing but
those of the exponent. -/
def read? (cs : List Char) : Option Numeral :=
  let whole := cs.takeWhile Char.isDigit
  match cs.dropWhile Char.isDigit with
  | '.' :: rest =>
    tail? whole (some (rest.takeWhile Char.isDigit)) (rest.dropWhile Char.isDigit)
  | rest => tail? whole none rest

/-- All digits read as one integer. -/
def mantissa (n : Numeral) : Nat :=
  Nat.ofDigitChars 10 (n.whole ++ n.fraction.getD []) 0

/-- The power of ten that the mantissa is to be multiplied by. -/
def scale (n : Numeral) : Int :=
  n.exponent.getD 0 - (n.fraction.getD []).length

/-- The least number that rounds past the greatest binary64 float. -/
def floatLimit : Nat :=
  Nat.pow 2 1024 - Nat.pow 2 970

/-- Whether `m * 10 ^ e` is less than `floatLimit`. Powers of ten that decide the
question by their size alone are not computed. -/
def belowLimit (m : Nat) (e : Int) : Bool :=
  if m = 0 then true
  else
    match e with
    | .ofNat k => k ≤ 400 && m * Nat.pow 10 k < floatLimit
    | .negSucc k => m.log2 ≤ k || m < floatLimit * Nat.pow 10 (k + 1)

/-- Whether the number rounds to a binary64 float. -/
def isFinite (n : Numeral) : Bool :=
  belowLimit n.mantissa n.scale

end Numeral

end AccessPolicy
