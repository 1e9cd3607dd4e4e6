/-!
# Hexadecimal digits

Digits are read in either case, and written in the case that a format asks for by giving the
letter its digits above nine start from.
-/

namespace AccessPolicy

/-- The value of a hexadecimal digit. -/
def hexValue? (c : Char) : Option Nat :=
  if c.isDigit then some (c.toNat - '0'.toNat)
  else if 'a' ≤ c ∧ c ≤ 'f' then some (c.toNat - 'a'.toNat + 10)
  else if 'A' ≤ c ∧ c ≤ 'F' then some (c.toNat - 'A'.toNat + 10)
  else none

/-- The value of some hexadecimal digits, none counting as zero. -/
def hexNumber? (cs : List Char) : Option Nat :=
  cs.foldl (fun n? c => n?.bind fun n => (hexValue? c).map (n * 16 + ·)) (some 0)

/-- The digit of a number below 16, `ten` being the digit of ten. -/
def hexDigit (ten : Char) (n : Nat) : Char :=
  if n < 10 then Char.ofNat ('0'.toNat + n) else Char.ofNat (ten.toNat + (n - 10))

/-- The last `width` digits of a number. -/
def hexDigits (ten : Char) : (width n : Nat) → List Char
  | 0, _ => []
  | width + 1, n => hexDigits ten width (n / 16) ++ [hexDigit ten (n % 16)]

end AccessPolicy
