import AccessPolicy.Text.Hex
import Mathlib.Data.Nat.Basic

/-!
# Hexadecimal digits are read back

The last digits of a number, in either case of letters, denote what the number leaves when it is
divided by a power of 16 (`hexNumber?_hexDigits`).
-/

namespace AccessPolicy

variable {ten : Char}

theorem hexValue?_hexDigit (h : ten = 'a' ∨ ten = 'A') :
    ∀ n < 16, hexValue? (hexDigit ten n) = some n := by
  rcases h with rfl | rfl <;> decide

theorem hexNumber?_append_singleton (cs : List Char) (c : Char) :
    hexNumber? (cs ++ [c]) =
      (hexNumber? cs).bind fun n => (hexValue? c).map (n * 16 + ·) := by
  simp [hexNumber?, List.foldl_append]

/-- The last digits of a number are those of what is left of it above a power of 16. -/
theorem hexNumber?_hexDigits (h : ten = 'a' ∨ ten = 'A') (width n : Nat) :
    hexNumber? (hexDigits ten width n) = some (n % Nat.pow 16 width) := by
  induction width generalizing n with
  | zero => simp [hexDigits, hexNumber?, Nat.mod_one]
  | succ width ih =>
    have hpow : Nat.pow 16 (width + 1) = 16 * Nat.pow 16 width := Nat.mul_comm _ _
    have hsplit : n / 16 % Nat.pow 16 width * 16 + n % 16 = n % Nat.pow 16 (width + 1) := by
      rw [hpow, Nat.mod_mul]
      omega
    rw [hexDigits, hexNumber?_append_singleton, ih,
      hexValue?_hexDigit h (n % 16) (Nat.mod_lt _ (by omega))]
    exact congrArg some hsplit

@[simp] theorem length_hexDigits (ten : Char) (width n : Nat) :
    (hexDigits ten width n).length = width := by
  induction width generalizing n with
  | zero => rfl
  | succ width ih => rw [hexDigits, List.length_append, ih, List.length_singleton]

end AccessPolicy
