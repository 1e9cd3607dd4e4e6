import AccessPolicy.Document.Json.Number
import AccessPolicy.Proofs.Span
import AccessPolicy.Proofs.Text.Decimal
import Mathlib.Data.List.Basic
import Mathlib.Data.List.TakeWhile
import Mathlib.Data.Nat.Log

/-!
# Integers as JSON numbers

An integer that fits 64 bits, signed or unsigned, is written with its digits, and these are read
back as that integer (`Json.number?_repr`). The digits have no leading zero, a zero has no sign, and
the float that they would be is far from too great.
-/

namespace AccessPolicy

/-- The numeral of a natural number. -/
def Numeral.natural (n : Nat) : Numeral :=
  ⟨Nat.toDigits 10 n, none, none⟩

@[simp] theorem Numeral.fraction_natural (n : Nat) : (natural n).fraction = none := rfl

@[simp] theorem Numeral.exponent_natural (n : Nat) : (natural n).exponent = none := rfl

theorem Numeral.read?_toDigits (n : Nat) : read? (Nat.toDigits 10 n) = some (natural n) := by
  have htake : (Nat.toDigits 10 n).takeWhile Char.isDigit = Nat.toDigits 10 n :=
    List.takeWhile_eq_self_iff.mpr isDigit_of_mem_toDigits
  have hdrop : (Nat.toDigits 10 n).dropWhile Char.isDigit = [] :=
    List.dropWhile_eq_nil_iff.mpr isDigit_of_mem_toDigits
  rw [read?, htake, hdrop]
  rfl

theorem Numeral.mantissa_natural (n : Nat) : (natural n).mantissa = n := by
  have hwhole : (natural n).whole ++ (natural n).fraction.getD [] = Nat.toDigits 10 n :=
    List.append_nil _
  rw [mantissa, hwhole, Nat.ofDigitChars_ten_toDigits]

namespace Json

theorem isNumberPart_of_isDigit {c : Char} (h : c.isDigit = true) : isNumberPart c = true := by
  simp [isNumberPart, h]

theorem isStrict_natural (n : Nat) : isStrict (.natural n) = true := by
  by_cases hn : n = 0
  · subst hn
    decide
  · simp [isStrict, Numeral.natural, Nat.toDigits_ne_nil, head?_toDigits_ne hn]

/-! ## The float of an integer -/

theorem appendDigits_eq {ds : List Char} {n : Nat} (h : Nat.ofDigitChars 10 ds n ≤ maxUInt64) :
    appendDigits n ds = (Nat.ofDigitChars 10 ds n, ds.length) := by
  induction ds generalizing n with
  | nil => rfl
  | cons d ds ih =>
    rw [Nat.ofDigitChars_cons, Nat.mul_comm] at h ⊢
    have hnext := Nat.le_trans (le_ofDigitChars (n * 10 + (d.toNat - '0'.toNat)) ds) h
    rw [appendDigits, if_pos hnext, ih h]
    rfl

theorem leadingDigits_natural {n : Nat} (h : n ≤ maxUInt64) :
    leadingDigits (.natural n) = (n, 0) := by
  have hdigits : appendDigits 0 (Nat.toDigits 10 n) = (n, (Nat.toDigits 10 n).length) := by
    rw [appendDigits_eq (by rwa [Nat.ofDigitChars_ten_toDigits]), Nat.ofDigitChars_ten_toDigits]
  simp [leadingDigits, Numeral.natural, hdigits, appendDigits]

/-- Rounding at most doubles a number. -/
theorem roundBinary_le {n : Nat} (hn : n ≠ 0) : roundBinary n ≤ 2 * n := by
  have hunit : Nat.pow 2 (n.log2 - 52) ≤ n :=
    (Nat.pow_le_pow_right (by omega) (Nat.sub_le _ _)).trans (Nat.log2_self_le hn)
  have hkept : n / Nat.pow 2 (n.log2 - 52) * Nat.pow 2 (n.log2 - 52) ≤ n := Nat.div_mul_le_self _ _
  rw [roundBinary]
  split
  · rw [Nat.succ_mul]
    omega
  · omega

theorem isFinite_natural {n : Nat} (h : n ≤ maxUInt64) : isFinite (.natural n) = true := by
  rw [isFinite, leadingDigits_natural h]
  split
  · rfl
  · next hpower => exact absurd (Prod.mk.inj hpower).2 nofun
  · next digits power hzero hdigits =>
    obtain ⟨rfl, hpower⟩ := Prod.mk.inj hdigits
    obtain rfl : 0 = power := Int.ofNat.inj hpower
    have hn : n ≠ 0 := fun hn => hzero hn
    have hdouble := roundBinary_le hn
    have hlimit : 2 * maxUInt64 < Numeral.floatLimit := by decide +kernel
    have hround : roundBinary n < Numeral.floatLimit := by omega
    have hone : roundBinary (Nat.pow 10 0) = 1 := by decide
    rw [hone, Nat.mul_one, decide_eq_true hround]
    rfl

/-! ## Integers -/

theorem number?_toDigits {n : Nat} (h : n ≤ maxUInt64) :
    number? (Nat.toDigits 10 n) = some (.int n) := by
  have hsign : ∀ rest, Nat.toDigits 10 n ≠ '-' :: rest := fun rest hrest =>
    absurd (isDigit_of_mem_toDigits '-' (hrest ▸ List.mem_cons_self)) (by decide)
  unfold number?
  split
  next negative unsigned hsplit =>
  split at hsplit
  · next rest hrest => exact absurd hrest (hsign rest)
  · obtain ⟨rfl, rfl⟩ := Prod.mk.inj hsplit
    simp [Numeral.read?_toDigits, isStrict_natural, isFinite_natural h,
      Numeral.mantissa_natural, h]

theorem number?_minus_toDigits {n : Nat} (hn : n ≠ 0) (h : n ≤ maxInt64 + 1) :
    number? ('-' :: Nat.toDigits 10 n) = some (.int (-n)) := by
  have hfinite : isFinite (.natural n) = true :=
    isFinite_natural (h.trans (by decide))
  simp [number?, Numeral.read?_toDigits, isStrict_natural, hfinite, Numeral.mantissa_natural, hn, h]

theorem toList_repr (k : Int) : k.repr.toList =
    (if k < 0 then ['-'] else []) ++ Nat.toDigits 10 k.natAbs := by
  cases k with
  | ofNat n => exact Nat.toList_repr
  | negSucc n =>
    have hrepr : (Int.negSucc n).repr = "-" ++ (n + 1).repr := rfl
    rw [hrepr, String.toList_append, Nat.toList_repr, if_pos (Int.negSucc_lt_zero n)]
    rfl

/-- An integer that fits 64 bits is the number its digits denote. -/
theorem number?_repr {k : Int} (hlow : -(maxInt64 + 1) ≤ k) (hhigh : k ≤ maxUInt64) :
    number? k.repr.toList = some (.int k) := by
  rw [toList_repr]
  split
  · next hneg =>
    have habs : -(k.natAbs : Int) = k := by omega
    rw [List.singleton_append, number?_minus_toDigits (by omega) (by omega), habs]
  · next hneg =>
    have habs : (k.natAbs : Int) = k := by omega
    rw [List.nil_append, number?_toDigits (by omega), habs]

theorem isNumberPart_of_mem_repr {k : Int} {c : Char} (h : c ∈ k.repr.toList) :
    isNumberPart c = true := by
  rw [toList_repr, List.mem_append] at h
  cases h with
  | inl hsign =>
    split at hsign
    · rw [List.mem_singleton.mp hsign]
      decide
    · simp at hsign
  | inr hdigit => exact isNumberPart_of_isDigit (isDigit_of_mem_toDigits c hdigit)

theorem repr_ne_nil (k : Int) : k.repr.toList ≠ [] := by
  simp [toList_repr, Nat.toDigits_ne_nil]

end Json

end AccessPolicy
