import AccessPolicy.Integer
import Mathlib.Data.List.Basic
import Mathlib.Data.List.Induction
import Mathlib.Data.Nat.Init

/-!
# Numbers in decimal

Every run of digits writes a number : it is the number in decimal, perhaps after zeros
(`exists_writes`), and folding the digits finds the number again (`Writes.ofDigitChars`). The fold
may as well go on in a word of 64 bits, with a check before each step that the step stays in the
range of signed words. It comes to an end exactly if the number is in the range, and then with the
word for that number (`toInt_word?`) : a number that has left the range does not come back.
-/

namespace AccessPolicy

/-! ## Digits -/

theorem toNat_of_isDigit {c : Char} (h : c.isDigit = true) : 0x30 ≤ c.toNat ∧ c.toNat ≤ 0x39 := by
  simp only [Char.isDigit, Bool.and_eq_true, decide_eq_true_eq, ge_iff_le, UInt32.le_iff_toNat_le]
    at h
  exact h

theorem exists_digitChar {c : Char} (h : c.isDigit = true) : ∃ d < 10, c = d.digitChar := by
  obtain ⟨hlow, hhigh⟩ := toNat_of_isDigit h
  have hd : c.toNat - 0x30 < 10 := by omega
  refine ⟨c.toNat - 0x30, hd, Char.toNat_inj.mp ?_⟩
  rw [Nat.toNat_digitChar_of_lt_ten hd]
  omega

/-- Reading digits never makes a number smaller. -/
theorem le_ofDigitChars (n : Nat) (ds : List Char) : n ≤ Nat.ofDigitChars 10 ds n := by
  induction ds generalizing n with
  | nil => exact Nat.le_of_eq Nat.ofDigitChars_nil.symm
  | cons d ds ih =>
    have hmore := ih (10 * n + (d.toNat - '0'.toNat))
    rw [Nat.ofDigitChars_cons]
    omega

theorem isDigit_of_mem_toDigits {n : Nat} : ∀ d ∈ Nat.toDigits 10 n, d.isDigit = true :=
  fun _ hd => Nat.isDigit_of_mem_toDigits (by omega) (by omega) hd

theorem digitChar_ne_zero : ∀ n < 10, n ≠ 0 → n.digitChar ≠ '0' := by
  decide

/-- The first digit of a number is not zero, unless the number is. -/
theorem head?_toDigits_ne {n : Nat} (hn : n ≠ 0) : (Nat.toDigits 10 n).head? ≠ some '0' := by
  induction n using Nat.strong_induction_on with
  | _ n ih =>
    rw [Nat.toDigits_eq_if (by omega)]
    split
    · next hlt => exact fun h => digitChar_ne_zero n hlt hn (Option.some.inj h)
    · next hge =>
      rw [List.head?_append_of_ne_nil _ Nat.toDigits_ne_nil]
      exact ih (n / 10) (by omega) (by omega)

/-! ## Numbers -/

/-- The digits are those of `n` in decimal, perhaps after zeros. -/
def Writes (ds : List Char) (n : Nat) : Prop :=
  ∃ zeros, ds = List.replicate zeros '0' ++ Nat.toDigits 10 n

theorem Writes.ofDigitChars {ds : List Char} {n : Nat} (h : Writes ds n) :
    Nat.ofDigitChars 10 ds 0 = n := by
  obtain ⟨zeros, rfl⟩ := h
  rw [Nat.ofDigitChars_append, Nat.ofDigitChars_replicate_zero, Nat.mul_zero,
    Nat.ofDigitChars_ten_toDigits]

/-- One more digit makes ten times the number and the digit. -/
theorem Writes.concat {ds : List Char} {n d : Nat} (h : Writes ds n) (hd : d < 10) :
    Writes (ds ++ [d.digitChar]) (10 * n + d) := by
  obtain ⟨zeros, rfl⟩ := h
  rcases Nat.eq_zero_or_pos n with rfl | hn
  · -- The zero that wrote the number so far becomes one of those ahead.
    refine ⟨zeros + 1, ?_⟩
    rw [Nat.mul_zero, Nat.zero_add, Nat.toDigits_of_lt_base hd, Nat.toDigits_zero,
      List.replicate_succ']
  · refine ⟨zeros, ?_⟩
    rw [← Nat.toDigits_append_toDigits (by omega) hn hd, Nat.toDigits_of_lt_base hd,
      List.append_assoc]

/-- Every run of digits writes a number. -/
theorem exists_writes {ds : List Char} (hne : ds ≠ []) (h : ∀ c ∈ ds, c.isDigit = true) :
    ∃ n, Writes ds n := by
  induction ds using List.reverseRecOn with
  | nil => exact absurd rfl hne
  | append_singleton ds c ih =>
    obtain ⟨d, hd, rfl⟩ := exists_digitChar (h c (by simp))
    rcases List.eq_nil_or_concat ds with rfl | ⟨es, e, rfl⟩
    · exact ⟨d, 0, by simp [Nat.toDigits_of_lt_base hd]⟩
    · obtain ⟨n, hn⟩ := ih (by simp) fun x hx => h x (List.mem_append_left _ hx)
      exact ⟨10 * n + d, hn.concat hd⟩

/-! ## Words -/

/-- The word with one more digit, unless a step on the way leaves the range of signed words. -/
def pushDigit? (w : BitVec 64) (c : Char) : Option (BitVec 64) :=
  let d := BitVec.ofNat 64 (c.toNat - '0'.toNat)
  if w.smulOverflow 10#64 || (w * 10#64).saddOverflow d then none else some (w * 10#64 + d)

/-- The word that digits come to, unless they leave the range of signed words. -/
def word? (ds : List Char) : Option (BitVec 64) :=
  ds.foldlM pushDigit? 0#64

theorem smulOverflow_iff {v w : BitVec 64} {m n : Nat} (hv : v.toInt = m) (hw : w.toInt = n) :
    v.smulOverflow w = true ↔ ¬ m * n ≤ maxInt64 := by
  have hmax : maxInt64 = 2 ^ 63 - 1 := rfl
  rw [BitVec.smulOverflow, hv, hw, ← Int.natCast_mul]
  simp only [Bool.or_eq_true, decide_eq_true_eq]
  omega

theorem saddOverflow_iff {v w : BitVec 64} {m n : Nat} (hv : v.toInt = m) (hw : w.toInt = n) :
    v.saddOverflow w = true ↔ ¬ m + n ≤ maxInt64 := by
  have hmax : maxInt64 = 2 ^ 63 - 1 := rfl
  rw [BitVec.saddOverflow, hv, hw]
  simp only [Bool.or_eq_true, decide_eq_true_eq]
  omega

/-- One more digit is taken exactly if the greater number is still in the range. -/
theorem toInt_pushDigit? {w : BitVec 64} {n d : Nat} (hw : w.toInt = n) (hd : d < 10) :
    (pushDigit? w d.digitChar).map BitVec.toInt =
      if 10 * n + d ≤ maxInt64 then some ((10 * n + d : Nat) : Int) else none := by
  have hdigit : d.digitChar.toNat - '0'.toNat = d := Nat.toNat_digitChar_sub_48_of_lt_ten hd
  have hword : (BitVec.ofNat 64 d).toInt = d := by
    rw [BitVec.toInt_eq_toNat_of_lt] <;> rw [BitVec.toNat_ofNat] <;> omega
  have hmul : w.smulOverflow 10#64 = true ↔ ¬ n * 10 ≤ maxInt64 := smulOverflow_iff hw rfl
  rw [pushDigit?, hdigit]
  by_cases hproduct : n * 10 ≤ maxInt64
  · have hmul : ¬ w.smulOverflow 10#64 = true := fun h => hmul.mp h hproduct
    have htimes : (w * 10#64).toInt = (n * 10 : Nat) := by
      rw [BitVec.toInt_mul_of_not_smulOverflow hmul, hw]
      rfl
    have hadd := saddOverflow_iff htimes hword
    by_cases hsum : n * 10 + d ≤ maxInt64
    · have hadd : ¬ (w * 10#64).saddOverflow (BitVec.ofNat 64 d) = true := fun h => hadd.mp h hsum
      have hplus : (w * 10#64 + BitVec.ofNat 64 d).toInt = (10 * n + d : Nat) := by
        rw [BitVec.toInt_add_of_not_saddOverflow hadd, htimes, hword]
        omega
      rw [if_neg (by simp [hmul, hadd]), if_pos (by rwa [Nat.mul_comm]), Option.map_some, hplus]
    · rw [if_pos (by simp [hadd.mpr hsum]), if_neg (by rwa [Nat.mul_comm]), Option.map_none]
  · have hlarge : ¬ 10 * n + d ≤ maxInt64 := by omega
    rw [if_pos (by simp [hmul.mpr hproduct]), if_neg hlarge, Option.map_none]

theorem toInt_foldlM_pushDigit? {w : BitVec 64} {n : Nat} {ds : List Char} (hw : w.toInt = n)
    (hn : n ≤ maxInt64) (h : ∀ c ∈ ds, c.isDigit = true) :
    (ds.foldlM pushDigit? w).map BitVec.toInt =
      if Nat.ofDigitChars 10 ds n ≤ maxInt64 then some (Nat.ofDigitChars 10 ds n : Int)
      else none := by
  induction ds generalizing w n with
  | nil => simp [hw, hn]
  | cons c ds ih =>
    obtain ⟨hc, hds⟩ := List.forall_mem_cons.mp h
    obtain ⟨d, hd, rfl⟩ := exists_digitChar hc
    have hstep := toInt_pushDigit? hw hd
    rw [Nat.ofDigitChars_cons_digitChar_of_lt_ten hd, List.foldlM_cons]
    cases hpush : pushDigit? w d.digitChar with
    | none =>
      -- The digits that follow only make the number greater.
      have hlarge : ¬ 10 * n + d ≤ maxInt64 := fun hle => by simp [hpush, hle] at hstep
      have hmore := le_ofDigitChars (10 * n + d) ds
      rw [if_neg (by omega)]
      rfl
    | some w' =>
      have hfits : 10 * n + d ≤ maxInt64 := by
        by_contra hlarge
        simp [hpush, hlarge] at hstep
      rw [hpush, if_pos hfits] at hstep
      exact ih (Option.some.inj hstep) hfits hds

/-- Digits come to the word for their number, or to none if the number is out of the range. -/
theorem toInt_word? {ds : List Char} (h : ∀ c ∈ ds, c.isDigit = true) :
    (word? ds).map BitVec.toInt =
      if Nat.ofDigitChars 10 ds 0 ≤ maxInt64 then some (Nat.ofDigitChars 10 ds 0 : Int)
      else none :=
  toInt_foldlM_pushDigit? rfl (Nat.zero_le _) h

end AccessPolicy
