import AccessPolicy.Document.Json.Reader
import AccessPolicy.Document.Json.Writer
import AccessPolicy.Proofs.Text.Hex

/-!
# Strings as JSON

A string between quotes is read back as that string, whatever characters it is made of and whatever
comes after it (`Json.stringBody_flatMap_escape`). Every character is either written as it is, and
then it is none that the reader stops at, or it is escaped, and the reader undoes that.
-/

namespace AccessPolicy

namespace Json

/-! ## Escapes -/

theorem hexUnit?_hexDigits {n : Nat} (h : n < 0x10000) (rest : List Char) :
    hexUnit? (hexDigits 'a' 4 n ++ rest) = some (n, rest) := by
  have hvalue : hexNumber? (hexDigits 'a' 4 n) = some n := by
    rw [hexNumber?_hexDigits (.inl rfl)]
    exact congrArg some (Nat.mod_eq_of_lt h)
  have hunit : hexUnit? (hexDigits 'a' 4 n ++ rest) =
      (hexNumber? (hexDigits 'a' 4 n)).map fun u => (u, rest) := rfl
  rw [hunit, hvalue]
  rfl

theorem unicodeEscape?_hexDigits {n : Nat} (h : n < 0xD800) (rest : List Char) :
    unicodeEscape? (hexDigits 'a' 4 n ++ rest) = some (Char.ofNat n, rest) := by
  rw [unicodeEscape?, hexUnit?_hexDigits (by omega)]
  simp only
  rw [if_neg (by omega), if_neg (by omega)]

/-- A character is escaped in a way that the reader undoes, or it is one that the reader takes as it
is. -/
theorem escape_cases (c : Char) :
    (∃ w, escape c = '\\' :: w ∧ ∀ rest, escape? (w ++ rest) = some (c, rest)) ∨
      escape c = [c] ∧ c ≠ '"' ∧ c ≠ '\\' ∧ ¬c.toNat < 0x20 := by
  by_cases hnamed : c ∈ ['"', '\\', '\x08', '\x0c', '\n', '\r', '\t']
  · simp only [List.mem_cons, List.not_mem_nil, or_false] at hnamed
    rcases hnamed with rfl | rfl | rfl | rfl | rfl | rfl | rfl
    all_goals exact .inl ⟨_, rfl, fun _ => rfl⟩
  · simp only [List.mem_cons, List.not_mem_nil, or_false, not_or] at hnamed
    obtain ⟨hquote, hslash, hback, hfeed, hline, hreturn, htab⟩ := hnamed
    rw [escape, if_neg hquote, if_neg hslash, if_neg hback, if_neg hfeed, if_neg hline,
      if_neg hreturn, if_neg htab]
    by_cases hcontrol : c.toNat < 0x20
    · have hread := unicodeEscape?_hexDigits (show c.toNat < 0xD800 by omega)
      rw [Char.ofNat_toNat] at hread
      rw [if_pos hcontrol]
      exact .inl ⟨'u' :: hexDigits 'a' 4 c.toNat, rfl, hread⟩
    · rw [if_neg hcontrol]
      exact .inr ⟨rfl, hquote, hslash, hcontrol⟩

/-! ## Bodies of strings -/

theorem stringBody_quote (rest : List Char) : stringBody ('"' :: rest) = some ([], rest) := by
  rw [stringBody]
  rfl

theorem stringBody_escape (c : Char) (rest : List Char) :
    stringBody (escape c ++ rest) = (stringBody rest).map fun (s, last) => (c :: s, last) := by
  obtain ⟨w, hescape, hread⟩ | ⟨hescape, hquote, hslash, hcontrol⟩ := escape_cases c
  · rw [hescape, List.cons_append, stringBody]
    rw [if_neg (by decide), if_pos rfl]
    split
    · next hnone => simp [hread] at hnone
    · next d more hsome =>
      rw [hread] at hsome
      obtain ⟨rfl, rfl⟩ := Prod.mk.inj (Option.some.inj hsome)
      rfl
  · rw [hescape, List.singleton_append, stringBody, if_neg hquote, if_neg hslash, if_neg hcontrol]

/-- What stands between the quotes of a string is read back. -/
theorem stringBody_flatMap_escape (cs rest : List Char) :
    stringBody (cs.flatMap escape ++ '"' :: rest) = some (cs, rest) := by
  induction cs with
  | nil => exact stringBody_quote rest
  | cons c cs ih =>
    rw [List.flatMap_cons, List.append_assoc, stringBody_escape, ih]
    rfl

end Json

end AccessPolicy
