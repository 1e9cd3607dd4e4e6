import Mathlib.Data.List.Lex
import Mathlib.Data.String.Basic

/-!
# The order of bytes

Texts are compared by their characters, and so are their bytes in UTF-8 : a character of more bytes
starts with a greater one, and the bytes of one length read a number from its highest digit down
(`charBytes_append_lt`). The order of texts is the order of their bytes (`utf8Bytes_le_iff`).
-/

namespace AccessPolicy

/-- The bytes of a character in UTF-8. -/
def charBytes (c : Char) : List ℕ :=
  (String.utf8EncodeChar c).map UInt8.toNat

/-- The bytes of a text in UTF-8. -/
def utf8Bytes (s : String) : List ℕ :=
  s.toUTF8.data.toList.map UInt8.toNat

theorem utf8Bytes_eq (s : String) : utf8Bytes s = s.toList.flatMap charBytes := by
  have hbytes : s.toUTF8 = s.toList.utf8Encode := by
    rw [← String.toByteArray_ofList, String.ofList_toList, String.toUTF8]
  rw [utf8Bytes, hbytes, List.utf8Encode, List.data_toByteArray, List.map_flatMap]
  rfl

theorem length_utf8Bytes (s : String) : (utf8Bytes s).length = s.utf8ByteSize := by
  rw [utf8Bytes, List.length_map]
  rfl

theorem toNat_char_lt (c : Char) : c.toNat < 1114112 := by
  have hvalid := c.valid
  have hval : c.val.toNat = c.toNat := rfl
  simp only [UInt32.isValidChar, Nat.isValidChar, hval] at hvalid
  omega

theorem charBytes_eq (c : Char) :
    charBytes c =
      if c.toNat ≤ 127 then [c.toNat]
      else if c.toNat ≤ 2047 then [c.toNat / 64 + 192, c.toNat % 64 + 128]
      else if c.toNat ≤ 65535 then
        [c.toNat / 4096 + 224, c.toNat / 64 % 64 + 128, c.toNat % 64 + 128]
      else
        [c.toNat / 262144 + 240, c.toNat / 4096 % 64 + 128, c.toNat / 64 % 64 + 128,
          c.toNat % 64 + 128] := by
  have hbound := toNat_char_lt c
  have hval : c.val.toNat = c.toNat := rfl
  unfold charBytes String.utf8EncodeChar
  simp only [hval]
  split_ifs <;> simp <;> omega

/-- The bytes of the lesser of two characters come first, whatever follows. -/
theorem charBytes_append_lt {c d : Char} (h : c < d) (x y : List ℕ) :
    charBytes c ++ x < charBytes d ++ y := by
  have hlt : c.toNat < d.toNat := h
  have hbound := toNat_char_lt d
  rw [charBytes_eq, charBytes_eq]
  -- Of two lengths the first bytes tell, of one length the first digit in base 64 that differs.
  split_ifs <;> simp only [List.cons_append, List.nil_append, List.cons_lt_cons_iff] <;> omega

theorem exists_charBytes_eq_cons (c : Char) : ∃ b bs, charBytes c = b :: bs := by
  rw [charBytes_eq]
  split_ifs <;> exact ⟨_, _, rfl⟩

theorem flatMap_charBytes_lt {cs ds : List Char} (h : cs < ds) :
    cs.flatMap charBytes < ds.flatMap charBytes := by
  induction h with
  | @nil d ds =>
    obtain ⟨b, bs, hbytes⟩ := exists_charBytes_eq_cons d
    rw [List.flatMap_cons, hbytes]
    exact List.nil_lt_cons b _
  | rel h => exact charBytes_append_lt h _ _
  | cons _ ih => exact List.append_left_lt ih

theorem strictMono_utf8Bytes : StrictMono utf8Bytes := by
  intro a b h
  rw [utf8Bytes_eq, utf8Bytes_eq]
  exact flatMap_charBytes_lt (String.lt_iff_toList_lt.mp h)

/-- Texts are in the order of their bytes. -/
theorem utf8Bytes_le_iff {a b : String} : utf8Bytes a ≤ utf8Bytes b ↔ a ≤ b :=
  strictMono_utf8Bytes.le_iff_le

end AccessPolicy
