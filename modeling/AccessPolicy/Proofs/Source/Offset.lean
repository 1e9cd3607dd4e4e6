import AccessPolicy.Proofs.Source.Stream
import Mathlib.Data.List.TakeWhile
import Mathlib.Data.String.Basic
import Mathlib.Order.Bounds.Defs

/-!
# Byte offsets

Offsets count bytes and characters may take several, so not every offset is a place in a text.
`IsBoundary` holds of those that are. A stream that is opened at any offset starts at the last
boundary up to it (`TokenStream.isGreatest_offset_startingAt`).

However far a stream has read, its position is that of the characters it has left
(`TokenStream.StandsIn`), and its offset is enough to find them again
(`TokenStream.StandsIn.startingAt_offset`).
-/

namespace AccessPolicy

open String (utf8Len)

/-- The offset is a place in the text : a character starts there, or the text ends. -/
def IsBoundary (cs : List Char) (b : Nat) : Prop :=
  ∃ before after, cs = before ++ after ∧ utf8Len before = b

namespace Position

theorem offset_past (p : Position) (cs : List Char) :
    (p.past cs).offset = p.offset + utf8Len cs := by
  induction cs generalizing p with
  | nil => rfl
  | cons c cs ih =>
    have hstep : (p.step c).offset = p.offset + c.utf8Size := by
      unfold step
      split <;> rfl
    rw [past_cons, ih, hstep, String.utf8Len_cons]
    omega

theorem offset_start_past (cs : List Char) : (start.past cs).offset = utf8Len cs := by
  rw [offset_past]
  exact Nat.zero_add _

end Position

/-- Of two ways to cut a text, the one with fewer bytes ahead comes first. -/
theorem exists_append_of_utf8Len_le {as bs cs ds : List Char} (h : as ++ bs = cs ++ ds)
    (hle : utf8Len as ≤ utf8Len cs) : ∃ es, cs = as ++ es ∧ bs = es ++ ds := by
  rcases List.append_eq_append_iff.mp h with ⟨es, rfl, rfl⟩ | ⟨es, rfl, rfl⟩
  · exact ⟨es, rfl, rfl⟩
  · rw [String.utf8Len_append] at hle
    obtain rfl : es = [] := String.utf8Len_eq_zero.mp (by omega)
    exact ⟨[], by simp, by simp⟩

/-! ## Cutting a text at a byte -/

theorem cutAtByte_utf8Len (before after : List Char) :
    cutAtByte (utf8Len before) (before ++ after) = (before, after) := by
  induction before with
  | nil => exact cutAtByte_zero after
  | cons c before ih =>
    rw [List.cons_append, cutAtByte, String.utf8Len_cons, if_pos (Nat.le_add_left _ _),
      Nat.add_sub_cancel, ih]

theorem utf8Len_cutAtByte_le (offset : Nat) (cs : List Char) :
    utf8Len (cutAtByte offset cs).1 ≤ offset := by
  induction cs generalizing offset with
  | nil => exact Nat.zero_le _
  | cons c cs ih =>
    unfold cutAtByte
    split
    · next hle =>
      have := ih (offset - c.utf8Size)
      simp only [String.utf8Len_cons]
      omega
    · exact Nat.zero_le _

theorem utf8Len_le_cutAtByte {offset : Nat} {before : List Char} (after : List Char)
    (h : utf8Len before ≤ offset) :
    utf8Len before ≤ utf8Len (cutAtByte offset (before ++ after)).1 := by
  induction before generalizing offset with
  | nil => exact Nat.zero_le _
  | cons c before ih =>
    rw [String.utf8Len_cons] at h
    have hle : c.utf8Size ≤ offset := Nat.le_trans (Nat.le_add_left _ _) h
    rw [List.cons_append, cutAtByte, if_pos hle]
    exact Nat.add_le_add_right (ih (by omega)) _

namespace TokenStream

theorem offset_startingAt (source : String) (offset : Nat) :
    (startingAt source offset).offset = utf8Len (cutAtByte offset source.toList).1 :=
  Position.offset_start_past _

/-- A stream starts at the last boundary up to the offset it is opened at. -/
theorem isGreatest_offset_startingAt (source : String) (offset : Nat) :
    IsGreatest {b | IsBoundary source.toList b ∧ b ≤ offset} (startingAt source offset).offset := by
  rw [offset_startingAt]
  refine ⟨⟨⟨_, _, (cutAtByte_append offset source.toList).symm, rfl⟩,
    utf8Len_cutAtByte_le offset source.toList⟩, ?_⟩
  rintro b ⟨⟨before, after, hsource, rfl⟩, hle⟩
  rw [hsource]
  exact utf8Len_le_cutAtByte after hle

/-! ## Where a stream stands -/

/-- The position of the stream is that of the characters it has left in the text. -/
def StandsIn (source : String) (s : TokenStream) : Prop :=
  ∃ before, source.toList = before ++ s.rest ∧ s.position = Position.start.past before

theorem standsIn_startingAt (source : String) (offset : Nat) :
    (startingAt source offset).StandsIn source :=
  ⟨_, (cutAtByte_append offset source.toList).symm, rfl⟩

/-- A stream that is opened where another stands has the same left to read. -/
theorem StandsIn.startingAt_offset {source : String} {s : TokenStream} (h : s.StandsIn source) :
    startingAt source s.offset = ⟨s.rest, s.position, none, []⟩ := by
  obtain ⟨before, hsource, hposition⟩ := h
  have hoffset : s.offset = utf8Len before := by
    rw [offset, hposition, Position.offset_start_past]
  rw [startingAt, hoffset, hsource, cutAtByte_utf8Len, hposition]

end TokenStream

/-! ## Where the next lexeme stands -/

/-- The next lexeme comes after blanks, and what is left comes after the lexeme. -/
theorem Lexeme.exists_gap_of_next? {p : Position} {cs rest : List Char} {l : Placed}
    (h : next? p cs = some (l, rest)) :
    ∃ gap c more, (∀ b ∈ gap, isBlank b = true) ∧ cs = gap ++ (l.lexeme.text ++ rest) ∧
      l.start = p.past gap ∧ munch c more = (l.lexeme, rest) := by
  unfold next? at h
  split at h
  · simp at h
  · next c more hc =>
    obtain ⟨rfl, rfl⟩ := Prod.mk.inj (Option.some.inj h)
    refine ⟨cs.takeWhile isBlank, c, more, List.all_eq_true.mp List.all_takeWhile, ?_, rfl, rfl⟩
    rw [munch_append, ← hc, List.takeWhile_append_dropWhile]

theorem Lexeme.forall_isBlank_of_next? {p : Position} {cs : List Char} (h : next? p cs = none) :
    ∀ c ∈ cs, isBlank c = true := by
  unfold next? at h
  split at h
  · next hnil => exact List.dropWhile_eq_nil_iff.mp hnil
  · simp at h

end AccessPolicy
