import AccessPolicy.Document.Json.Number
import AccessPolicy.Text.Hex

/-!
# Reading JSON

`Json.read` reads a text that is one JSON value from end to end. It is strict : no
comments, no trailing commas, no control characters inside strings, no lone surrogates, no
numbers too great for a float. Lists and objects may enclose each other up to a given depth.

Each step hands on what it has not read, and a step of a repetition must leave less than it
was given.
-/

namespace AccessPolicy.Json

/-- The characters between the parts of a value. -/
def isBlank (c : Char) : Bool :=
  c = ' ' || c = '\t' || c = '\n' || c = '\r'

/-- A text without the blanks in front. -/
def skip (cs : List Char) : List Char :=
  cs.dropWhile isBlank

/-- What follows `word` at the front of a text. -/
def after? (word cs : List Char) : Option (List Char) :=
  if cs.take word.length = word then some (cs.drop word.length) else none

/-! ## Strings -/

/-- The value of four hexadecimal digits. -/
def hexUnit? : List Char → Option (Nat × List Char)
  | a :: b :: c :: d :: rest => (hexNumber? [a, b, c, d]).map fun u => (u, rest)
  | _ => none

/-- The character of an escape, after its `u`. A high surrogate needs the escape of a low
one behind it. -/
def unicodeEscape? (cs : List Char) : Option (Char × List Char) :=
  match hexUnit? cs with
  | none => none
  | some (u, rest) =>
    if 0xD800 ≤ u ∧ u < 0xDC00 then
      match rest with
      | '\\' :: 'u' :: more =>
        match hexUnit? more with
        | some (v, last) =>
          if 0xDC00 ≤ v ∧ v < 0xE000 then
            some (Char.ofNat (0x10000 + (u - 0xD800) * 0x400 + (v - 0xDC00)), last)
          else none
        | none => none
      | _ => none
    else if 0xDC00 ≤ u ∧ u < 0xE000 then none
    else some (Char.ofNat u, rest)

/-- The character of an escape, after its backslash. -/
def escape? : List Char → Option (Char × List Char)
  | '"' :: rest => some ('"', rest)
  | '\\' :: rest => some ('\\', rest)
  | '/' :: rest => some ('/', rest)
  | 'b' :: rest => some ('\x08', rest)
  | 'f' :: rest => some ('\x0c', rest)
  | 'n' :: rest => some ('\n', rest)
  | 'r' :: rest => some ('\r', rest)
  | 't' :: rest => some ('\t', rest)
  | 'u' :: rest => unicodeEscape? rest
  | _ => none

theorem length_hexUnit? {cs rest : List Char} {u : Nat} (h : hexUnit? cs = some (u, rest)) :
    rest.length < cs.length := by
  unfold hexUnit? at h
  split at h
  · obtain ⟨v, -, hv⟩ := Option.map_eq_some_iff.mp h
    rw [← (Prod.mk.inj hv).2]
    simp only [List.length_cons]
    omega
  · simp at h

theorem length_unicodeEscape? {cs rest : List Char} {c : Char}
    (h : unicodeEscape? cs = some (c, rest)) : rest.length < cs.length := by
  unfold unicodeEscape? at h
  split at h
  · simp at h
  next u more hu =>
  have h₁ := length_hexUnit? hu
  split at h
  · split at h
    · split at h
      · next v last hv =>
        have h₂ := length_hexUnit? hv
        split at h
        · simp only [Option.some.injEq, Prod.mk.injEq] at h
          rw [← h.2]
          simp only [List.length_cons] at h₁
          omega
        · simp at h
      · simp at h
    · simp at h
  · split at h
    · simp at h
    · simp only [Option.some.injEq, Prod.mk.injEq] at h
      rw [← h.2]
      exact h₁

theorem length_escape? {cs rest : List Char} {c : Char} (h : escape? cs = some (c, rest)) :
    rest.length < cs.length := by
  unfold escape? at h
  split at h
  case h_9 => exact Nat.lt_succ_of_lt (length_unicodeEscape? h)
  case h_10 => simp at h
  all_goals
    simp only [Option.some.injEq, Prod.mk.injEq] at h
    rw [← h.2]
    exact Nat.lt_succ_self _

/-- The characters of a string, after its opening quote and up to the closing one. -/
def stringBody (cs : List Char) : Option (List Char × List Char) :=
  match cs with
  | [] => none
  | c :: rest =>
    if c = '"' then some ([], rest)
    else if c = '\\' then
      match _h : escape? rest with
      | none => none
      | some (d, more) => (stringBody more).map fun (s, last) => (d :: s, last)
    else if c.toNat < 0x20 then none
    else (stringBody rest).map fun (s, last) => (c :: s, last)
termination_by cs.length
decreasing_by
  · exact Nat.lt_succ_of_lt (length_escape? _h)
  · exact Nat.lt_succ_self _

/-! ## Values -/

/-- One or more items between commas, up to `close`. -/
def separated {α : Type} (item : List Char → Option (α × List Char)) (close : Char)
    (cs : List Char) : Option (List α × List Char) :=
  match item cs with
  | none => none
  | some (a, rest) =>
    match skip rest with
    | [] => none
    | c :: more =>
      if c = close then some ([a], more)
      else if c = ',' then
        if _h : more.length < cs.length then
          (separated item close more).map fun (as, last) => (a :: as, last)
        else none
      else none
termination_by cs.length

/-- A key, a colon and a value. -/
def field (value : List Char → Option (Document × List Char)) (cs : List Char) :
    Option ((String × Document) × List Char) :=
  match skip cs with
  | '"' :: rest =>
    match stringBody rest with
    | none => none
    | some (key, more) =>
      match skip more with
      | ':' :: last => (value last).map fun (d, left) => ((String.ofList key, d), left)
      | _ => none
  | _ => none

/-- A value in which lists and objects enclose each other at most `depth` deep. -/
def value : (depth : Nat) → List Char → Option (Document × List Char)
  | depth, cs =>
    match skip cs with
    | [] => none
    | c :: rest =>
      if c = '"' then
        (stringBody rest).map fun (s, more) => (.string (String.ofList s), more)
      else if c = '[' then
        match depth with
        | 0 => none
        | depth + 1 =>
          match skip rest with
          | ']' :: more => some (.list [], more)
          | _ => (separated (value depth) ']' rest).map fun (ds, more) => (.list ds, more)
      else if c = '\x7b' then
        match depth with
        | 0 => none
        | depth + 1 =>
          match skip rest with
          | '\x7d' :: more => some (.object [], more)
          | _ =>
            (separated (field (value depth)) '\x7d' rest).map fun (fs, more) =>
              (.object fs, more)
      else if c = 'n' then (after? ['u', 'l', 'l'] rest).map fun more => (.null, more)
      else if c = 't' then (after? ['r', 'u', 'e'] rest).map fun more => (.bool true, more)
      else if c = 'f' then
        (after? ['a', 'l', 's', 'e'] rest).map fun more => (.bool false, more)
      else
        (number? ((c :: rest).takeWhile isNumberPart)).map fun d =>
          (d, (c :: rest).dropWhile isNumberPart)

/-- The document that a whole text denotes. -/
def read (depth : Nat) (text : String) : Option Document :=
  match value depth text.toList with
  | some (d, rest) => if skip rest = [] then some d else none
  | none => none

/-- The deepest nesting of lists and objects that is read. -/
def maxDepth : Nat :=
  127

end AccessPolicy.Json
