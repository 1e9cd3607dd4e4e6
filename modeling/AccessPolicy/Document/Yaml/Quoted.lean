import AccessPolicy.Document.Yaml.Cursor

/-!
# Quoted scalars

A quoted scalar may go on over several lines, and the gaps between its words count as in a plain
scalar, wherever the lines stand. Between double quotes a backslash starts an escape, or takes a
line end away. A document marker cannot stand inside.
-/

namespace AccessPolicy.Yaml

/-! ## Single quotes -/

/-- A single-quoted scalar after its opening quote, where `gap` was read last. -/
def single? (gap : Gap) : Place → List Char → Option (List Char × Cursor)
  | _, [] => none
  | p, '\'' :: '\'' :: cs =>
    (single? .empty ((p.step '\'').step '\'') cs).map fun (text, after) =>
      (gap.text ++ '\'' :: text, after)
  | p, c :: cs =>
    if c = '\'' then some (gap.text, ⟨p.step c, cs⟩)
    else if isSpace c then single? (gap.add c) (p.step c) cs
    else if Cursor.isAnyMarker ⟨p, c :: cs⟩ then none
    else
      (single? .empty (p.step c) cs).map fun (text, after) => (gap.text ++ c :: text, after)

/-! ## Double quotes -/

/-- The character that an escape of one letter stands for. -/
def simpleEscape? : Char → Option Char
  | '0' => some '\x00'
  | 'a' => some '\x07'
  | 'b' => some '\x08'
  | 't' => some '\t'
  | '\t' => some '\t'
  | 'n' => some '\n'
  | 'v' => some '\x0b'
  | 'f' => some '\x0c'
  | 'r' => some '\r'
  | 'e' => some '\x1b'
  | ' ' => some ' '
  | '"' => some '"'
  | '/' => some '/'
  | '\\' => some '\\'
  | 'N' => some '\x85'
  | '_' => some '\xa0'
  | 'L' => some '\u2028'
  | 'P' => some '\u2029'
  | _ => none

/-- The number of hexadecimal digits behind the letter of an escape. -/
def escapeDigits : Char → Nat
  | 'x' => 2
  | 'u' => 4
  | 'U' => 8
  | _ => 0

/-- The character that an escape stands for, after its backslash, and the number of digits behind
its letter `c`. -/
def escape? (c : Char) (cs : List Char) : Option (Char × Nat) :=
  match simpleEscape? c with
  | some d => some (d, 0)
  | none =>
    let n := escapeDigits c
    if n = 0 || cs.length < n then none
    else
      match hexNumber? (cs.take n) with
      | some code => if code.isValidChar then some (Char.ofNat code, n) else none
      | none => none

/-- A double-quoted scalar after its opening quote, where `gap` was read last. -/
def double? (gap : Gap) (p : Place) (cs : List Char) : Option (List Char × Cursor) :=
  match cs with
  | [] => none
  | c :: cs =>
    if c = '"' then some (gap.text, ⟨p.step c, cs⟩)
    else if isSpace c then double? (gap.add c) (p.step c) cs
    else if Cursor.isAnyMarker ⟨p, c :: cs⟩ then none
    else if c = '\\' then
      match cs with
      | [] => none
      | d :: ds =>
        if isBreak d then
          (double? (.lines none []) ((p.step c).step d) ds).map fun (text, after) =>
            (gap.text ++ text, after)
        else
          match escape? d ds with
          | none => none
          | some (e, n) =>
            (double? .empty (((p.step c).step d).past (ds.take n)) (ds.drop n)).map
              fun (text, after) => (gap.text ++ e :: text, after)
    else (double? .empty (p.step c) cs).map fun (text, after) => (gap.text ++ c :: text, after)
termination_by cs.length
decreasing_by all_goals simp only [List.length_cons, List.length_drop]; omega

/-- A quoted scalar, at its opening quote. -/
def quoted? (cur : Cursor) : Option (List Char × Cursor) :=
  match cur.rest with
  | '\'' :: cs => single? .empty (cur.place.step '\'') cs
  | '"' :: cs => double? .empty (cur.place.step '"') cs
  | _ => none

end AccessPolicy.Yaml
