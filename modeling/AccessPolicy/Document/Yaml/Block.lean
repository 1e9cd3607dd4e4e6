import AccessPolicy.Document.Yaml.Cursor

/-!
# Block scalars

A block scalar is the lines below a `|` or `>` that stand far enough in. `|` keeps their line
ends, and `>` takes a single line feed between two lines for a space unless one of them starts
with a blank. The header says what becomes of the line ends after the last line, and perhaps the
column where lines start; without that the first line that is not empty sets it.
-/

namespace AccessPolicy.Yaml

/-- What becomes of the line ends after a block scalar : all go, one stays, or all stay. -/
inductive Chomp where
  | strip
  | clip
  | keep
deriving DecidableEq, Repr

/-- The header of a block scalar. -/
structure BlockHeader where
  /-- What becomes of the line ends after it. -/
  chomp : Chomp
  /-- How far in its lines stand, or 0 if that is not said. -/
  width : Nat
deriving DecidableEq, Repr

/-- The chomping that a character stands for. -/
def chomp? : Char → Option Chomp
  | '-' => some .strip
  | '+' => some .keep
  | _ => none

/-- The width that a character stands for. -/
def width? (c : Char) : Option Nat :=
  if c.isDigit && c ≠ '0' then some (c.toNat - '0'.toNat) else none

/-- The header at the front of a text, and its length. The chomping and the width may come in either
order, and both may be left out. -/
def blockHeader : List Char → BlockHeader × Nat
  | [] => (⟨.clip, 0⟩, 0)
  | c :: cs =>
    match chomp? c, width? c with
    | some chomp, _ =>
      match cs.head?.bind width? with
      | some width => (⟨chomp, width⟩, 2)
      | none => (⟨chomp, 0⟩, 1)
    | none, some width =>
      match cs.head?.bind chomp? with
      | some chomp => (⟨chomp, width⟩, 2)
      | none => (⟨.clip, width⟩, 1)
    | none, none => (⟨.clip, 0⟩, 0)

/-- The empty lines at the front of a text and the spaces before the line after them, up to column
`column` if that is not 0. No tab may stand there. `deepest` is the last column reached so far. -/
def blockGap? (column deepest : Nat) : Place → List Char → Option (List Char × Nat × Cursor)
  | p, [] => some ([], max deepest p.column, ⟨p, []⟩)
  | p, c :: cs =>
    let inMargin := column = 0 || p.column < column
    if inMargin && c = ' ' then blockGap? column deepest (p.step c) cs
    else if inMargin && c = '\t' then none
    else if isBreak c then
      (blockGap? column (max deepest p.column) (p.step c) cs).map fun (ends, d, next) =>
        (c :: ends, d, next)
    else some ([], max deepest p.column, ⟨p, c :: cs⟩)

theorem length_blockGap?_le {column deepest d : Nat} {p : Place} {cs ends : List Char}
    {next : Cursor} (h : blockGap? column deepest p cs = some (ends, d, next)) :
    next.rest.length ≤ cs.length := by
  induction cs generalizing deepest p ends d next with
  | nil =>
    simp only [blockGap?, Option.some.injEq, Prod.mk.injEq] at h
    obtain ⟨-, -, rfl⟩ := h
    exact Nat.le_refl _
  | cons c rest ih =>
    unfold blockGap? at h
    simp only at h
    split at h
    · exact Nat.le_succ_of_le (ih h)
    split at h
    · simp at h
    split at h
    · obtain ⟨⟨es, e, n⟩, hr, hn⟩ := Option.map_eq_some_iff.mp h
      simp only [Prod.mk.injEq] at hn
      obtain ⟨-, -, rfl⟩ := hn
      exact Nat.le_succ_of_le (ih hr)
    · simp only [Option.some.injEq, Prod.mk.injEq] at h
      obtain ⟨-, -, rfl⟩ := h
      exact Nat.le_refl _

/-- What stands between two lines of a block scalar. `first` is the end of the line above, if
there is one, and `more` the ends of the empty lines; `folds` says whether a line feed counts as a
space. -/
def lineJoint (folds : Bool) (first : Option Char) (more : List Char) : List Char :=
  if folds && first = some '\n' then if more = [] then [' '] else more
  else first.toList ++ more

/-- The line ends that stay after a block scalar. -/
def lastEnds (chomp : Chomp) (first : Option Char) (more : List Char) : List Char :=
  match chomp with
  | .strip => []
  | .clip => first.toList
  | .keep => first.toList ++ more

/-- The lines of a block scalar at `column`, after `first` and `more` line ends; `blank` is whether
the line above starts with a blank. -/
def blockLines? (folded : Bool) (chomp : Chomp) (column : Nat) (blank : Bool) (first : Option Char)
    (more : List Char) (cur : Cursor) : Option (List Char × Cursor) :=
  match _hc : cur.rest with
  | [] => some (lastEnds chomp first more, cur)
  | c :: cs =>
    if cur.place.column ≠ column then some (lastEnds chomp first more, cur)
    else
      let line := cs.takeWhile (!isBreak ·)
      let after : Cursor := ⟨(cur.place.step c).past line, cs.dropWhile (!isBreak ·)⟩
      let last := after.drop 1
      match _hg : blockGap? column 0 last.place last.rest with
      | none => none
      | some (ends, _, next) =>
        (blockLines? folded chomp column (isBlank c) after.rest.head? ends next).map
          fun (text, left) =>
            (lineJoint (folded && !blank && !isBlank c) first more ++ c :: line ++ text, left)
termination_by cur.rest.length
decreasing_by
  have h₁ := length_blockGap?_le _hg
  have h₂ := (List.dropWhile_sublist (!isBreak ·) (l := cs)).length_le
  rw [_hc, List.length_cons]
  rw [Cursor.length_drop] at h₁
  simp only [after] at h₁
  omega

/-- A block scalar, at its `|` or `>`. Its lines stand at column `least` or further in. -/
def blockScalar? (folded : Bool) (least : Nat) (cur : Cursor) : Option (List Char × Cursor) :=
  let (header, n) := blockHeader cur.rest.tail
  match (cur.drop (n + 1)).nextLine? with
  | none => none
  | some below =>
    let column := if header.width = 0 then 0 else least - 1 + header.width
    match blockGap? column 0 below.place below.rest with
    | none => none
    | some (ends, deepest, next) =>
      let column := if column = 0 then max (max deepest least) 1 else column
      blockLines? folded header.chomp column false none ends next

end AccessPolicy.Yaml
