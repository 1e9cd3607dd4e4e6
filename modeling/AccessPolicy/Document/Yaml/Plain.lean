import AccessPolicy.Document.Yaml.Cursor

/-!
# Plain scalars

A plain scalar is words with gaps between them. It goes on over line ends as long as the lines
stand far enough in, and it ends where a colon ends a key, before a comment, at a document marker,
and between brackets at a bracket, a brace or a comma. The gap after its last word is passed over
with it, so a scalar that ends with its line leaves the text at the next word.
-/

namespace AccessPolicy.Yaml

/-- The characters that have a meaning of their own between brackets. -/
def isFlowIndicator (c : Char) : Bool :=
  c = ',' || c = '[' || c = ']' || c = '\x7b' || c = '\x7d'

/-- Whether a plain scalar starts here. -/
def startsPlain (flow : Bool) : List Char → Bool
  | [] => false
  | c :: rest =>
    if c = '-' then !endsWord rest
    else if c = '?' || c = ':' then !flow && !endsWord rest
    else !(isSpace c || indicators.contains c)

/-- The word at the front of a text, which may be empty. Between brackets a word cannot hold a colon
right before an indicator. -/
def plainWord? (flow : Bool) : List Char → Option (List Char)
  | [] => some []
  | c :: rest =>
    if isSpace c then some []
    else if flow && c = ':' && rest.head?.any (fun d => isFlowIndicator d || d = '?') then none
    else if c = ':' && endsWord rest || flow && isFlowIndicator c then some []
    else (plainWord? flow rest).map (c :: ·)

/-- The gap at the front of a text, after `gap`. On a new line no tab may stand before column
`least`. -/
def plainGap? (least : Nat) (gap : Gap) : Place → List Char → Option (Gap × Cursor)
  | p, [] => some (gap, ⟨p, []⟩)
  | p, c :: cs =>
    if !isSpace c then some (gap, ⟨p, c :: cs⟩)
    else if c = '\t' && gap.endsLine && p.column < least then none
    else plainGap? least (gap.add c) (p.step c) cs

/-- A plain scalar that was read. -/
structure Plain where
  /-- Its characters. -/
  text : List Char
  /-- Whether a line end follows it. -/
  endsLine : Bool
  /-- What is left after it and the gap behind it. -/
  cursor : Cursor
deriving DecidableEq, Repr

/-- Whether a plain scalar cannot go on here, after a gap. -/
def stopsPlain (flow : Bool) (least : Nat) (cur : Cursor) : Bool :=
  cur.isAnyMarker || cur.rest.head? = some '#' || (!flow && cur.place.column < least)

theorem length_plainWord?_le {flow : Bool} {cs w : List Char} (h : plainWord? flow cs = some w) :
    w.length ≤ cs.length := by
  induction cs generalizing w with
  | nil =>
    obtain rfl := Option.some.inj h
    exact Nat.le_refl _
  | cons c rest ih =>
    unfold plainWord? at h
    split at h
    · obtain rfl := Option.some.inj h
      exact Nat.zero_le _
    split at h
    · simp at h
    split at h
    · obtain rfl := Option.some.inj h
      exact Nat.zero_le _
    · obtain ⟨v, hv, rfl⟩ := Option.map_eq_some_iff.mp h
      exact Nat.succ_le_succ (ih hv)

theorem length_plainGap?_le {least : Nat} {gap g : Gap} {p : Place} {cs : List Char}
    {next : Cursor} (h : plainGap? least gap p cs = some (g, next)) :
    next.rest.length ≤ cs.length := by
  induction cs generalizing gap p with
  | nil =>
    obtain ⟨-, rfl⟩ := Prod.mk.inj (Option.some.inj h)
    exact Nat.le_refl _
  | cons c rest ih =>
    unfold plainGap? at h
    split at h
    · obtain ⟨-, rfl⟩ := Prod.mk.inj (Option.some.inj h)
      exact Nat.le_refl _
    split at h
    · simp at h
    · exact Nat.le_succ_of_le (ih h)

/-- The rest of a plain scalar, after a word. -/
def plainRest? (flow : Bool) (least : Nat) (cur : Cursor) : Option Plain :=
  match _hg : plainGap? least .empty cur.place cur.rest with
  | none => none
  | some (gap, next) =>
    if stopsPlain flow least next then some ⟨[], gap.endsLine, next⟩
    else
      match _hw : plainWord? flow next.rest with
      | none => none
      | some [] => some ⟨[], gap.endsLine, next⟩
      | some (c :: word) =>
        (plainRest? flow least (next.drop (word.length + 1))).map fun more =>
          { more with text := gap.text ++ c :: word ++ more.text }
termination_by cur.rest.length
decreasing_by
  have h₁ := length_plainGap?_le _hg
  have h₂ := length_plainWord?_le _hw
  rw [Cursor.length_drop]
  simp only [List.length_cons] at h₂
  omega

/-- A plain scalar. On a new line it must stand at column `least` or further in. -/
def plain? (flow : Bool) (least : Nat) (cur : Cursor) : Option Plain :=
  match plainWord? flow cur.rest with
  | none => none
  | some word =>
    (plainRest? flow least (cur.drop word.length)).map fun more =>
      { more with text := word ++ more.text }

end AccessPolicy.Yaml
