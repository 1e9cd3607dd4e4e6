/-!
# Similar names

`editDistance` is the least number of characters to insert, delete or replace to turn one text
into another, worked out row by row : the row of a prefix holds its distances to all prefixes of
the other text. `closest` picks the name to suggest for a misspelled one : the nearest within a
limit that grows with the length of the name, a shorter name before a longer and then the first
in order.
-/

namespace AccessPolicy

/-- The rest of the row for a text that ends in `c`, from the row of the text without it. `corner`
and `above` are the entries of that row at the last and the next places, `left` the entry just
worked out. -/
def nextEntries (c : Char) : List Char → (corner left : Nat) → (above : List Nat) → List Nat
  | d :: ds, corner, left, up :: ups =>
    let entry := min (min (left + 1) (up + 1)) (corner + if c = d then 0 else 1)
    entry :: nextEntries c ds up entry ups
  | _, _, _, _ => []

/-- The row below `row`, for one more character of the first text. -/
def nextRow (target : List Char) (row : List Nat) (c : Char) : List Nat :=
  match row with
  | [] => []
  | corner :: above => (corner + 1) :: nextEntries c target corner (corner + 1) above

/-- The least number of single-character edits from `source` to `target`. -/
def editDistance (source target : List Char) : Nat :=
  ((source.foldl (nextRow target) (List.range (target.length + 1))).getLast?).getD 0

/-- The greatest distance at which a name of `length` characters has a suggestion. -/
def distanceLimit (length : Nat) : Nat :=
  if length ≤ 3 then 1
  else if length ≤ 6 then 2
  else if length ≤ 10 then 3
  else 4

/-- The distance between two names. -/
def nameDistance (a b : String) : Nat :=
  editDistance a.toList b.toList

/-- Whether `a` is a better suggestion for `name` than `b`. -/
def betterFor (name a b : String) : Bool :=
  let da := nameDistance name a
  let db := nameDistance name b
  da < db || da = db &&
    (a.utf8ByteSize < b.utf8ByteSize || a.utf8ByteSize = b.utf8ByteSize && a < b)

/-- Whether a candidate can be suggested for `name` at all. -/
def eligibleFor (name candidate : String) : Bool :=
  candidate ≠ "" && candidate ≠ name && nameDistance name candidate ≤ distanceLimit name.length

/-- The best suggestion among the candidates, if any can be suggested. -/
def closest (name : String) (candidates : List String) : Option String :=
  if name = "" then none
  else
    (candidates.filter (eligibleFor name)).foldl
      (fun best c =>
        match best with
        | none => some c
        | some b => if betterFor name c b then some c else some b)
      none

end AccessPolicy
