/-!
# Lines of a text

`textLines` cuts a text into its lines for display. A line feed ends a line and takes a
carriage return right before it along; a last line without a line feed keeps what it
has, and a line feed at the very end opens no further line.
-/

namespace AccessPolicy

/-- A line without the carriage return that may end it. -/
def dropReturn (line : List Char) : List Char :=
  if line.getLast? = some '\r' then line.dropLast else line

/-- The lines of a text, without the characters that end them. -/
def textLines (cs : List Char) : List (List Char) :=
  if cs = [] then []
  else
    match _h : cs.dropWhile (· ≠ '\n') with
    | [] => [cs]
    | _ :: rest => dropReturn (cs.takeWhile (· ≠ '\n')) :: textLines rest
termination_by cs.length
decreasing_by
  have := (List.dropWhile_sublist (· ≠ '\n') (l := cs)).length_le
  rw [_h] at this
  simp only [List.length_cons] at this
  omega

end AccessPolicy
