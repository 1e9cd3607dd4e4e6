import AccessPolicy.Analysis.Similarity
import Mathlib.Order.Lattice.Nat

/-!
# Edit distance

An `Edit` puts in, takes out or replaces one character of a text, and `Edits n` is a script of `n`
edits one after the other. `editDistance` never looks at scripts : it works out rows of distances
between the beginnings of two texts. Between the two stands `scriptDistance`, the recursion on how
the texts begin. A row holds the script distances of reversed beginnings (`nextRow_scriptRow`), no
edit changes a script distance by more than one (`Edit.scriptDistance_le`), and a script of that
length can be read off the recursion (`edits_scriptDistance`). So the edit distance is the least
number of edits (`isLeast_editDistance`).
-/

namespace AccessPolicy

/-! ## Scripts -/

/-- One character is put in, taken out or replaced. -/
inductive Edit : List Char → List Char → Prop
  | insert (before after : List Char) (c : Char) : Edit (before ++ after) (before ++ c :: after)
  | delete (before after : List Char) (c : Char) : Edit (before ++ c :: after) (before ++ after)
  | replace (before after : List Char) (c d : Char) :
    Edit (before ++ c :: after) (before ++ d :: after)

/-- A number of edits turn one text into another. -/
inductive Edits : ℕ → List Char → List Char → Prop
  | done (s : List Char) : Edits 0 s s
  | step {n : ℕ} {s t u : List Char} (first : Edit s t) (more : Edits n t u) : Edits (n + 1) s u

/-- The least number of edits that turn one text into another. -/
noncomputable def leastEdits (s t : List Char) : ℕ :=
  sInf {n | Edits n s t}

variable {s t u : List Char} {n : ℕ}

theorem Edit.cons (h : Edit s t) (c : Char) : Edit (c :: s) (c :: t) := by
  cases h with
  | insert before after d => exact .insert (c :: before) after d
  | delete before after d => exact .delete (c :: before) after d
  | replace before after d e => exact .replace (c :: before) after d e

theorem Edits.cons (h : Edits n s t) (c : Char) : Edits n (c :: s) (c :: t) := by
  induction h with
  | done s => exact .done (c :: s)
  | step first _ ih => exact .step (first.cons c) ih

theorem Edit.reverse (h : Edit s t) : Edit s.reverse t.reverse := by
  cases h with
  | insert before after c => simpa using Edit.insert after.reverse before.reverse c
  | delete before after c => simpa using Edit.delete after.reverse before.reverse c
  | replace before after c d => simpa using Edit.replace after.reverse before.reverse c d

theorem Edits.reverse (h : Edits n s t) : Edits n s.reverse t.reverse := by
  induction h with
  | done s => exact .done s.reverse
  | step first _ ih => exact .step first.reverse ih

theorem edits_reverse_iff : Edits n s.reverse t.reverse ↔ Edits n s t :=
  ⟨fun h => by simpa using h.reverse, Edits.reverse⟩

/-! ## Distances by recursion -/

/-- The least number of edits between two texts, from how they begin : the first character of one is
put in or taken out, or the first characters are matched. -/
def scriptDistance : List Char → List Char → ℕ
  | [], t => t.length
  | _ :: s, [] => s.length + 1
  | c :: s, d :: t =>
    min (min (scriptDistance (c :: s) t + 1) (scriptDistance s (d :: t) + 1))
      (scriptDistance s t + if c = d then 0 else 1)
termination_by s t => s.length + t.length

@[simp] theorem scriptDistance_nil_left (t : List Char) : scriptDistance [] t = t.length := by
  rw [scriptDistance]

@[simp] theorem scriptDistance_nil_right (s : List Char) : scriptDistance s [] = s.length := by
  cases s with
  | nil => rw [scriptDistance_nil_left]
  | cons c s => rw [scriptDistance, List.length_cons]

theorem scriptDistance_cons_cons (c d : Char) (s t : List Char) :
    scriptDistance (c :: s) (d :: t) =
      min (min (scriptDistance (c :: s) t + 1) (scriptDistance s (d :: t) + 1))
        (scriptDistance s t + if c = d then 0 else 1) := by
  rw [scriptDistance]

theorem scriptDistance_self (s : List Char) : scriptDistance s s = 0 := by
  induction s with
  | nil => rw [scriptDistance_nil_left, List.length_nil]
  | cons c s ih => simp [scriptDistance_cons_cons, ih]

/-! ### One edit changes a distance by one at most -/

theorem scriptDistance_cons_left_le (c : Char) (s t : List Char) :
    scriptDistance (c :: s) t ≤ scriptDistance s t + 1 := by
  cases t with
  | nil => simp
  | cons d t =>
    rw [scriptDistance_cons_cons]
    omega

theorem scriptDistance_cons_right_le (d : Char) (s t : List Char) :
    scriptDistance s (d :: t) ≤ scriptDistance s t + 1 := by
  cases s with
  | nil => simp
  | cons c s =>
    rw [scriptDistance_cons_cons]
    omega

theorem scriptDistance_le_cons_left (c : Char) (s t : List Char) :
    scriptDistance s t ≤ scriptDistance (c :: s) t + 1 := by
  induction t with
  | nil => simpa using by omega
  | cons d t ih =>
    have hright := scriptDistance_cons_right_le d s t
    rw [scriptDistance_cons_cons]
    omega

theorem scriptDistance_replace_le (c d : Char) (s t : List Char) :
    scriptDistance (c :: s) t ≤ scriptDistance (d :: s) t + 1 := by
  induction t with
  | nil => simp
  | cons e t ih =>
    have hcost : (if c = e then 0 else 1) ≤ (if d = e then 0 else 1) + 1 := by split <;> omega
    rw [scriptDistance_cons_cons, scriptDistance_cons_cons d]
    omega

/-- What holds behind a common first character holds with it. -/
theorem scriptDistance_cons_le_cons (h : ∀ u, scriptDistance s u ≤ scriptDistance t u + 1)
    (c : Char) (u : List Char) :
    scriptDistance (c :: s) u ≤ scriptDistance (c :: t) u + 1 := by
  induction u with
  | nil => simpa using h []
  | cons d u ih =>
    have hwhole := h (d :: u)
    have hrest := h u
    rw [scriptDistance_cons_cons, scriptDistance_cons_cons c d t]
    omega

theorem scriptDistance_append_le_append
    (h : ∀ u, scriptDistance s u ≤ scriptDistance t u + 1) (before u : List Char) :
    scriptDistance (before ++ s) u ≤ scriptDistance (before ++ t) u + 1 := by
  induction before generalizing u with
  | nil => exact h u
  | cons c before ih => exact scriptDistance_cons_le_cons ih c u

theorem Edit.scriptDistance_le (h : Edit s t) (u : List Char) :
    scriptDistance s u ≤ scriptDistance t u + 1 := by
  cases h with
  | insert before after c =>
    exact scriptDistance_append_le_append (scriptDistance_le_cons_left c after) before u
  | delete before after c =>
    exact scriptDistance_append_le_append (scriptDistance_cons_left_le c after) before u
  | replace before after c d =>
    exact scriptDistance_append_le_append (scriptDistance_replace_le c d after) before u

/-- A script is no shorter than the distance of its ends. -/
theorem Edits.scriptDistance_le (h : Edits n s t) : scriptDistance s t ≤ n := by
  induction h with
  | done s => exact (scriptDistance_self s).le
  | step first _ ih => exact (first.scriptDistance_le _).trans (Nat.succ_le_succ ih)

/-! ### A shortest script -/

theorem edits_nil_left (t : List Char) : Edits t.length [] t := by
  induction t with
  | nil => exact .done []
  | cons d t ih => exact .step (.insert [] [] d) (ih.cons d)

theorem edits_nil_right (s : List Char) : Edits s.length s [] := by
  induction s with
  | nil => exact .done []
  | cons c s ih => exact .step (.delete [] s c) ih

/-- There is a script as long as the distance. -/
theorem edits_scriptDistance (s t : List Char) : Edits (scriptDistance s t) s t := by
  induction s, t using scriptDistance.induct with
  | case1 t => simpa using edits_nil_left t
  | case2 c s => simpa using edits_nil_right (c :: s)
  | case3 c s d t ihInsert ihDelete ihMatch =>
    have hinsert : Edits (scriptDistance (c :: s) t + 1) (c :: s) (d :: t) :=
      .step (.insert [] (c :: s) d) (ihInsert.cons d)
    have hdelete : Edits (scriptDistance s (d :: t) + 1) (c :: s) (d :: t) :=
      .step (.delete [] s c) ihDelete
    have hmatch : Edits (scriptDistance s t + if c = d then 0 else 1) (c :: s) (d :: t) := by
      by_cases hcd : c = d
      · subst hcd
        simpa using ihMatch.cons c
      · rw [if_neg hcd]
        exact .step (.replace [] s c d) (ihMatch.cons d)
    -- The distance is the least of the three, so one of them is the script.
    rw [scriptDistance_cons_cons]
    rcases min_choice (min (scriptDistance (c :: s) t + 1) (scriptDistance s (d :: t) + 1))
      (scriptDistance s t + if c = d then 0 else 1) with h | h
    · rw [h]
      rcases min_choice (scriptDistance (c :: s) t + 1) (scriptDistance s (d :: t) + 1)
        with h | h <;> rw [h] <;> assumption
    · rw [h]
      exact hmatch

theorem isLeast_scriptDistance (s t : List Char) :
    IsLeast {n | Edits n s t} (scriptDistance s t) :=
  ⟨edits_scriptDistance s t, fun _ h => h.scriptDistance_le⟩

/-! ## Distances by rows -/

/-- The distances from a reversed text to the extensions of another by some characters. -/
def scriptEntries (s t : List Char) : List Char → List ℕ
  | [] => []
  | d :: ds => scriptDistance s (d :: t) :: scriptEntries s (d :: t) ds

/-- The row of a reversed text holds its distances to all beginnings of the other text. -/
def scriptRow (s target : List Char) : List ℕ :=
  scriptDistance s [] :: scriptEntries s [] target

theorem nextEntries_scriptEntries (c : Char) (s t ds : List Char) :
    nextEntries c ds (scriptDistance s t) (scriptDistance (c :: s) t) (scriptEntries s t ds) =
      scriptEntries (c :: s) t ds := by
  induction ds generalizing t with
  | nil => rfl
  | cons d ds ih =>
    rw [scriptEntries, nextEntries, scriptEntries, ← scriptDistance_cons_cons, ih]

theorem nextRow_scriptRow (c : Char) (s target : List Char) :
    nextRow target (scriptRow s target) c = scriptRow (c :: s) target := by
  have hcorner : scriptDistance s [] + 1 = scriptDistance (c :: s) [] := by simp
  rw [scriptRow, nextRow, hcorner, nextEntries_scriptEntries, scriptRow]

theorem foldl_nextRow_scriptRow (s source target : List Char) :
    source.foldl (nextRow target) (scriptRow s target) =
      scriptRow (source.reverse ++ s) target := by
  induction source generalizing s with
  | nil => rfl
  | cons c source ih => rw [List.foldl_cons, nextRow_scriptRow, ih]; simp

theorem range'_eq_scriptEntries (t target : List Char) :
    List.range' (t.length + 1) target.length = scriptEntries [] t target := by
  induction target generalizing t with
  | nil => rfl
  | cons d target ih =>
    rw [scriptEntries, List.length_cons, List.range'_succ, scriptDistance_nil_left, ← ih]
    rfl

theorem range_eq_scriptRow (target : List Char) :
    List.range (target.length + 1) = scriptRow [] target := by
  rw [scriptRow, ← range'_eq_scriptEntries, List.range_eq_range', List.range'_succ,
    scriptDistance_nil_left]
  rfl

theorem getLast?_scriptEntries (s t ds : List Char) :
    (scriptDistance s t :: scriptEntries s t ds).getLast? =
      some (scriptDistance s (ds.reverse ++ t)) := by
  induction ds generalizing t with
  | nil => rfl
  | cons d ds ih =>
    rw [scriptEntries, List.getLast?_cons_cons, ih]
    simp

theorem editDistance_eq_scriptDistance (source target : List Char) :
    editDistance source target = scriptDistance source.reverse target.reverse := by
  rw [editDistance, range_eq_scriptRow, foldl_nextRow_scriptRow, scriptRow,
    getLast?_scriptEntries]
  simp

/-- The edit distance is the length of a shortest script. -/
theorem isLeast_editDistance (s t : List Char) : IsLeast {n | Edits n s t} (editDistance s t) := by
  have h := isLeast_scriptDistance s.reverse t.reverse
  simpa only [edits_reverse_iff, ← editDistance_eq_scriptDistance] using h

theorem editDistance_eq_leastEdits (s t : List Char) : editDistance s t = leastEdits s t :=
  (isLeast_editDistance s t).csInf_eq.symm

/-- Every text can be turned into every other, so there is a least number of edits. -/
theorem isLeast_leastEdits (s t : List Char) : IsLeast {n | Edits n s t} (leastEdits s t) :=
  editDistance_eq_leastEdits s t ▸ isLeast_editDistance s t

end AccessPolicy
