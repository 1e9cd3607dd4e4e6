import AccessPolicy.Proofs.Analysis.EditDistance
import AccessPolicy.Proofs.Analysis.Suggestion
import AccessPolicy.Proofs.Text.Bytes

/-!
# The nearest name

Which name should be suggested is said here by scripts and bytes : a candidate must be within the
number of edits that the length of the needle allows (`Suggestible`), and of those the least is
taken by edits, then by the number of bytes, then by the bytes (`nearness`). `closest` compares
distances worked out by rows and texts by their characters, which comes to the same
(`suggestionRank_le_iff`), so it finds that name (`closest_exact`).
-/

namespace AccessPolicy

/-- A name of some characters can be misspelled by `n` edits. -/
def AllowsEdits (length n : ℕ) : Prop :=
  n ≤ 1 ∨ 3 < length ∧ n ≤ 2 ∨ 6 < length ∧ n ≤ 3 ∨ 10 < length ∧ n ≤ 4

/-- A candidate can be suggested for `needle` : it is some other name that is near enough. -/
def Suggestible (needle c : String) : Prop :=
  c ≠ "" ∧ c ≠ needle ∧ AllowsEdits needle.length (leastEdits needle.toList c.toList)

/-- What candidates for `needle` should be compared by : the least number of edits, then the number
of bytes, then the bytes. -/
noncomputable def nearness (needle c : String) : ℕ ×ₗ ℕ ×ₗ List ℕ :=
  toLex (leastEdits needle.toList c.toList, toLex ((utf8Bytes c).length, utf8Bytes c))

variable {needle c d : String} {candidates : List String}

theorem le_distanceLimit_iff {length n : ℕ} : n ≤ distanceLimit length ↔ AllowsEdits length n := by
  unfold distanceLimit AllowsEdits
  split_ifs <;> omega

theorem nameDistance_eq (a b : String) : nameDistance a b = leastEdits a.toList b.toList :=
  editDistance_eq_leastEdits _ _

theorem eligibleFor_iff : eligibleFor needle c = true ↔ Suggestible needle c := by
  simp [eligibleFor, Suggestible, nameDistance_eq, le_distanceLimit_iff, and_assoc]

theorem mem_filter_eligibleFor_iff :
    c ∈ candidates.filter (eligibleFor needle) ↔ c ∈ candidates ∧ Suggestible needle c := by
  rw [List.mem_filter, eligibleFor_iff]

theorem suggestionRank_le_iff :
    suggestionRank needle c ≤ suggestionRank needle d ↔ nearness needle c ≤ nearness needle d := by
  simp only [suggestionRank, nearness, Prod.Lex.toLex_le_toLex, nameDistance_eq, length_utf8Bytes,
    utf8Bytes_le_iff]

theorem closest_eq_none_iff :
    closest needle candidates = none ↔
      needle = "" ∨ candidates.filter (eligibleFor needle) = [] := by
  by_cases hneedle : needle = ""
  · simp [closest, hneedle]
  rw [closest_eq hneedle, or_iff_right hneedle]
  cases hfound : candidates.filter (eligibleFor needle) with
  | nil => simp
  | cons b cs =>
    obtain ⟨d, hfold, -, -⟩ := exists_foldl_keepBetter needle b cs
    have hkeep : (b :: cs).foldl (keepBetter needle) none = some d := hfold
    simp [hkeep]

/-- Nothing is suggested if no candidate is near enough, and otherwise the nearest candidate is,
whatever the order of the candidates and however often they occur. How near one is goes by the
shortest script of edits, and there always is one. -/
theorem closest_exact (needle : String) (candidates : List String) :
    (∀ s t, IsLeast {n | Edits n s t} (leastEdits s t)) ∧
    (closest needle candidates = none ↔
      needle = "" ∨ ∀ c ∈ candidates, ¬ Suggestible needle c) ∧
    (∀ c, closest needle candidates = some c ↔
      needle ≠ "" ∧ c ∈ candidates ∧ Suggestible needle c ∧
        ∀ d ∈ candidates, Suggestible needle d → nearness needle c ≤ nearness needle d) ∧
    ∀ others : List String, (∀ c, c ∈ others ↔ c ∈ candidates) →
      closest needle others = closest needle candidates := by
  refine ⟨isLeast_leastEdits, ?_, fun c => ?_, fun others h => closest_congr h⟩
  · simp only [closest_eq_none_iff, List.filter_eq_nil_iff, eligibleFor_iff]
  · simp only [closest_eq_some_iff, mem_filter_eligibleFor_iff, suggestionRank_le_iff, and_imp,
      and_assoc]

/-- Of two names as near as each other and of as many bytes, the first by its bytes is taken, though
it has more characters. -/
example : closest "ab" ["aé", "axb"] = some "axb" := by decide +kernel

end AccessPolicy
