import AccessPolicy.Analysis.Similarity
import Mathlib.Data.Prod.Lex
import Mathlib.Data.String.Basic

/-!
# The best suggestion

`closest` goes through the candidates and keeps the better of two each time. What is better is a
linear order (`suggestionRank`), so the name kept in the end is the least of those that can be
suggested (`closest_eq_some_iff`), and candidates that are the same names in another order, or more
often, have the same best one (`closest_congr`).
-/

namespace AccessPolicy

/-- What candidates for `name` are compared by : the distance, then the number of bytes, then the
characters. -/
def suggestionRank (name candidate : String) : ℕ ×ₗ ℕ ×ₗ String :=
  toLex (nameDistance name candidate, toLex (candidate.utf8ByteSize, candidate))

variable {name : String}

theorem suggestionRank_injective : Function.Injective (suggestionRank name) :=
  fun _ _ h => congrArg (fun r => (ofLex (ofLex r).2).2) h

theorem betterFor_iff {a b : String} :
    betterFor name a b = true ↔ suggestionRank name a < suggestionRank name b := by
  simp [betterFor, suggestionRank, Prod.Lex.toLex_lt_toLex]

/-- The name kept after one more candidate. -/
def keepBetter (name : String) (best : Option String) (c : String) : Option String :=
  match best with
  | none => some c
  | some b => if betterFor name c b then some c else some b

theorem closest_eq (hname : name ≠ "") (candidates : List String) :
    closest name candidates =
      (candidates.filter (eligibleFor name)).foldl (keepBetter name) none :=
  if_neg hname

/-- The better of two names is one of them and no worse than either. -/
theorem exists_keepBetter (name b c : String) :
    ∃ d, keepBetter name (some b) c = some d ∧ (d = b ∨ d = c) ∧
      suggestionRank name d ≤ suggestionRank name b ∧
      suggestionRank name d ≤ suggestionRank name c := by
  by_cases h : betterFor name c b = true
  · exact ⟨c, if_pos h, .inr rfl, (betterFor_iff.mp h).le, le_rfl⟩
  · exact ⟨b, if_neg h, .inl rfl, le_rfl, not_lt.mp (mt betterFor_iff.mpr h)⟩

/-- A name that is kept to the end is the first or a later one, and no worse than any. -/
theorem exists_foldl_keepBetter (name b : String) (cs : List String) :
    ∃ d, cs.foldl (keepBetter name) (some b) = some d ∧ d ∈ b :: cs ∧
      ∀ c ∈ b :: cs, suggestionRank name d ≤ suggestionRank name c := by
  induction cs generalizing b with
  | nil => exact ⟨b, rfl, List.mem_cons_self, by simp⟩
  | cons c cs ih =>
    obtain ⟨e, hkeep, he, hle, hlec⟩ := exists_keepBetter name b c
    obtain ⟨d, hfold, hmem, hleast⟩ := ih e
    have hde : suggestionRank name d ≤ suggestionRank name e := hleast e List.mem_cons_self
    refine ⟨d, by rw [List.foldl_cons, hkeep, hfold], ?_, ?_⟩
    · rcases List.mem_cons.mp hmem with rfl | hd
      · rcases he with rfl | rfl <;> simp
      · simp [hd]
    · intro x hx
      rcases List.mem_cons.mp hx with rfl | hx
      · exact hde.trans hle
      rcases List.mem_cons.mp hx with rfl | hx
      · exact hde.trans hlec
      · exact hleast x (List.mem_cons_of_mem e hx)

/-- The suggestion for a name is the best of the candidates that can be suggested for it. -/
theorem closest_eq_some_iff {candidates : List String} {c : String} :
    closest name candidates = some c ↔ name ≠ "" ∧ c ∈ candidates.filter (eligibleFor name) ∧
      ∀ d ∈ candidates.filter (eligibleFor name),
        suggestionRank name c ≤ suggestionRank name d := by
  by_cases hname : name = ""
  · simp [closest, hname]
  rw [closest_eq hname]
  cases hfound : candidates.filter (eligibleFor name) with
  | nil => simp
  | cons b cs =>
    obtain ⟨d, hfold, hmem, hleast⟩ := exists_foldl_keepBetter name b cs
    have hkeep : (b :: cs).foldl (keepBetter name) none = some d := hfold
    rw [hkeep, Option.some.injEq]
    refine ⟨?_, ?_⟩
    · rintro rfl
      exact ⟨hname, hmem, hleast⟩
    · rintro ⟨-, hc, hbest⟩
      exact suggestionRank_injective (le_antisymm (hleast c hc) (hbest d hmem))

/-- Neither the order of the candidates nor how often they occur counts. -/
theorem closest_congr {cs ds : List String} (h : ∀ c, c ∈ cs ↔ c ∈ ds) :
    closest name cs = closest name ds := by
  refine Option.ext fun c => ?_
  simp only [closest_eq_some_iff, List.mem_filter, h]

end AccessPolicy
