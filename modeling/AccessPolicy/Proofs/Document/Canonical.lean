import AccessPolicy.Document.Basic
import AccessPolicy.Proofs.Analysis.Index

/-!
# Documents in canonical form

Two objects with the same value under every key are the same object of the data format, in whatever
order their fields stand and whatever stood in a field that was given again. `Document.canonical`
puts the fields of every object in the order of the keys and keeps the last of those with one key.
An object in this form is determined by what it has under each key (`eq_of_lookup`).
-/

namespace AccessPolicy

namespace Document

mutual

/-- The document with the fields of every object in the order of their keys, each key once. -/
def canonical : Document → Document
  | list items => list (canonicalItems items)
  | object fields => object (canonicalFields [] fields)
  | d => d

/-- Items in canonical form. -/
def canonicalItems : List Document → List Document
  | [] => []
  | d :: ds => d.canonical :: canonicalItems ds

/-- Fields in canonical form, put in among the entries before them. -/
def canonicalFields (before : List (String × Document)) :
    List (String × Document) → List (String × Document)
  | [] => before
  | (key, d) :: fs => canonicalFields (insertEntry key d.canonical before) fs

end

variable {before fields entries : List (String × Document)}

theorem canonicalItems_eq_map (ds : List Document) : canonicalItems ds = ds.map canonical := by
  induction ds with
  | nil => rfl
  | cons d ds ih => rw [canonicalItems, ih, List.map_cons]

theorem sorted_canonicalFields (h : before.Pairwise fun e f => e.1 < f.1) :
    (canonicalFields before fields).Pairwise fun e f => e.1 < f.1 := by
  induction fields generalizing before with
  | nil => exact h
  | cons f fs ih => exact ih (sorted_insertEntry f.1 f.2.canonical h)

/-- The last field with a key is found before any entry that was there. -/
theorem lookup_canonicalFields (key : String) :
    (canonicalFields before fields).lookup key =
      ((lastField? key fields).map canonical).or (before.lookup key) := by
  induction fields generalizing before with
  | nil => rfl
  | cons f fs ih =>
    obtain ⟨k, d⟩ := f
    rw [canonicalFields, ih, lookup_insertEntry, lastField?]
    cases lastField? key fs with
    | some c => rfl
    | none =>
      by_cases hk : k = key
      · simp [hk]
      · simp [hk, Ne.symm hk]

/-- An object is known in canonical form from what it has under each key. -/
theorem canonical_object_eq (hsorted : entries.Pairwise fun e f => e.1 < f.1)
    (h : ∀ key, (lastField? key fields).map canonical = entries.lookup key) :
    (object fields).canonical = object entries := by
  rw [canonical]
  refine congrArg object (eq_of_lookup (sorted_canonicalFields .nil) hsorted fun key => ?_)
  rw [lookup_canonicalFields, h]
  exact Option.or_none

theorem lastField?_eq_lookup (h : fields.Pairwise fun e f => e.1 < f.1) (key : String) :
    lastField? key fields = fields.lookup key := by
  induction fields with
  | nil => rfl
  | cons f fs ih =>
    obtain ⟨hf, hfs⟩ := List.pairwise_cons.mp h
    obtain ⟨k, d⟩ := f
    rw [lastField?, ih hfs, lookup_cons_entry]
    by_cases hk : k = key
    · subst hk
      have hfresh : fs.lookup k = none := Option.eq_none_iff_forall_ne_some.mpr fun c hc =>
        lt_irrefl k (hf (k, c) ((mem_iff_lookup hfs (k, c)).mpr hc))
      simp [hfresh]
    · simp [hk, Ne.symm hk]

theorem lastField?_canonicalFields (key : String) :
    lastField? key (canonicalFields [] fields) = (lastField? key fields).map canonical := by
  rw [lastField?_eq_lookup (sorted_canonicalFields .nil), lookup_canonicalFields]
  exact Option.or_none

end Document

end AccessPolicy
