import AccessPolicy.Analysis.Index
import Mathlib.Data.List.Sort
import Mathlib.Data.String.Basic

/-!
# Entries in the order of their keys

Entries in the order of their keys are known from what is found under each key (`eq_of_lookup`),
and the keys of an index are those that something is found under (`Index.mem_keys_iff`).
-/

namespace AccessPolicy

section Entries

variable {α : Type} {es fs : List (String × α)}

theorem mem_iff_lookup (h : es.Pairwise fun e f => e.1 < f.1) (e : String × α) :
    e ∈ es ↔ es.lookup e.1 = some e.2 := by
  induction es with
  | nil => simp
  | cons f es ih =>
    obtain ⟨hf, hes⟩ := List.pairwise_cons.mp h
    obtain ⟨x, b⟩ := f
    obtain ⟨k, a⟩ := e
    rw [List.mem_cons, ih hes]
    by_cases hk : k = x
    · subst hk
      have hfresh : es.lookup k ≠ some a := fun hlookup =>
        lt_irrefl k (hf (k, a) ((ih hes).mpr hlookup))
      simp [hfresh, eq_comm]
    · simp [lookup_cons_entry, hk]

/-- Entries in the order of their keys are known from what is found under each key. -/
theorem eq_of_lookup (he : es.Pairwise fun e f => e.1 < f.1)
    (hf : fs.Pairwise fun e f => e.1 < f.1) (h : ∀ key, es.lookup key = fs.lookup key) :
    es = fs := by
  have hmem : ∀ e, e ∈ es ↔ e ∈ fs := fun e => by
    rw [mem_iff_lookup he, mem_iff_lookup hf, h]
  have hne : ∀ {gs : List (String × α)}, gs.Pairwise (fun e f => e.1 < f.1) → gs.Nodup :=
    fun hg => hg.imp fun hlt heq => (hlt.ne (congrArg Prod.fst heq)).elim
  have hperm : es.Perm fs := (List.perm_ext_iff_of_nodup (hne he) (hne hf)).mpr hmem
  exact hperm.eq_of_pairwise (fun e f _ _ hef hfe => (lt_asymm hef hfe).elim) he hf

end Entries

namespace Index

variable {α : Type}

theorem mem_keys_iff {i : Index α} {key : String} :
    key ∈ i.keys ↔ ∃ a, i.find? key = some a := by
  rw [keys, List.mem_map]
  refine ⟨?_, ?_⟩
  · rintro ⟨e, he, rfl⟩
    exact ⟨e.2, (mem_iff_lookup i.sorted e).mp he⟩
  · rintro ⟨a, ha⟩
    exact ⟨(key, a), (mem_iff_lookup i.sorted (key, a)).mpr ha, rfl⟩

/-- The keys strictly increase. -/
theorem pairwise_keys (i : Index α) : i.keys.Pairwise (· < ·) :=
  List.pairwise_map.mpr i.sorted

end Index

end AccessPolicy
