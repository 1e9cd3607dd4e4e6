/-!
# Sorted indexes

An `Index` keeps values under string keys, in the order of the keys and each key once. The
order is part of the type. Strings are ordered by their characters, which is the order of
their UTF-8 bytes. Setting a key changes what is found under it and under no other
(`Index.find?_insert`).
-/

namespace AccessPolicy

/-- Entries with `key` set to `a`, in the order of the keys. -/
def insertEntry {α : Type} (key : String) (a : α) : List (String × α) → List (String × α)
  | [] => [(key, a)]
  | (k, b) :: rest =>
    if key < k then (key, a) :: (k, b) :: rest
    else if key = k then (key, a) :: rest
    else (k, b) :: insertEntry key a rest

theorem mem_insertEntry {α : Type} {key : String} {a : α} {es : List (String × α)}
    {e : String × α} (h : e ∈ insertEntry key a es) : e = (key, a) ∨ e ∈ es := by
  induction es with
  | nil => simpa [insertEntry] using h
  | cons f rest ih =>
    unfold insertEntry at h
    split at h
    · exact List.mem_cons.mp h
    split at h
    · rcases List.mem_cons.mp h with h | h
      · exact .inl h
      · exact .inr (List.mem_cons_of_mem _ h)
    · rcases List.mem_cons.mp h with rfl | h
      · exact .inr List.mem_cons_self
      · rcases ih h with h | h
        · exact .inl h
        · exact .inr (List.mem_cons_of_mem _ h)

theorem sorted_insertEntry {α : Type} (key : String) (a : α) {es : List (String × α)}
    (h : es.Pairwise fun e f => e.1 < f.1) :
    (insertEntry key a es).Pairwise fun e f => e.1 < f.1 := by
  induction es with
  | nil => simp [insertEntry]
  | cons f rest ih =>
    obtain ⟨k, b⟩ := f
    obtain ⟨hk, hr⟩ := List.pairwise_cons.mp h
    unfold insertEntry
    split
    · next hlt =>
      refine List.pairwise_cons.mpr ⟨fun e he => ?_, h⟩
      rcases List.mem_cons.mp he with rfl | he
      · exact hlt
      · exact String.lt_trans hlt (hk e he)
    split
    · next heq =>
      subst heq
      exact List.pairwise_cons.mpr ⟨hk, hr⟩
    · next hge hne =>
      refine List.pairwise_cons.mpr ⟨fun e he => ?_, ih hr⟩
      rcases mem_insertEntry he with rfl | he
      · exact Std.lt_of_le_of_ne (String.not_lt.mp hge) (Ne.symm hne)
      · exact hk e he

theorem lookup_cons_entry (k x : String) (b : α) (es : List (String × α)) :
    ((x, b) :: es).lookup k = if k = x then some b else es.lookup k := by
  by_cases h : k = x
  · rw [if_pos h, h, List.lookup_cons_self]
  · rw [if_neg h, List.lookup_cons, beq_eq_false_iff_ne.mpr h]

theorem lookup_insertEntry (key k : String) (a : α) (es : List (String × α)) :
    (insertEntry key a es).lookup k = if k = key then some a else es.lookup k := by
  induction es with
  | nil => rw [insertEntry, lookup_cons_entry]
  | cons e es ih =>
    obtain ⟨x, b⟩ := e
    rw [insertEntry]
    split
    · rw [lookup_cons_entry]
    split
    · next heq =>
      subst heq
      rw [lookup_cons_entry, lookup_cons_entry]
      exact ite_congr rfl (fun _ => rfl) fun hk => (if_neg hk).symm
    · next hne =>
      rw [lookup_cons_entry, lookup_cons_entry, ih]
      by_cases hx : k = x
      · rw [if_pos hx, if_pos hx, if_neg fun hk => hne (hk.symm.trans hx)]
      · rw [if_neg hx, if_neg hx]

/-- Values under string keys, in the order of the keys. -/
structure Index (α : Type) where
  /-- The keys with their values. -/
  entries : List (String × α)
  /-- The keys strictly increase. -/
  sorted : entries.Pairwise fun e f => e.1 < f.1
deriving DecidableEq, Repr

namespace Index

variable {α : Type}

/-- No entries. -/
def empty : Index α :=
  ⟨[], .nil⟩

/-- The index with `key` set to `a`. -/
def insert (i : Index α) (key : String) (a : α) : Index α :=
  ⟨insertEntry key a i.entries, sorted_insertEntry key a i.sorted⟩

/-- The value under `key`. -/
def find? (i : Index α) (key : String) : Option α :=
  i.entries.lookup key

@[simp] theorem find?_empty (key : String) : (empty : Index α).find? key = none := rfl

theorem find?_insert (i : Index α) (key k : String) (a : α) :
    (i.insert key a).find? k = if k = key then some a else i.find? k :=
  lookup_insertEntry key k a i.entries

/-- The keys, in order. -/
def keys (i : Index α) : List String :=
  i.entries.map Prod.fst

end Index

end AccessPolicy
