/-!
# Spans

A span is what `takeWhile` takes of a list, and `dropWhile` leaves what comes after it. When a
list is put together from a span and something that does not go on with it, the two find the
parts again.
-/

namespace AccessPolicy

variable {α : Type} {p : α → Bool} {as rest : List α}

theorem takeWhile_of_head? (h : ∀ a ∈ rest.head?, p a = false) : rest.takeWhile p = [] := by
  cases rest with
  | nil => rfl
  | cons a rest => exact List.takeWhile_cons_of_neg (by simp [h a rfl])

theorem dropWhile_of_head? (h : ∀ a ∈ rest.head?, p a = false) : rest.dropWhile p = rest := by
  cases rest with
  | nil => rfl
  | cons a rest => exact List.dropWhile_cons_of_neg (by simp [h a rfl])

theorem takeWhile_append_of_head? (has : ∀ a ∈ as, p a = true)
    (h : ∀ a ∈ rest.head?, p a = false) : (as ++ rest).takeWhile p = as := by
  rw [List.takeWhile_append_of_pos has, takeWhile_of_head? h, List.append_nil]

theorem dropWhile_append_of_head? (has : ∀ a ∈ as, p a = true)
    (h : ∀ a ∈ rest.head?, p a = false) : (as ++ rest).dropWhile p = rest := by
  rw [List.dropWhile_append_of_pos has, dropWhile_of_head? h]

theorem takeWhile_append_cons {a : α} (ha : p a = false) (as rest : List α) :
    (as ++ a :: rest).takeWhile p = as.takeWhile p := by
  induction as with
  | nil => exact List.takeWhile_cons_of_neg (by simp [ha])
  | cons b as ih =>
    rw [List.cons_append, List.takeWhile_cons, ih, List.takeWhile_cons]

theorem dropWhile_append_cons {a : α} (ha : p a = false) (as rest : List α) :
    (as ++ a :: rest).dropWhile p = as.dropWhile p ++ a :: rest := by
  induction as with
  | nil => exact List.dropWhile_cons_of_neg (by simp [ha])
  | cons b as ih =>
    rw [List.cons_append, List.dropWhile_cons, ih, List.dropWhile_cons]
    split <;> rfl

theorem prefix_takeWhile_append (has : ∀ a ∈ as, p a = true) :
    as <+: (as ++ rest).takeWhile p := by
  rw [List.takeWhile_append_of_pos has]
  exact List.prefix_append _ _

end AccessPolicy
