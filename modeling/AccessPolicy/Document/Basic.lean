/-!
# Documents

A `Document` is a value of a data format : null, truth values, numbers, strings, lists
and objects. Integers are kept apart from all other numbers, which are kept as written
because nothing here computes with them. An object lists its fields in order; if a key
occurs twice, the last occurrence is the one `Document.get?` finds.
-/

namespace AccessPolicy

/-- A value of a data format. -/
inductive Document where
  | null
  | bool (b : Bool)
  | int (n : Int)
  | decimal (written : String)
  | string (s : String)
  | list (items : List Document)
  | object (fields : List (String × Document))
deriving Repr, Inhabited

namespace Document

/-- The value of the last field with a given key. -/
def lastField? (key : String) : List (String × Document) → Option Document
  | [] => none
  | (k, d) :: rest => (lastField? key rest).or (if k = key then some d else none)

/-- The field of an object with a given key. -/
def get? (d : Document) (key : String) : Option Document :=
  match d with
  | object fields => lastField? key fields
  | _ => none

mutual

/-- The number of lists and objects that enclose the innermost value. -/
def depth : Document → Nat
  | list items => depthItems items + 1
  | object fields => depthFields fields + 1
  | _ => 0

/-- The greatest depth of some items. -/
def depthItems : List Document → Nat
  | [] => 0
  | d :: ds => max d.depth (depthItems ds)

/-- The greatest depth of some fields. -/
def depthFields : List (String × Document) → Nat
  | [] => 0
  | (_, d) :: fs => max d.depth (depthFields fs)

end

theorem depthItems_le_iff {k : Nat} {ds : List Document} :
    depthItems ds ≤ k ↔ ∀ d ∈ ds, d.depth ≤ k := by
  induction ds with
  | nil => simp [depthItems]
  | cons d ds ih => rw [depthItems, Nat.max_le, ih, List.forall_mem_cons]

theorem depthFields_le_iff {k : Nat} {fs : List (String × Document)} :
    depthFields fs ≤ k ↔ ∀ f ∈ fs, f.2.depth ≤ k := by
  induction fs with
  | nil => simp [depthFields]
  | cons f fs ih => rw [depthFields, Nat.max_le, ih, List.forall_mem_cons]

end Document

end AccessPolicy
