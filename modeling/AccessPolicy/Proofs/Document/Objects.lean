import AccessPolicy.Document.Basic
import Mathlib.Data.List.Basic

/-!
# Reading the objects of a document

The values inside a document are found by paths of `Selector`s, and paths have an order in which
they are read : a value comes before what is inside it, items come one after the other, and of the
fields of a node `actions` come before `condition` and `left` before `right`. A document is read as
some objects (`Document.ReadsAs`) if these are all objects in it, at any depth, each once and in
that order. What a list or an object is read as is put together from its parts
(`Document.reads_of_parts`).
-/

namespace AccessPolicy

/-- A step into a document. -/
inductive Selector where
  | field (key : String)
  | item (index : Nat)
deriving DecidableEq, Repr

/-- Of two parts of the same document, the first is read first. -/
inductive Selector.Before : Selector → Selector → Prop
  | item {i j : Nat} (h : i < j) : Before (.item i) (.item j)
  | condition : Before (.field "actions") (.field "condition")
  | right : Before (.field "left") (.field "right")

/-- Of the values at two paths, the first is read first. -/
inductive ReadBefore : List Selector → List Selector → Prop
  | inside (s : Selector) (path : List Selector) : ReadBefore [] (s :: path)
  | parts {s t : Selector} (h : s.Before t) (p q : List Selector) : ReadBefore (s :: p) (t :: q)
  | deeper (s : Selector) {p q : List Selector} (h : ReadBefore p q) : ReadBefore (s :: p) (s :: q)

theorem Selector.Before.ne {s t : Selector} (h : s.Before t) : s ≠ t := by
  cases h with
  | item h => simpa using Nat.ne_of_lt h
  | condition => decide
  | right => decide

theorem ReadBefore.ne {p q : List Selector} (h : ReadBefore p q) : p ≠ q := by
  induction h with
  | inside s path => exact (List.cons_ne_nil s path).symm
  | parts h p q => exact fun heq => h.ne (List.cons.inj heq).1
  | deeper s _ ih => exact fun heq => ih (List.cons.inj heq).2

namespace Document

/-- The part of a document at a selector. -/
def select? (d : Document) : Selector → Option Document
  | .field key => d.get? key
  | .item i =>
    match d with
    | list items => items[i]?
    | _ => none

/-- The value at a path. -/
def follow? (d : Document) : List Selector → Option Document
  | [] => some d
  | s :: path => (d.select? s).bind (·.follow? path)

/-- There is an object at the path. -/
def HasObject (d : Document) (path : List Selector) : Prop :=
  ∃ fields, d.follow? path = some (object fields)

/-- The objects in a document are `os`, in the order of reading, at `places`. -/
structure ReadsAs (d : Document) (places : List (List Selector)) (os : List Document) : Prop where
  ordered : places.Pairwise ReadBefore
  complete : ∀ path, path ∈ places ↔ d.HasObject path
  objects : places.map d.follow? = os.map some

/-- The objects in a document are `os`, in the order of reading. -/
def Reads (d : Document) (os : List Document) : Prop :=
  ∃ places, d.ReadsAs places os

/-- The document itself, if it is an object. -/
def own : Document → List Document
  | object fields => [object fields]
  | _ => []

variable {d c : Document} {fields : List (String × Document)}
  {parts : List (Selector × List Document)}

theorem hasObject_cons_iff {s : Selector} {path : List Selector} :
    d.HasObject (s :: path) ↔ ∃ c, d.select? s = some c ∧ c.HasObject path := by
  unfold HasObject
  rw [follow?]
  simp only [Option.bind_eq_some_iff]
  exact ⟨fun ⟨fields, c, hc, h⟩ => ⟨c, hc, fields, h⟩, fun ⟨c, hc, fields, h⟩ => ⟨fields, c, hc, h⟩⟩

theorem not_hasObject_of_reads_nil (h : d.Reads []) (path : List Selector) :
    ¬ d.HasObject path := by
  obtain ⟨places, hplaces⟩ := h
  have hempty : places = [] := List.map_eq_nil_iff.mp hplaces.objects
  rw [← hplaces.complete, hempty]
  exact List.not_mem_nil

theorem mem_of_lastField? {key : String} (h : lastField? key fields = some c) :
    (key, c) ∈ fields := by
  induction fields with
  | nil => simp [lastField?] at h
  | cons f fs ih =>
    obtain ⟨k, e⟩ := f
    rw [lastField?, Option.or_eq_some_iff] at h
    rcases h with h | ⟨-, h⟩
    · exact List.mem_cons_of_mem _ (ih h)
    · rw [Option.ite_none_right_eq_some] at h
      obtain ⟨rfl, hc⟩ := h
      rw [Option.some.inj hc]
      exact List.mem_cons_self

/-- Parts that are read one by one, in order, are read one after the other. The places in them are
those of the objects that are found through one of the parts. -/
theorem exists_places (hparts : ∀ part ∈ parts, ∃ c, d.select? part.1 = some c ∧ c.Reads part.2)
    (horder : parts.Pairwise fun x y => x.1.Before y.1) :
    ∃ places : List (List Selector), places.Pairwise ReadBefore ∧
      (∀ path, path ∈ places ↔ d.HasObject path ∧ ∃ part ∈ parts, path.head? = some part.1) ∧
      places.map d.follow? = (parts.flatMap Prod.snd).map some := by
  induction parts with
  | nil => exact ⟨[], .nil, by simp, rfl⟩
  | cons part parts ih =>
    obtain ⟨s, os⟩ := part
    obtain ⟨⟨c, hc, inner, hinner⟩, hparts⟩ := List.forall_mem_cons.mp hparts
    obtain ⟨hfirst, horder⟩ := List.pairwise_cons.mp horder
    obtain ⟨places, hordered, hcomplete, hobjects⟩ := ih hparts horder
    refine ⟨inner.map (s :: ·) ++ places, ?_, fun path => ?_, ?_⟩
    · refine List.pairwise_append.mpr ⟨?_, hordered, ?_⟩
      · exact List.pairwise_map.mpr (hinner.ordered.imp fun h => .deeper s h)
      · intro p hp q hq
        obtain ⟨rest, -, rfl⟩ := List.mem_map.mp hp
        obtain ⟨-, part, hpart, hhead⟩ := (hcomplete q).mp hq
        obtain ⟨tail, rfl⟩ := List.head?_eq_some_iff.mp hhead
        exact .parts (hfirst part hpart) rest tail
    · rw [List.mem_append, hcomplete, List.mem_map]
      simp only [List.mem_cons, exists_eq_or_imp, hinner.complete]
      refine ⟨?_, ?_⟩
      · rintro (⟨rest, hrest, rfl⟩ | ⟨hpath, hlater⟩)
        · exact ⟨hasObject_cons_iff.mpr ⟨c, hc, hrest⟩, .inl rfl⟩
        · exact ⟨hpath, .inr hlater⟩
      · rintro ⟨hpath, hhead | hlater⟩
        · obtain ⟨rest, rfl⟩ := List.head?_eq_some_iff.mp hhead
          obtain ⟨c', hc', hrest⟩ := hasObject_cons_iff.mp hpath
          obtain rfl := Option.some.inj (hc'.symm.trans hc)
          exact .inl ⟨rest, hrest, rfl⟩
        · exact .inr ⟨hpath, hlater⟩
    · rw [List.map_append, List.map_map, hobjects, List.flatMap_cons, List.map_append,
        ← hinner.objects]
      refine congrArg (· ++ _) (List.map_congr_left fun rest _ => ?_)
      rw [Function.comp, follow?, hc, Option.bind_some]

/-- A document is read itself first and then part by part, if there are no objects in other
parts. -/
theorem reads_of_parts
    (hparts : ∀ part ∈ parts, ∃ c, d.select? part.1 = some c ∧ c.Reads part.2)
    (hothers : ∀ s c, d.select? s = some c → (∀ part ∈ parts, s ≠ part.1) → c.Reads [])
    (horder : parts.Pairwise fun x y => x.1.Before y.1) :
    d.Reads (d.own ++ parts.flatMap Prod.snd) := by
  obtain ⟨places, hordered, hcomplete, hobjects⟩ := exists_places hparts horder
  have hnonempty : ∀ path ∈ places, ∃ s rest, path = s :: rest := by
    intro path hpath
    obtain ⟨-, part, -, hhead⟩ := (hcomplete path).mp hpath
    obtain ⟨rest, rfl⟩ := List.head?_eq_some_iff.mp hhead
    exact ⟨_, rest, rfl⟩
  have hinside : ∀ s rest, d.HasObject (s :: rest) → s :: rest ∈ places := by
    intro s rest h
    refine (hcomplete _).mpr ⟨h, ?_⟩
    by_contra hnone
    obtain ⟨c, hc, hobject⟩ := hasObject_cons_iff.mp h
    have hreads : c.Reads [] := hothers s c hc fun part hpart heq =>
      hnone ⟨part, hpart, congrArg some heq⟩
    exact not_hasObject_of_reads_nil hreads rest hobject
  cases d with
  | object fields =>
    refine ⟨[] :: places, List.pairwise_cons.mpr ⟨?_, hordered⟩, fun path => ?_, ?_⟩
    · intro path hpath
      obtain ⟨s, rest, rfl⟩ := hnonempty path hpath
      exact .inside s rest
    · cases path with
      | nil => exact iff_of_true List.mem_cons_self ⟨fields, rfl⟩
      | cons s rest =>
        rw [List.mem_cons, or_iff_right (List.cons_ne_nil s rest)]
        exact ⟨fun h => ((hcomplete _).mp h).1, hinside s rest⟩
    · rw [List.map_cons, hobjects]
      rfl
  | _ =>
    refine ⟨places, hordered, fun path => ?_, hobjects⟩
    cases path with
    | nil =>
      refine iff_of_false (fun h => ?_) fun h => ?_
      · obtain ⟨s, rest, hnil⟩ := hnonempty [] h
        exact List.cons_ne_nil s rest hnil.symm
      · obtain ⟨fields, h⟩ := h
        simp [follow?] at h
    | cons s rest => exact ⟨fun h => ((hcomplete _).mp h).1, hinside s rest⟩

/-! ## Scalars, lists and objects -/

/-- There is nothing to read in a document without parts. -/
theorem reads_scalar (hown : d.own = []) (hnone : ∀ s, d.select? s = none) : d.Reads [] := by
  have hothers : ∀ s c, d.select? s = some c →
      (∀ part ∈ ([] : List (Selector × List Document)), s ≠ part.1) → c.Reads [] :=
    fun s c hc => by simp [hnone] at hc
  have h := reads_of_parts (List.forall_mem_nil _) hothers .nil
  rwa [hown] at h

@[simp] theorem reads_null : null.Reads [] :=
  reads_scalar rfl fun s => by cases s <;> rfl

@[simp] theorem reads_int (n : Int) : (int n).Reads [] :=
  reads_scalar rfl fun s => by cases s <;> rfl

@[simp] theorem reads_string (text : String) : (string text).Reads [] :=
  reads_scalar rfl fun s => by cases s <;> rfl

/-- A list is read item by item. -/
theorem reads_list {α : Type} {document : α → Document} {os : α → List Document} {as : List α}
    (h : ∀ a ∈ as, (document a).Reads (os a)) : (list (as.map document)).Reads (as.flatMap os) := by
  have hitems : (as.zipIdx.map fun (a, i) => (Selector.item i, os a)).flatMap Prod.snd =
      as.flatMap os := by
    rw [List.flatMap_map, ← List.flatMap_map (f := Prod.fst) (g := os), List.zipIdx_map_fst]
  have hparts : ∀ part ∈ as.zipIdx.map fun (a, i) => (Selector.item i, os a),
      ∃ c, (list (as.map document)).select? part.1 = some c ∧ c.Reads part.2 := by
    intro part hpart
    obtain ⟨⟨a, i⟩, hai, rfl⟩ := List.mem_map.mp hpart
    have hget : as[i]? = some a := List.mk_mem_zipIdx_iff_getElem?.mp hai
    exact ⟨document a, by simp [select?, hget], h a (List.mem_of_getElem? hget)⟩
  have hothers : ∀ s c, (list (as.map document)).select? s = some c →
      (∀ part ∈ as.zipIdx.map fun (a, i) => (Selector.item i, os a), s ≠ part.1) → c.Reads [] := by
    intro s c hc hnone
    cases s with
    | field key => simp [select?, get?] at hc
    | item i =>
      obtain ⟨a, hget, -⟩ : ∃ a, as[i]? = some a ∧ document a = c := by simpa [select?] using hc
      have hmem : (a, i) ∈ as.zipIdx := List.mk_mem_zipIdx_iff_getElem?.mpr hget
      exact absurd rfl (hnone _ (List.mem_map.mpr ⟨_, hmem, rfl⟩))
  have horder : (as.zipIdx.map fun (a, i) => (Selector.item i, os a)).Pairwise
      fun x y => x.1.Before y.1 := by
    have hindices : (as.zipIdx.map Prod.snd).Pairwise (· < ·) := by
      rw [List.zipIdx_map_snd]
      exact List.pairwise_lt_range'
    exact List.pairwise_map.mpr ((List.pairwise_map.mp hindices).imp fun hij => .item hij)
  have hreads := reads_of_parts hparts hothers horder
  rwa [hitems] at hreads

/-- An object is read itself first and then field by field. -/
theorem reads_object (parts : List (String × List Document))
    (hparts : ∀ part ∈ parts, ∃ c, lastField? part.1 fields = some c ∧ c.Reads part.2)
    (hothers : ∀ f ∈ fields, (∀ part ∈ parts, f.1 ≠ part.1) → f.2.Reads [])
    (horder : parts.Pairwise fun x y => (Selector.field x.1).Before (.field y.1)) :
    (object fields).Reads (object fields :: parts.flatMap Prod.snd) := by
  have hselected : ∀ part ∈ parts.map fun (key, os) => (Selector.field key, os),
      ∃ c, (object fields).select? part.1 = some c ∧ c.Reads part.2 := by
    intro part hpart
    obtain ⟨⟨key, os⟩, hkey, rfl⟩ := List.mem_map.mp hpart
    exact hparts _ hkey
  have hunselected : ∀ s c, (object fields).select? s = some c →
      (∀ part ∈ parts.map fun (key, os) => (Selector.field key, os), s ≠ part.1) →
        c.Reads [] := by
    intro s c hc hnone
    cases s with
    | item i => simp [select?] at hc
    | field key =>
      refine hothers _ (mem_of_lastField? hc) fun part hpart heq => ?_
      exact hnone _ (List.mem_map_of_mem hpart) (congrArg Selector.field heq)
  have hreads := reads_of_parts hselected hunselected (List.pairwise_map.mpr horder)
  rwa [List.flatMap_map] at hreads

end Document

end AccessPolicy
