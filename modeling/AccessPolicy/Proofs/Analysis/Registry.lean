import AccessPolicy.Options.Basic
import AccessPolicy.Proofs.Analysis.Index
import AccessPolicy.Proofs.Text.Bytes
import Mathlib.Data.List.Induction

/-!
# What the registry of some options knows

The attributes of the options go into the built-in registry one after the other. Each of them can
open a namespace, add to one, or take the place of an attribute that is there
(`Registry.lookup_insert`), so after all of them the last one of a name counts
(`Registry.lookup_insertAll`). The built-in registry comes about in the same way, from an empty one.

A registry answers in one of three ways, and its lists of namespaces and attributes say the same
(`Registry.mem_objects_iff`, `Registry.mem_attributes_iff`). `Options.registry_exact` puts all this
together : the answer for every attribute, and what is listed, from the given attributes and the
table of the built-in ones.
-/

namespace AccessPolicy

/-- The answer for an attribute once its namespace is known. -/
def Lookup.inNamespace : Lookup → Lookup
  | found c => .found c
  | unknownNamespace | unknownAttribute => .unknownAttribute

@[simp] theorem Lookup.inNamespace_inNamespace (l : Lookup) :
    l.inNamespace.inNamespace = l.inNamespace := by
  cases l <;> rfl

namespace Registry

/-- An object, the name of an attribute of it, and the category of the attribute. -/
abbrev Entry : Type :=
  String × String × Category

/-- Whether an entry is for an attribute. -/
def Entry.isFor (object name : String) (e : Entry) : Bool :=
  e.1 = object && e.2.1 = name

/-- The last of some entries for an attribute. -/
def lastFor? (es : List Entry) (object name : String) : Option Entry :=
  (es.filter (Entry.isFor object name)).getLast?

variable {r : Registry} {es : List Entry} {e : Entry} {object name : String}

/-! ## Answers and lists -/

theorem lookup_of_none (h : r.namespaces.find? object = none) (name : String) :
    r.lookup object name = .unknownNamespace := by
  rw [lookup, h]

theorem lookup_of_some {attributes : Index Category}
    (h : r.namespaces.find? object = some attributes) (name : String) :
    r.lookup object name =
      match attributes.find? name with
      | some c => .found c
      | none => .unknownAttribute := by
  cases hname : attributes.find? name <;> simp only [lookup, h, hname]

theorem mem_objects_iff : object ∈ r.objects ↔ r.lookup object name ≠ .unknownNamespace := by
  rw [objects, Index.mem_keys_iff]
  cases h : r.namespaces.find? object with
  | none => simp [lookup_of_none h]
  | some attributes =>
    rw [lookup_of_some h]
    cases attributes.find? name <;> simp

theorem mem_attributes_iff : name ∈ r.attributes object ↔ ∃ c, r.lookup object name = .found c := by
  rw [attributes]
  cases h : r.namespaces.find? object with
  | none => simp [lookup_of_none h]
  | some attributes =>
    rw [lookup_of_some h, Option.map_some, Option.getD_some, Index.mem_keys_iff]
    cases attributes.find? name <;> simp

theorem pairwise_objects (r : Registry) : r.objects.Pairwise (· < ·) :=
  r.namespaces.pairwise_keys

theorem pairwise_attributes (r : Registry) (object : String) :
    (r.attributes object).Pairwise (· < ·) := by
  rw [attributes]
  cases r.namespaces.find? object with
  | none => exact .nil
  | some attributes => exact attributes.pairwise_keys

/-! ## One entry -/

/-- An entry decides what is answered for its own attribute, makes its object known, and changes
nothing else. -/
theorem lookup_insert (r : Registry) (e : Entry) (object name : String) :
    (r.insert e.1 e.2.1 e.2.2).lookup object name =
      if e.isFor object name then .found e.2.2
      else if e.1 = object then (r.lookup object name).inNamespace
      else r.lookup object name := by
  obtain ⟨o, n, c⟩ := e
  by_cases ho : o = object
  · subst ho
    have hinsert : (r.insert o n c).namespaces.find? o =
        some (((r.namespaces.find? o).getD .empty).insert n c) := by
      rw [insert, Index.find?_insert, if_pos rfl]
    rw [lookup_of_some hinsert, Index.find?_insert]
    by_cases hn : n = name
    · simp [Entry.isFor, hn]
    · cases hr : r.namespaces.find? o with
      | none => simp [Entry.isFor, hn, Ne.symm hn, lookup_of_none hr, Lookup.inNamespace]
      | some attributes =>
        rw [lookup_of_some hr]
        cases ha : attributes.find? name <;>
          simp [Entry.isFor, hn, Ne.symm hn, ha, Lookup.inNamespace]
  · have hinsert : (r.insert o n c).namespaces.find? object = r.namespaces.find? object := by
      rw [insert, Index.find?_insert, if_neg (Ne.symm ho)]
    simp [Entry.isFor, ho, lookup, hinsert]

/-! ## All entries -/

theorem insertAll_concat (r : Registry) (es : List Entry) (e : Entry) :
    r.insertAll (es ++ [e]) = (r.insertAll es).insert e.1 e.2.1 e.2.2 := by
  simp [insertAll]

theorem lastFor?_concat (es : List Entry) (e : Entry) (object name : String) :
    lastFor? (es ++ [e]) object name =
      if e.isFor object name then some e else lastFor? es object name := by
  rw [lastFor?, List.filter_append]
  by_cases he : e.isFor object name = true
  · simp [he]
  · simp [he, lastFor?]

/-- Of the entries for an attribute the last decides. If there is none, it can only be that the
object has become known. -/
theorem lookup_insertAll (r : Registry) (es : List Entry) (object name : String) :
    (r.insertAll es).lookup object name =
      match lastFor? es object name with
      | some e => .found e.2.2
      | none =>
        if ∃ e ∈ es, e.1 = object then (r.lookup object name).inNamespace
        else r.lookup object name := by
  induction es using List.reverseRecOn with
  | nil => simp [insertAll, lastFor?]
  | append_singleton es e ih =>
    rw [insertAll_concat, lookup_insert, lastFor?_concat]
    by_cases he : e.isFor object name = true
    · rw [if_pos he, if_pos he]
    rw [if_neg he, if_neg he, ih]
    cases lastFor? es object name with
    | some f => simp [Lookup.inNamespace]
    | none =>
      have hmore : (∃ f ∈ es ++ [e], f.1 = object) ↔ (∃ f ∈ es, f.1 = object) ∨ e.1 = object := by
        simp [or_and_right, exists_or]
      simp only [hmore]
      by_cases hobject : e.1 = object
      · simp only [hobject, or_true, if_true]
        split <;> simp
      · simp only [hobject, or_false, if_false]

/-! ## The built-in registry -/

/-- No two built-in entries are for the same attribute. -/
theorem pairwise_builtins :
    builtins.Pairwise fun e f => ¬ (e.1 = f.1 ∧ e.2.1 = f.2.1) := by
  decide

/-- Among entries for different attributes there is only one for each. -/
theorem lastFor?_eq_find? (h : es.Pairwise fun e f => ¬ (e.1 = f.1 ∧ e.2.1 = f.2.1))
    (object name : String) : lastFor? es object name = es.find? (Entry.isFor object name) := by
  have hfilter := h.filter (Entry.isFor object name)
  have hfor : ∀ e ∈ es.filter (Entry.isFor object name), e.1 = object ∧ e.2.1 = name := by
    simp [Entry.isFor]
  rw [lastFor?, ← List.head?_filter]
  generalize es.filter (Entry.isFor object name) = fs at hfilter hfor
  match fs with
  | [] => rfl
  | [e] => rfl
  | e :: f :: fs =>
    obtain ⟨he, hf, -⟩ := by simpa only [List.forall_mem_cons] using hfor
    have hne := (List.pairwise_cons.mp hfilter).1 f List.mem_cons_self
    exact absurd ⟨he.1.trans hf.1.symm, he.2.trans hf.2.symm⟩ hne

/-- What is built in is known, and so are the objects it belongs to. -/
theorem lookup_builtin (object name : String) :
    builtin.lookup object name =
      match builtins.find? (Entry.isFor object name) with
      | some e => .found e.2.2
      | none => if ∃ e ∈ builtins, e.1 = object then .unknownAttribute else .unknownNamespace := by
  rw [builtin, lookup_insertAll, lastFor?_eq_find? pairwise_builtins]
  rfl

end Registry

namespace Options

/-- The last of the given attributes for an object and a name. -/
def lastGiven? (o : Options) (object name : String) : Option AttributeSpec :=
  (o.attributes.filter fun a => a.object = object && a.name = name).getLast?

/-- The object has attributes, given ones or built-in ones. -/
def HasObject (o : Options) (object : String) : Prop :=
  (∃ a ∈ o.attributes, a.object = object) ∨ ∃ e ∈ Registry.builtins, e.1 = object

instance (o : Options) (object : String) : Decidable (o.HasObject object) :=
  inferInstanceAs (Decidable (_ ∨ _))

/-- The object has the attribute, as a given one or a built-in one. -/
def HasAttribute (o : Options) (object name : String) : Prop :=
  (∃ a ∈ o.attributes, a.object = object ∧ a.name = name) ∨
    ∃ e ∈ Registry.builtins, e.1 = object ∧ e.2.1 = name

/-- The attributes of the options, as entries of a registry. -/
def entries (o : Options) : List Registry.Entry :=
  o.attributes.map fun a => (a.object, a.name, a.category)

theorem lastFor?_entries (o : Options) (object name : String) :
    Registry.lastFor? o.entries object name =
      (o.lastGiven? object name).map fun a => (a.object, a.name, a.category) := by
  rw [Registry.lastFor?, entries, List.filter_map, List.getLast?_map]
  rfl

theorem lookup_registry (o : Options) (object name : String) :
    o.registry.lookup object name =
      match o.lastGiven? object name, Registry.builtins.find? (Registry.Entry.isFor object name) with
      | some a, _ => .found a.category
      | none, some e => .found e.2.2
      | none, none => if o.HasObject object then .unknownAttribute else .unknownNamespace := by
  have hregistry : o.registry = Registry.builtin.insertAll o.entries := rfl
  have hobject : (∃ e ∈ o.entries, e.1 = object) ↔ ∃ a ∈ o.attributes, a.object = object := by
    simp [entries]
  rw [hregistry, Registry.lookup_insertAll, lastFor?_entries, Registry.lookup_builtin]
  simp only [hobject, HasObject]
  cases o.lastGiven? object name with
  | some a => rfl
  | none =>
    cases Registry.builtins.find? (Registry.Entry.isFor object name) with
    | some e => simp [Lookup.inNamespace]
    | none =>
      by_cases hgiven : ∃ a ∈ o.attributes, a.object = object
      · simp only [Option.map_none, hgiven, true_or, if_true]
        split <;> rfl
      · simp only [Option.map_none, hgiven, false_or, if_false]

theorem lastGiven?_eq_none_iff {o : Options} {object name : String} :
    o.lastGiven? object name = none ↔ ∀ a ∈ o.attributes, ¬ (a.object = object ∧ a.name = name) := by
  simp [lastGiven?]

theorem of_lastGiven? {o : Options} {object name : String} {a : AttributeSpec}
    (h : o.lastGiven? object name = some a) :
    a ∈ o.attributes ∧ a.object = object ∧ a.name = name := by
  simpa using List.mem_filter.mp (List.mem_of_getLast? h)

theorem of_find?_builtins {object name : String} {e : Registry.Entry}
    (h : Registry.builtins.find? (Registry.Entry.isFor object name) = some e) :
    e ∈ Registry.builtins ∧ e.1 = object ∧ e.2.1 = name :=
  ⟨List.mem_of_find?_eq_some h, by simpa [Registry.Entry.isFor] using List.find?_some h⟩

theorem lookup_registry_ne_iff {o : Options} {object name : String} :
    o.registry.lookup object name ≠ .unknownNamespace ↔ o.HasObject object := by
  rw [lookup_registry]
  cases hgiven : o.lastGiven? object name with
  | some a =>
    obtain ⟨ha, hobject, -⟩ := of_lastGiven? hgiven
    exact iff_of_true nofun (Or.inl ⟨a, ha, hobject⟩)
  | none =>
    cases hbuiltin : Registry.builtins.find? (Registry.Entry.isFor object name) with
    | some e =>
      obtain ⟨he, hobject, -⟩ := of_find?_builtins hbuiltin
      exact iff_of_true nofun (Or.inr ⟨e, he, hobject⟩)
    | none => by_cases h : o.HasObject object <;> simp [h]

theorem exists_lookup_registry_iff {o : Options} {object name : String} :
    (∃ c, o.registry.lookup object name = .found c) ↔ o.HasAttribute object name := by
  rw [lookup_registry]
  cases hgiven : o.lastGiven? object name with
  | some a => exact iff_of_true ⟨_, rfl⟩ (Or.inl ⟨a, of_lastGiven? hgiven⟩)
  | none =>
    cases hbuiltin : Registry.builtins.find? (Registry.Entry.isFor object name) with
    | some e => exact iff_of_true ⟨_, rfl⟩ (Or.inr ⟨e, of_find?_builtins hbuiltin⟩)
    | none =>
      refine iff_of_false ?_ ?_
      · by_cases h : o.HasObject object <;> simp [h]
      · rintro (⟨a, ha, hname⟩ | ⟨e, he, hname⟩)
        · exact lastGiven?_eq_none_iff.mp hgiven a ha hname
        · have hother := List.find?_eq_none.mp hbuiltin e he
          exact hother (by simpa [Registry.Entry.isFor] using hname)

/-- What the registry of the options answers and lists. The category of an attribute is that of the
last given one of its name, or of the built-in one if none is given. Without either, the object is
known if it has any other attribute. All objects are listed, and all attributes of an object, each
once and in the order of their bytes. -/
theorem registry_exact (o : Options) (object name : String) :
    (o.registry.lookup object name =
      match o.lastGiven? object name, Registry.builtins.find? (Registry.Entry.isFor object name) with
      | some a, _ => .found a.category
      | none, some e => .found e.2.2
      | none, none => if o.HasObject object then .unknownAttribute else .unknownNamespace) ∧
    (object ∈ o.registry.objects ↔ o.HasObject object) ∧
    (name ∈ o.registry.attributes object ↔ o.HasAttribute object name) ∧
    o.registry.objects.Pairwise (fun x y => utf8Bytes x < utf8Bytes y) ∧
    (o.registry.attributes object).Pairwise fun x y => utf8Bytes x < utf8Bytes y := by
  refine ⟨lookup_registry o object name,
    Registry.mem_objects_iff.trans (@lookup_registry_ne_iff o object name),
    Registry.mem_attributes_iff.trans exists_lookup_registry_iff, ?_, ?_⟩
  · exact o.registry.pairwise_objects.imp fun h => strictMono_utf8Bytes h
  · exact (o.registry.pairwise_attributes object).imp fun h => strictMono_utf8Bytes h

/-- The last category given for a built-in attribute holds, and a given object is known. -/
example :
    let o : Options := ⟨true, true, [⟨"time", "hour", .numeric⟩, ⟨"time", "hour", .categorical⟩,
      ⟨"request", "ip", .categorical⟩]⟩
    o.registry.lookup "time" "hour" = .found .categorical ∧
      o.registry.lookup "request" "hour" = .unknownAttribute ∧
      o.registry.objects = ["request", "resource", "time", "user"] := by
  decide +kernel

end Options

end AccessPolicy
