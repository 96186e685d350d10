import Quire.Proofs.Identifiers

/-!
# Identifiers under patches

A patch skips the name of the identifier, but not the paths below it. A patch without such paths
leaves the identifier of every document as it is. Any other patch puts an object in its place, the
same one in all documents whose identifiers are no objects.
-/
namespace Quire

namespace Document

/-- A patch that writes nothing below a field. The field itself it may name. -/
def Spares (field : String) (patch : Document) : Prop :=
  ∀ f ∈ patch, f.1 ≠ field → (segments f.1).head? ≠ some field

instance (field : String) (patch : Document) : Decidable (patch.Spares field) :=
  inferInstanceAs (Decidable (∀ f ∈ patch, f.1 ≠ field → (segments f.1).head? ≠ some field))

variable {field : String}

theorem get?_setPath_of_head? {path : String} (h : (segments path).head? ≠ some field) (v : Value)
    (d : Document) : (d.setPath path v).get? field = d.get? field := by
  rw [setPath]
  rcases hpath : segments path with _ | ⟨s, _ | ⟨t, rest⟩⟩
  · rfl
  · have hs : field ≠ s := by simpa [hpath, eq_comm] using h
    rw [setAt]
    exact get?_set_of_ne hs _ _
  · have hs : field ≠ s := by simpa [hpath, eq_comm] using h
    rw [setAt]
    · exact get?_set_of_ne hs _ _
    · exact List.cons_ne_nil _ _

/-- Writing below a field puts an object there, which depends on the object that was there. -/
theorem exists_get?_setPath {path : String} (h : (segments path).head? = some field)
    (hne : path ≠ field) (v : Value) :
    ∃ rest, ∀ d : Document,
      (d.setPath path v).get? field = some (.obj (setAt v rest (d.child field))) := by
  rcases hpath : segments path with _ | ⟨s, _ | ⟨t, rest⟩⟩
  · simp [hpath] at h
  · have hs : s = field := by simpa [hpath] using h
    exact absurd (eq_of_segments_eq_singleton hpath) (hs ▸ hne)
  · have hs : s = field := by simpa [hpath] using h
    subst hs
    refine ⟨t :: rest, fun d => ?_⟩
    rw [setPath, hpath, setAt]
    · exact get?_set_self _ _ _
    · exact List.cons_ne_nil _ _

theorem child_congr {d e : Document} (h : d.get? field = e.get? field) :
    d.child field = e.child field := by rw [child, child, h]

theorem spares_cons {f : String × Value} {patch : Document} :
    Spares field (f :: patch) ↔
      (f.1 ≠ field → (segments f.1).head? ≠ some field) ∧ patch.Spares field :=
  List.forall_mem_cons

end Document

namespace Collection

open Document

variable {idField : String} {patch : Document}

theorem applyPatch_cons (f : String × Value) (patch d : Document) :
    applyPatch idField (f :: patch) d =
      applyPatch idField patch (if f.1 = idField then d else d.setPath f.1 f.2) := rfl

/-- A sparing patch leaves the identifier as it is. -/
theorem get?_applyPatch_of_spares (h : patch.Spares idField) (d : Document) :
    (applyPatch idField patch d).get? idField = d.get? idField := by
  induction patch generalizing d with
  | nil => rfl
  | cons f fs ih =>
    obtain ⟨hf, hfs⟩ := spares_cons.mp h
    rw [applyPatch_cons]
    by_cases hid : f.1 = idField
    · rw [if_pos hid]
      exact ih hfs d
    · rw [if_neg hid, ih hfs]
      exact get?_setPath_of_head? (hf hid) f.2 d

/-- The same object as identifier stays the same in both documents. -/
theorem exists_get?_applyPatch_of_obj {d e : Document} {fields : List (String × Value)}
    (hd : d.get? idField = some (.obj fields)) (he : e.get? idField = some (.obj fields)) :
    ∃ after, (applyPatch idField patch d).get? idField = some (.obj after) ∧
      (applyPatch idField patch e).get? idField = some (.obj after) := by
  induction patch generalizing d e fields with
  | nil => exact ⟨fields, hd, he⟩
  | cons f fs ih =>
    rw [applyPatch_cons, applyPatch_cons]
    by_cases hid : f.1 = idField
    · rw [if_pos hid, if_pos hid]
      exact ih hd he
    · rw [if_neg hid, if_neg hid]
      by_cases hhead : (segments f.1).head? = some idField
      · obtain ⟨rest, hrest⟩ := exists_get?_setPath hhead hid f.2
        have hchild : d.child idField = e.child idField := child_congr (hd.trans he.symm)
        exact ih (hrest d) (by rw [hrest e, hchild])
      · have hd' := (get?_setPath_of_head? hhead f.2 d).trans hd
        have he' := (get?_setPath_of_head? hhead f.2 e).trans he
        exact ih hd' he'

/-- A patch that does not spare the identifier gives two documents the same one, unless there were
different objects in its place. -/
theorem exists_get?_applyPatch_of_not_spares (h : ¬ patch.Spares idField) {d e : Document}
    (hchild : d.child idField = e.child idField) :
    ∃ fields, (applyPatch idField patch d).get? idField = some (.obj fields) ∧
      (applyPatch idField patch e).get? idField = some (.obj fields) := by
  induction patch generalizing d e with
  | nil => exact absurd (fun f hf => absurd hf List.not_mem_nil) h
  | cons f fs ih =>
    rw [applyPatch_cons, applyPatch_cons]
    by_cases hid : f.1 = idField
    · rw [if_pos hid, if_pos hid]
      have hfs : ¬ Spares idField fs := fun hfs => h (spares_cons.mpr ⟨absurd hid, hfs⟩)
      exact ih hfs hchild
    · rw [if_neg hid, if_neg hid]
      by_cases hhead : (segments f.1).head? = some idField
      · obtain ⟨rest, hrest⟩ := exists_get?_setPath hhead hid f.2
        exact exists_get?_applyPatch_of_obj (hrest d) (by rw [hrest e, hchild])
      · have hfs : ¬ Spares idField fs := fun hfs => h (spares_cons.mpr ⟨fun _ => hhead, hfs⟩)
        have hd := child_congr (get?_setPath_of_head? hhead f.2 d)
        have he := child_congr (get?_setPath_of_head? hhead f.2 e)
        exact ih hfs (by rw [hd, he, hchild])

/-! ## The identifiers of a collection -/

/-- The identifiers of the stored documents, where they have one. -/
def ids (c : Collection) : List (Option Value) := c.docs.map (Document.get? c.idField)

/-- Every document has an identifier other than null, and no two have equal ones. -/
structure Identified (c : Collection) : Prop where
  given : ∀ id ∈ c.ids, ∃ v, id = some v ∧ v ≠ .null
  apart : c.ids.Pairwise fun id other => ∀ v w, id = some v → other = some w → v.equal w = false

variable {c : Collection}

theorem Identified.of_sublist {c' : Collection} (h : c.Identified)
    (hsub : c'.ids.Sublist c.ids) : c'.Identified :=
  ⟨fun id hid => h.given id (hsub.subset hid), h.apart.sublist hsub⟩

theorem identified_empty (idField : String) : Identified { idField } :=
  ⟨fun _ hid => absurd hid List.not_mem_nil, List.Pairwise.nil⟩

/-- A document whose identifier none of the others has. -/
theorem Identified.append {d : Document} {v : Value} (h : c.Identified)
    (hv : d.get? c.idField = some v) (hnull : v ≠ .null)
    (hnew : c.docs.any (hasId c.idField v) = false) :
    Identified { c with docs := c.docs ++ [d] } := by
  have hids : ids { c with docs := c.docs ++ [d] } = c.ids ++ [some v] := by simp [ids, hv]
  constructor
  · intro id hid
    rw [hids, List.mem_append, List.mem_singleton] at hid
    rcases hid with hid | rfl
    · exact h.given id hid
    · exact ⟨v, rfl, hnull⟩
  · rw [hids, List.pairwise_append]
    refine ⟨h.apart, List.pairwise_singleton _ _, ?_⟩
    intro id hid other hother u w hu hw
    rw [List.mem_singleton] at hother
    subst hother hu
    cases hw
    obtain ⟨e, he, hget⟩ := List.mem_map.mp hid
    have hother := List.any_eq_false.mp hnew e he
    rw [hasId, hget, Option.any_some] at hother
    simpa using hother

theorem idOf?_eq_some {d : Document} {v : Value} (h : idOf? idField d = some v) :
    d.get? idField = some v ∧ v ≠ .null := by
  rw [idOf?, Option.filter_eq_some_iff] at h
  refine ⟨h.1, ?_⟩
  rintro rfl
  simp [Value.isNull] at h

/-- A document that brings an identifier is inserted as it is, if none of the others has it. -/
theorem eq_of_prepare {others : List Document} {d e : Document} {v : Value}
    {supply supply' : IdSource} (hv : idOf? idField d = some v)
    (hrun : prepare idField others d supply = (.ok e, supply')) :
    e = d ∧ others.any (hasId idField v) = false := by
  rw [prepare, hv] at hrun
  dsimp only at hrun
  split at hrun
  · cases hrun
  · next hnew =>
    cases hrun
    exact ⟨rfl, by simpa using hnew⟩

/-- A document is inserted under the identifier that it brings. -/
theorem Identified.prepare {d e : Document} {supply supply' : IdSource} (h : c.Identified)
    (hid : (idOf? c.idField d).isSome = true)
    (hrun : Collection.prepare c.idField c.docs d supply = (.ok e, supply')) :
    Identified { c with docs := c.docs ++ [e] } := by
  obtain ⟨v, hv⟩ := Option.isSome_iff_exists.mp hid
  obtain ⟨hget, hnull⟩ := idOf?_eq_some hv
  obtain ⟨rfl, hnew⟩ := eq_of_prepare hv hrun
  exact h.append hget hnull hnew

theorem Identified.prepareAll {ds es : List Document} {supply supply' : IdSource}
    (h : c.Identified) (hid : ∀ d ∈ ds, (idOf? c.idField d).isSome = true)
    (hrun : Collection.prepareAll c.idField c.docs ds supply = (.ok es, supply')) :
    Identified { c with docs := c.docs ++ es } := by
  induction ds generalizing c supply es with
  | nil =>
    cases hrun
    simpa using h
  | cons d ds ih =>
    rw [List.forall_mem_cons] at hid
    rw [Collection.prepareAll] at hrun
    split at hrun
    · cases hrun
    · next e supply₁ he =>
      split at hrun
      · cases hrun
      · next rest supply₂ hrest =>
        cases hrun
        have hone := h.prepare hid.1 he
        have hall := ih (c := { c with docs := c.docs ++ [e] }) hone hid.2 hrest
        simpa using hall

theorem map_changeFirst {α : Type} {g : Document → α} {p : Document → Bool}
    {change : Document → Document} (h : ∀ d, g (change d) = g d) (docs : List Document) :
    (changeFirst p change docs).2.map g = docs.map g := by
  induction docs with
  | nil => rfl
  | cons d docs ih =>
    rw [changeFirst]
    split
    · simp [h]
    · simp [ih]

theorem sublist_removeFirst (p : Document → Bool) (docs : List Document) :
    (removeFirst p docs).2.Sublist docs := by
  rw [removeFirst_eq_eraseP]
  exact List.eraseP_sublist

theorem ids_updateOne (h : patch.Spares c.idField) (f : Filter) :
    (c.updateOne f patch).2.ids = c.ids :=
  map_changeFirst (fun d => get?_applyPatch_of_spares h d) c.docs

theorem ids_updateMany (h : patch.Spares c.idField) (f : Filter) :
    (c.updateMany f patch).2.ids = c.ids := by
  simp only [updateMany_eq_map, ids, List.map_map]
  apply List.map_congr_left
  intro d _
  simp only [Function.comp_apply]
  split
  · exact get?_applyPatch_of_spares h d
  · rfl

theorem Identified.deleteOne (h : c.Identified) (f : Filter) : (c.deleteOne f).2.Identified :=
  h.of_sublist ((sublist_removeFirst _ c.docs).map _)

theorem Identified.deleteMany (h : c.Identified) (f : Filter) : (c.deleteMany f).2.Identified :=
  h.of_sublist (List.filter_sublist.map _)

end Collection
end Quire
