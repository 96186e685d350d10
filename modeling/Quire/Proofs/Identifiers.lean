import Quire.Proofs.StoredDocuments

/-!
# Identifiers of stored documents

Which documents the filter of an identifier finds, and that writes to the document of one
identifier leave the document of every other identifier in place.
-/
namespace Quire

namespace DocumentId

theorem toValue_injective {id other : DocumentId} (h : id.toValue = other.toValue) :
    id = other := by
  cases id <;> cases other <;> cases h <;> rfl

theorem toValue_ne_obj (id : DocumentId) (fields : List (String × Value)) :
    id.toValue ≠ .obj fields := by
  cases id <;> exact Value.noConfusion

theorem toValue_ne_null (id : DocumentId) : id.toValue ≠ .null := by
  cases id <;> exact Value.noConfusion

end DocumentId

/-- The filter of one document. -/
def Filter.byId (idField : String) (id : DocumentId) : Filter := .test .eq idField id.toValue

theorem Filter.holds_byId {idField : String} (hdot : '.' ∉ idField.toList) {id : DocumentId}
    (hid : id.toValue.Signed) {d : Document} (hd : d.Sound Value.isSigned64) :
    (Filter.byId idField id).holds d = true ↔ d.get? idField = some id.toValue := by
  have hfield : (d.fieldOrNull idField).Signed := Document.every_fieldOrNull rfl hd.every idField
  rw [byId, holds, Relation.holds, beq_iff_eq, hfield.compare_eq_iff hid, Document.fieldOrNull,
    Document.getPath?_of_undotted hdot]
  cases hget : d.get? idField with
  | none => simp [id.toValue_ne_null.symm]
  | some v => simp

/-! ## Patches -/

namespace Text

theorem eq_of_pieces_eq_singleton {isSeparator : Char → Bool} {cs piece : List Char}
    (h : pieces isSeparator cs = [piece]) : cs = piece := by
  induction cs generalizing piece with
  | nil =>
    rw [pieces, List.cons.injEq] at h
    exact h.1
  | cons c cs ih =>
    rw [pieces] at h
    split at h
    · exact absurd (List.cons.inj h).2 (pieces_ne_nil _ _)
    · cases hpieces : pieces isSeparator cs with
      | nil => exact absurd hpieces (pieces_ne_nil _ _)
      | cons p ps =>
        rw [hpieces, List.cons.injEq] at h
        obtain ⟨rfl, rfl⟩ := h
        rw [ih hpieces]

end Text

/-- A path of one segment is that segment. -/
theorem eq_of_segments_eq_singleton {path s : String} (h : segments path = [s]) : path = s := by
  rw [segments, List.map_eq_singleton_iff] at h
  obtain ⟨piece, hpieces, rfl⟩ := h
  rw [← Text.eq_of_pieces_eq_singleton hpieces, String.ofList_toList]

namespace Document

/-- Writing at a path leaves a field that the path does not name as it is, or puts an object
there. -/
theorem get?_setPath {name path : String} (hne : path ≠ name) (v : Value) (d : Document) :
    (d.setPath path v).get? name = d.get? name ∨
      ∃ fields, (d.setPath path v).get? name = some (.obj fields) := by
  rw [setPath]
  rcases hpath : segments path with _ | ⟨s, _ | ⟨t, rest⟩⟩
  · exact absurd hpath (segments_ne_nil path)
  · have hs : s ≠ name := eq_of_segments_eq_singleton hpath ▸ hne
    rw [setAt]
    exact Or.inl (get?_set_of_ne hs.symm _ _)
  · rw [setAt]
    by_cases hs : s = name
    · subst hs
      exact Or.inr ⟨_, get?_set_self _ _ _⟩
    · exact Or.inl (get?_set_of_ne (Ne.symm hs) _ _)
    · exact List.cons_ne_nil _ _

end Document

namespace Collection

variable {idField : String}

/-- A patch leaves the identifier as it is, or puts an object in its place. -/
theorem get?_applyPatch (idField : String) (patch d : Document) :
    (applyPatch idField patch d).get? idField = d.get? idField ∨
      ∃ fields, (applyPatch idField patch d).get? idField = some (.obj fields) := by
  rw [applyPatch]
  induction patch generalizing d with
  | nil => exact Or.inl rfl
  | cons f fs ih =>
    rw [List.foldl_cons]
    by_cases hf : f.1 = idField
    · rw [if_pos hf]
      exact ih d
    · rw [if_neg hf]
      rcases ih (d.setPath f.1 f.2) with h | h
      · rw [h]
        exact Document.get?_setPath hf f.2 d
      · exact Or.inr h

/-! ## Looking documents up -/

theorem sort_empty (docs : List Document) : SortOrder.empty.sort docs = docs := by
  have hfold : ∀ (docs sorted : List Document),
      docs.foldl (fun sorted d => SortOrder.insertBackwards
          (fun a b => SortOrder.empty.compare a b == .lt) d sorted) sorted =
        docs.reverse ++ sorted := by
    intro docs
    induction docs with
    | nil => exact fun _ => rfl
    | cons d docs ih =>
      intro sorted
      have hinsert : SortOrder.insertBackwards (fun a b => SortOrder.empty.compare a b == .lt) d
          sorted = d :: sorted := by cases sorted <;> rfl
      rw [List.foldl_cons, hinsert, ih, List.reverse_cons, List.append_assoc]
      rfl
  rw [SortOrder.sort, SortOrder.stableSort, hfold, List.append_nil, List.reverse_reverse]

theorem selectOne_eq_find? (c : Collection) (f : Filter) :
    c.selectOne { filter := f } = c.docs.find? fun d => f.holds d := by
  simp only [selectOne, select, sort_empty, List.drop_zero, List.head?_take, List.head?_filter]
  rfl

theorem find?_changeFirst {p q : Document → Bool} {change : Document → Document}
    {docs : List Document}
    (h : ∀ d ∈ docs, p d = true → q d = false ∧ q (change d) = false) :
    (changeFirst p change docs).2.find? q = docs.find? q := by
  induction docs with
  | nil => rfl
  | cons d docs ih =>
    rw [List.forall_mem_cons] at h
    rw [changeFirst]
    split
    · next hp =>
      obtain ⟨hd, hchange⟩ := h.1 hp
      rw [List.find?_cons_of_neg (by simp [hchange]), List.find?_cons_of_neg (by simp [hd])]
    · rw [List.find?_cons, List.find?_cons, ih h.2]

theorem find?_removeFirst {p q : Document → Bool} {docs : List Document}
    (h : ∀ d ∈ docs, p d = true → q d = false) :
    (removeFirst p docs).2.find? q = docs.find? q := by
  induction docs with
  | nil => rfl
  | cons d docs ih =>
    rw [List.forall_mem_cons] at h
    rw [removeFirst]
    split
    · next hp => rw [List.find?_cons_of_neg (by simp [h.1 hp])]
    · rw [List.find?_cons, List.find?_cons, ih h.2]

theorem selectOne_append {c : Collection} {f : Filter} {d : Document}
    (h : c.selectOne { filter := f } = some d) (ds : List Document) :
    selectOne { c with docs := c.docs ++ ds } { filter := f } = some d := by
  rw [selectOne_eq_find?] at h ⊢
  rw [List.find?_append, h, Option.some_or]

section Others

variable {c : Collection} {id other : DocumentId}

/-- A document has one identifier. -/
theorem holds_byId_of_ne (hdot : '.' ∉ idField.toList) (hid : id.toValue.Signed)
    (hother : other.toValue.Signed) (hne : id ≠ other) {d : Document}
    (hd : d.Sound Value.isSigned64) (h : (Filter.byId idField id).holds d = true) :
    (Filter.byId idField other).holds d = false := by
  rw [Filter.holds_byId hdot hid hd] at h
  rw [Bool.eq_false_iff, ne_eq, Filter.holds_byId hdot hother hd, h, Option.some.injEq]
  exact fun heq => hne (DocumentId.toValue_injective heq)

theorem selectOne_updateOne_of_ne (hc : c.Sound Value.isSigned64) (hfield : c.idField = idField)
    (hdot : '.' ∉ idField.toList) (hid : id.toValue.Signed) (hother : other.toValue.Signed)
    (hne : id ≠ other) {patch : Document} (hpatch : patch.Sound Value.isSigned64) :
    (c.updateOne (.byId idField id) patch).2.selectOne { filter := .byId idField other } =
      c.selectOne { filter := .byId idField other } := by
  rw [selectOne_eq_find?, selectOne_eq_find?]
  refine find?_changeFirst fun d hd h => ?_
  have hd' := hc d hd
  refine ⟨holds_byId_of_ne hdot hid hother hne hd' h, ?_⟩
  have hpatched := hpatch.applyPatch Value.storable_isSigned64 hd' idField
  rw [hfield, Bool.eq_false_iff, ne_eq, Filter.holds_byId hdot hother hpatched]
  rw [Filter.holds_byId hdot hid hd'] at h
  rcases get?_applyPatch idField patch d with hsame | ⟨fields, hobj⟩
  · rw [hsame, h, Option.some.injEq]
    exact fun heq => hne (DocumentId.toValue_injective heq)
  · rw [hobj, Option.some.injEq]
    exact fun heq => other.toValue_ne_obj fields heq.symm

theorem selectOne_deleteOne_of_ne (hc : c.Sound Value.isSigned64) (hdot : '.' ∉ idField.toList)
    (hid : id.toValue.Signed) (hother : other.toValue.Signed) (hne : id ≠ other) :
    (c.deleteOne (.byId idField id)).2.selectOne { filter := .byId idField other } =
      c.selectOne { filter := .byId idField other } := by
  rw [selectOne_eq_find?, selectOne_eq_find?]
  exact find?_removeFirst fun d hd h => holds_byId_of_ne hdot hid hother hne (hc d hd) h

end Others

end Collection
end Quire
