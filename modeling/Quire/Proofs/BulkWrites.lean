import Quire.Proofs.CacheCalls
import Quire.Proofs.StoredDocuments

/-!
# Bulk writes

A batch is inserted as its documents are one after another: under the same identifiers, and refused
for the same reason, except that a refused batch leaves nothing behind. To delete what satisfies a
filter is to delete the first such document for as long as there is one. An update changes what
satisfies its filter where it stands.
-/
namespace Quire.Collection

variable {c left : Collection} {f : Filter} {d d' : Document} {batch stored : List Document}
  {ids ids' : IdSource} {e : Fault} {n : Nat}

/-! ## Batches -/

theorem runOn_insertOne_of_ok (h : prepare c.idField c.docs d ids = (.ok d', ids')) :
    (insertOne d).runOn (c, ids) = (.ok d', { c with docs := c.docs ++ [d'] }, ids') := by
  rw [insertOne, Action.runOn_ofFun]
  simp only [h]

theorem runOn_insertOne_of_error (h : prepare c.idField c.docs d ids = (.error e, ids')) :
    (insertOne d).runOn (c, ids) = (.error e, c, ids') := by
  rw [insertOne, Action.runOn_ofFun]
  simp only [h]

theorem runOn_insertMany_of_ok (h : prepareAll c.idField c.docs batch ids = (.ok stored, ids')) :
    (insertMany batch).runOn (c, ids) =
      (.ok stored, { c with docs := c.docs ++ stored }, ids') := by
  rw [insertMany, Action.runOn_ofFun]
  simp only [h]

theorem runOn_insertMany_of_error (h : prepareAll c.idField c.docs batch ids = (.error e, ids')) :
    (insertMany batch).runOn (c, ids) = (.error e, c, ids') := by
  rw [insertMany, Action.runOn_ofFun]
  simp only [h]

/-- What is inserted one after another meets the same others as within a batch. -/
theorem runOn_mapM_insertOne_of_ok
    (h : prepareAll c.idField c.docs batch ids = (.ok stored, ids')) :
    (batch.mapM insertOne).runOn (c, ids) =
      (.ok stored, { c with docs := c.docs ++ stored }, ids') := by
  induction batch generalizing c ids stored with
  | nil =>
    cases h
    simp
  | cons d batch ih =>
    rw [prepareAll] at h
    split at h
    · cases h
    · next d' ids₁ hd =>
      split at h
      · cases h
      · next rest ids₂ hrest =>
        cases h
        have hall := ih (c := { c with docs := c.docs ++ [d'] }) hrest
        rw [List.mapM_cons, Action.runOn_bind_of_ok (runOn_insertOne_of_ok hd),
          Action.runOn_bind_of_ok hall, Action.runOn_pure, List.append_assoc, List.singleton_append]

/-- One after another, the documents up to the refused one are stored. -/
theorem exists_runOn_mapM_insertOne_of_error
    (h : prepareAll c.idField c.docs batch ids = (.error e, ids')) :
    ∃ c', (batch.mapM insertOne).runOn (c, ids) = (.error e, c', ids') := by
  induction batch generalizing c ids with
  | nil => cases h
  | cons d batch ih =>
    rw [prepareAll] at h
    split at h
    · next e₁ ids₁ hd =>
      cases h
      exact ⟨c, by rw [List.mapM_cons, Action.runOn_bind_of_error (runOn_insertOne_of_error hd)]⟩
    · next d' ids₁ hd =>
      split at h
      · next e₂ ids₂ hrest =>
        cases h
        obtain ⟨c', hall⟩ := ih (c := { c with docs := c.docs ++ [d'] }) hrest
        refine ⟨c', ?_⟩
        rw [List.mapM_cons, Action.runOn_bind_of_ok (runOn_insertOne_of_ok hd),
          Action.runOn_bind_of_error hall]
      · cases h

/-- A batch is inserted as its documents are one after another, or leaves the collection as it
was. -/
theorem runOn_insertMany_eq (batch : List Document) (c : Collection) (ids : IdSource) :
    (insertMany batch).runOn (c, ids) =
      match (batch.mapM insertOne).runOn (c, ids) with
      | (.ok stored, after) => (.ok stored, after)
      | (.error e, after) => (.error e, c, after.2) := by
  rcases h : prepareAll c.idField c.docs batch ids with ⟨e | stored, ids'⟩
  · obtain ⟨c', heach⟩ := exists_runOn_mapM_insertOne_of_error h
    rw [heach, runOn_insertMany_of_error h]
  · rw [runOn_mapM_insertOne_of_ok h, runOn_insertMany_of_ok h]

/-! ## Deletions -/

theorem deleteOne_eq_eraseP (f : Filter) (c : Collection) :
    c.deleteOne f = (c.docs.any fun d => f.holds d,
      { c with docs := c.docs.eraseP fun d => f.holds d }) := by
  rw [deleteOne, removeFirst_eq_eraseP]

theorem deleteMany_eq_filter (f : Filter) (c : Collection) :
    c.deleteMany f = (c.count f, { c with docs := c.docs.filter fun d => !f.holds d }) := by
  have htotal := List.length_eq_length_filter_add (l := c.docs) fun d => f.holds d
  rw [deleteMany, count, htotal, Nat.add_sub_cancel]

/-- Where there is nothing to delete, both deletions leave the collection as it is. -/
theorem eq_of_deleteOne_false (h : c.deleteOne f = (false, left)) :
    left = c ∧ c.deleteMany f = (0, c) := by
  rw [deleteOne_eq_eraseP, Prod.mk.injEq, List.any_eq_false] at h
  obtain ⟨hnone, rfl⟩ := h
  rw [deleteMany_eq_filter, count, List.filter_eq_nil_iff.mpr hnone,
    List.filter_eq_self.mpr (by simpa using hnone), List.eraseP_of_forall_not hnone]
  exact ⟨rfl, rfl⟩

/-- One deletion leaves the others for later. -/
theorem deleteMany_of_deleteOne_true (h : c.deleteOne f = (true, left)) :
    c.deleteMany f = ((left.deleteMany f).1 + 1, (left.deleteMany f).2) := by
  rw [deleteOne_eq_eraseP, Prod.mk.injEq, List.any_eq_true] at h
  obtain ⟨⟨d, hmem, hd⟩, rfl⟩ := h
  obtain ⟨d, front, back, -, hd, hdocs, herase⟩ :=
    List.exists_of_eraseP (p := fun d => f.holds d) hmem hd
  rw [herase, deleteMany_eq_filter, deleteMany_eq_filter]
  simp [count, hdocs, hd]
  omega

/-- Deletes the first document that satisfies a filter until there is none: how many deletions there
were, and what is left. -/
inductive DeletesEach (f : Filter) : Collection → Nat → Collection → Prop
  | done {c left : Collection} (h : c.deleteOne f = (false, left)) : DeletesEach f c 0 left
  | more {c c' left : Collection} {n : Nat} (h : c.deleteOne f = (true, c'))
    (hrest : DeletesEach f c' n left) : DeletesEach f c (n + 1) left

theorem deletesEach_iff : DeletesEach f c n left ↔ c.deleteMany f = (n, left) := by
  constructor
  · intro h
    induction h with
    | done h =>
      obtain ⟨rfl, hmany⟩ := eq_of_deleteOne_false h
      exact hmany
    | more h _ ih => rw [deleteMany_of_deleteOne_true h, ih]
  · intro h
    induction n generalizing c with
    | zero =>
      rcases hone : c.deleteOne f with ⟨_ | _, c'⟩
      · obtain ⟨rfl, hmany⟩ := eq_of_deleteOne_false hone
        obtain ⟨-, rfl⟩ := Prod.mk.inj (hmany.symm.trans h)
        exact .done hone
      · rw [deleteMany_of_deleteOne_true hone] at h
        cases h
    | succ n ih =>
      rcases hone : c.deleteOne f with ⟨_ | _, c'⟩
      · cases (eq_of_deleteOne_false hone).2.symm.trans h
      · rw [deleteMany_of_deleteOne_true hone] at h
        obtain ⟨hcount, hleft⟩ := Prod.mk.inj h
        exact .more hone (ih (Prod.ext (Nat.succ.inj hcount) hleft))

/-! ## Both ways -/

/-- Bulk writes do what single writes do. A batch is stored as its documents are one after another,
or refused like the first of them that is, and then the collection stays as it was. A deletion of
all is single deletions until there is none left, as many as documents satisfied the filter. An
update patches these documents in place and keeps the others. -/
theorem bulk_writes_eq_single (c : Collection) (ids : IdSource) (batch : List Document)
    (f : Filter) (patch : Document) :
    (insertMany batch).runOn (c, ids) =
      (match (batch.mapM insertOne).runOn (c, ids) with
      | (.ok stored, after) => (.ok stored, after)
      | (.error e, after) => (.error e, c, after.2)) ∧
    (∀ n left, DeletesEach f c n left ↔ c.deleteMany f = (n, left)) ∧
    (c.deleteMany f).1 = c.count f ∧
    (c.updateMany f patch).1 = c.count f ∧
    (c.updateMany f patch).2.idField = c.idField ∧
    ∀ i : Nat, (c.updateMany f patch).2.docs[i]? =
      c.docs[i]?.map fun d => if f.holds d then applyPatch c.idField patch d else d := by
  refine ⟨runOn_insertMany_eq batch c ids, fun _ _ => deletesEach_iff, ?_, ?_⟩
  · rw [deleteMany_eq_filter]
  · rw [updateMany_eq_map]
    exact ⟨rfl, rfl, fun _ => List.getElem?_map⟩

end Quire.Collection
