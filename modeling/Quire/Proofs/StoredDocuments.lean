import Quire.Proofs.Positions
import Quire.Repository

/-!
# Conditions on stored documents

A condition on all parts of a document that holds of what is inserted, and of the patches, holds of
everything that is stored.
-/
namespace Quire

/-- A condition that is kept where fields are written, and that texts satisfy. -/
structure Value.Storable (q : Value → Bool) : Prop extends Value.KeptBySet q where
  str : ∀ s, q (.str s) = true

theorem Value.storable_isSigned64 : Value.Storable Value.isSigned64 :=
  ⟨Value.keptBySet_isSigned64, fun _ => rfl⟩

theorem Value.storable_isWhole64 : Value.Storable Value.isWhole64 :=
  ⟨Value.keptBySet_isWhole64, fun _ => rfl⟩

theorem Value.storable_isSized64 : Value.Storable Value.isSized64 :=
  ⟨Value.keptBySet_isSized64, fun _ => rfl⟩

/-- A document that lists its fields in order, and whose parts all satisfy a condition. -/
structure Document.Sound (q : Value → Bool) (d : Document) : Prop where
  ordered : (Value.obj d).Ordered
  every : (Value.obj d).every q = true

instance (q : Value → Bool) (d : Document) : Decidable (d.Sound q) :=
  decidable_of_iff ((Value.obj d).Ordered ∧ (Value.obj d).every q = true)
    ⟨fun h => ⟨h.1, h.2⟩, fun h => ⟨h.ordered, h.every⟩⟩

namespace Document.Sound

variable {q : Value → Bool} {d : Document}

theorem set_str (hq : Value.Storable q) (h : d.Sound q) (name s : String) :
    (Document.set name (.str s) d).Sound q :=
  ⟨Value.every_set Value.keptBySet_hasOrder h.ordered name rfl,
    Value.every_set hq.toKeptBySet h.every name (hq.str s)⟩

theorem erase (hq : Value.Storable q) (h : d.Sound q) (name : String) :
    (Document.erase name d).Sound q :=
  ⟨Value.every_erase Value.keptBySet_hasOrder h.ordered name,
    Value.every_erase hq.toKeptBySet h.every name⟩

theorem setPath (hq : Value.Storable q) (h : d.Sound q) (path : String) {v : Value}
    (hordered : v.Ordered) (hevery : v.every q = true) : (d.setPath path v).Sound q :=
  ⟨Document.every_setPath Value.keptBySet_hasOrder h.ordered path hordered,
    Document.every_setPath hq.toKeptBySet h.every path hevery⟩

theorem project (hq : Value.Storable q) (h : d.Sound q) (projection : Projection)
    (idField : String) : (projection.apply idField d).Sound q :=
  ⟨Document.every_project Value.keptBySet_hasOrder h.ordered projection idField,
    Document.every_project hq.toKeptBySet h.every projection idField⟩

theorem applyPatch (hq : Value.Storable q) {patch : Document} (hpatch : patch.Sound q)
    (h : d.Sound q) (idField : String) : (Collection.applyPatch idField patch d).Sound q := by
  have hfold : ∀ (fs : List (String × Value)) (d : Document),
      (∀ f ∈ fs, f.2.Ordered ∧ f.2.every q = true) → d.Sound q →
        (fs.foldl (fun d f => if f.1 = idField then d else d.setPath f.1 f.2) d).Sound q := by
    intro fs
    induction fs with
    | nil => exact fun _ _ hd => hd
    | cons f fs ih =>
      intro d hfs hd
      rw [List.forall_mem_cons] at hfs
      refine ih _ hfs.2 ?_
      show Document.Sound q (if f.1 = idField then d else d.setPath f.1 f.2)
      split
      · exact hd
      · exact hd.setPath hq f.1 hfs.1.1 hfs.1.2
  refine hfold patch d (fun f hf => ⟨?_, ?_⟩) h
  · exact ((Value.every_obj _ _).mp hpatch.ordered).2 f hf
  · exact ((Value.every_obj _ _).mp hpatch.every).2 f hf

end Document.Sound

/-! ## Collections -/

namespace Collection

variable {q : Value → Bool} {c : Collection}

/-- All stored documents are sound. -/
def Sound (q : Value → Bool) (c : Collection) : Prop := ∀ d ∈ c.docs, d.Sound q

instance (q : Value → Bool) (c : Collection) : Decidable (c.Sound q) :=
  inferInstanceAs (Decidable (∀ d ∈ c.docs, d.Sound q))

theorem Sound.append (h : c.Sound q) {ds : List Document} (hds : ∀ d ∈ ds, d.Sound q) :
    Sound q { c with docs := c.docs ++ ds } :=
  fun d hd => (List.mem_append.mp hd).elim (h d) (hds d)

/-- What a request finds are stored documents, or what its projection keeps of them. -/
theorem exists_of_mem_select {query : FindQuery} {e : Document} (h : e ∈ c.select query) :
    ∃ d ∈ c.docs, e = (query.projection.map (·.apply c.idField d)).getD d := by
  have hsort : ∀ d ∈ query.sort.sort (c.docs.filter fun d => query.filter.holds d),
      d ∈ c.docs := by
    intro d hd
    have hmem := (SortOrder.perm_stableSort _).mem_iff.mp hd
    exact List.mem_of_mem_filter hmem
  rw [Collection.select] at h
  split at h
  · next p hp =>
    obtain ⟨d, hd, rfl⟩ := List.mem_map.mp h
    refine ⟨d, ?_, by rw [hp]; rfl⟩
    split at hd
    · exact hsort d (List.mem_of_mem_drop (List.mem_of_mem_take hd))
    · exact hsort d (List.mem_of_mem_drop hd)
  · next hp =>
    refine ⟨e, ?_, by rw [hp]; rfl⟩
    split at h
    · exact hsort e (List.mem_of_mem_drop (List.mem_of_mem_take h))
    · exact hsort e (List.mem_of_mem_drop h)

theorem Sound.select (hq : Value.Storable q) (h : c.Sound q) (query : FindQuery) :
    ∀ d ∈ c.select query, d.Sound q := by
  intro e he
  obtain ⟨d, hd, rfl⟩ := exists_of_mem_select he
  cases query.projection with
  | none => exact h d hd
  | some p => exact (h d hd).project hq _ _

/-- A document is stored as it is given, or with an identifier from the supply. -/
theorem eq_or_eq_of_prepare {idField : String} {others : List Document} {d e : Document}
    {ids ids' : IdSource} (h : prepare idField others d ids = (.ok e, ids')) :
    e = d ∨ ∃ s, e = d.set idField (.str s) := by
  rw [prepare] at h
  split at h
  · split at h
    · cases h
    · cases h
      exact Or.inl rfl
  · cases h
    exact Or.inr ⟨_, rfl⟩

theorem sound_of_prepare (hq : Value.Storable q) {idField : String} {others : List Document}
    {d e : Document} {ids ids' : IdSource} (hd : d.Sound q)
    (h : prepare idField others d ids = (.ok e, ids')) : e.Sound q := by
  rcases eq_or_eq_of_prepare h with rfl | ⟨s, rfl⟩
  · exact hd
  · exact hd.set_str hq idField s

theorem sound_of_prepareAll (hq : Value.Storable q) {idField : String}
    {others ds es : List Document} {ids ids' : IdSource} (hds : ∀ d ∈ ds, d.Sound q)
    (h : prepareAll idField others ds ids = (.ok es, ids')) : ∀ e ∈ es, e.Sound q := by
  induction ds generalizing others ids ids' es with
  | nil =>
    cases h
    simp
  | cons d ds ih =>
    rw [List.forall_mem_cons] at hds
    rw [prepareAll] at h
    split at h
    · cases h
    · next e ids₁ he =>
      split at h
      · cases h
      · next rest ids₂ hrest =>
        cases h
        rw [List.forall_mem_cons]
        exact ⟨sound_of_prepare hq hds.1 he, ih hds.2 hrest⟩

theorem mem_changeFirst {p : Document → Bool} {change : Document → Document}
    {docs : List Document} {d : Document} (h : d ∈ (changeFirst p change docs).2) :
    d ∈ docs ∨ ∃ e ∈ docs, d = change e := by
  induction docs with
  | nil => cases h
  | cons e docs ih =>
    rw [changeFirst] at h
    split at h
    · rcases List.mem_cons.mp h with rfl | h
      · exact Or.inr ⟨e, List.mem_cons_self, rfl⟩
      · exact Or.inl (List.mem_cons_of_mem _ h)
    · rcases List.mem_cons.mp h with rfl | h
      · exact Or.inl List.mem_cons_self
      · rcases ih h with h | ⟨f, hf, rfl⟩
        · exact Or.inl (List.mem_cons_of_mem _ h)
        · exact Or.inr ⟨f, List.mem_cons_of_mem _ hf, rfl⟩

theorem changeAll_eq_map (p : Document → Bool) (change : Document → Document)
    (docs : List Document) :
    changeAll p change docs =
      ((docs.filter p).length, docs.map fun d => if p d then change d else d) := by
  induction docs with
  | nil => rfl
  | cons d docs ih =>
    rw [changeAll, ih]
    cases hd : p d <;> simp [hd]

/-- The documents stay in place, and those that satisfy the filter are patched and counted. -/
theorem updateMany_eq_map (f : Filter) (patch : Document) (c : Collection) :
    c.updateMany f patch =
      (c.count f, { c with
        docs := c.docs.map fun d => if f.holds d then applyPatch c.idField patch d else d }) := by
  rw [updateMany, changeAll_eq_map, count]

theorem removeFirst_eq_eraseP (p : Document → Bool) (docs : List Document) :
    removeFirst p docs = (docs.any p, docs.eraseP p) := by
  induction docs with
  | nil => rfl
  | cons d docs ih =>
    rw [removeFirst, ih, List.any_cons, List.eraseP_cons]
    cases p d <;> rfl

theorem mem_of_mem_removeFirst {p : Document → Bool} {docs : List Document} {d : Document}
    (h : d ∈ (removeFirst p docs).2) : d ∈ docs := by
  rw [removeFirst_eq_eraseP] at h
  exact List.mem_of_mem_eraseP h

theorem Sound.updateOne (hq : Value.Storable q) (h : c.Sound q) {patch : Document}
    (hpatch : patch.Sound q) (f : Filter) : Sound q (c.updateOne f patch).2 := by
  intro d hd
  rcases mem_changeFirst hd with hd | ⟨e, he, rfl⟩
  · exact h d hd
  · exact hpatch.applyPatch hq (h e he) _

theorem Sound.updateMany (hq : Value.Storable q) (h : c.Sound q) {patch : Document}
    (hpatch : patch.Sound q) (f : Filter) : Sound q (c.updateMany f patch).2 := by
  intro d hd
  rw [updateMany_eq_map] at hd
  obtain ⟨e, he, rfl⟩ := List.mem_map.mp hd
  split
  · exact hpatch.applyPatch hq (h e he) _
  · exact h e he

theorem Sound.deleteOne (h : c.Sound q) (f : Filter) : Sound q (c.deleteOne f).2 :=
  fun d hd => h d (mem_of_mem_removeFirst hd)

theorem Sound.deleteMany (h : c.Sound q) (f : Filter) : Sound q (c.deleteMany f).2 :=
  fun d hd => h d (List.mem_of_mem_filter hd)

end Collection
end Quire
