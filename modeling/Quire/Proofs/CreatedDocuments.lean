import Quire.Proofs.HarmlessCaching
import Quire.Proofs.ProjectedIdentifiers
import Quire.Proofs.StoredIdentities

/-!
# Created documents

A created document has an identifier that no other document has. A repository looks documents up
under a path, but stores them under a name. Where the name of the identifier has no dot the two are
the same, and the created document is read, patched and deleted by its identifier until a patch
writes below that. Where the name has a dot, the document is never found again.
-/
namespace Quire

variable {σ α : Type} {part : Part σ Collection}

namespace Collection

/-! ## The one document that satisfies a filter -/

section First

variable {p : Document → Bool} {before : List Document} {d : Document}
  (hbefore : ∀ e ∈ before, p e = false) (hd : p d = true) (after : List Document)

include hbefore hd

theorem changeFirst_append (change : Document → Document) :
    changeFirst p change (before ++ d :: after) =
      (some (change d), before ++ change d :: after) := by
  induction before with
  | nil => rw [List.nil_append, changeFirst, if_pos hd, List.nil_append]
  | cons e before ih =>
    rw [List.forall_mem_cons] at hbefore
    rw [List.cons_append, changeFirst, hbefore.1, if_neg Bool.false_ne_true, ih hbefore.2]
    rfl

theorem removeFirst_append : removeFirst p (before ++ d :: after) = (true, before ++ after) := by
  have hnone : ∀ e ∈ before, ¬ p e = true := fun e he => by simp [hbefore e he]
  rw [removeFirst_eq_eraseP, List.eraseP_append_right _ hnone, List.eraseP_cons_of_pos hd,
    List.any_append, List.any_cons, hd, Bool.true_or, Bool.or_true]

end First

/-- Of all documents one satisfies a filter. -/
def HasOnly (c : Collection) (f : Filter) (d : Document) : Prop :=
  ∃ before after, c.docs = before ++ d :: after ∧ f.holds d = true ∧
    ∀ e ∈ before ++ after, f.holds e = false

namespace HasOnly

variable {c : Collection} {f : Filter} {d : Document}

theorem selectOne (h : c.HasOnly f d) : c.selectOne { filter := f } = some d := by
  obtain ⟨before, after, hdocs, hd, hothers⟩ := h
  have hbefore : before.find? (fun e => f.holds e) = none :=
    List.find?_eq_none.mpr fun e he => by simp [hothers e (List.mem_append_left after he)]
  rw [selectOne_eq_find?, hdocs, List.find?_append, hbefore, Option.none_or, List.find?_cons, hd]

/-- A patch changes the document and no other. -/
theorem updateOne (h : c.HasOnly f d) (patch : Document) :
    (c.updateOne f patch).1 = some (applyPatch c.idField patch d) ∧
      (f.holds (applyPatch c.idField patch d) = true →
        (c.updateOne f patch).2.HasOnly f (applyPatch c.idField patch d)) ∧
      (f.holds (applyPatch c.idField patch d) = false →
        (c.updateOne f patch).2.selectOne { filter := f } = none) := by
  obtain ⟨before, after, hdocs, hd, hothers⟩ := h
  have hchange := changeFirst_append (p := fun e => f.holds e)
    (fun e he => hothers e (List.mem_append_left after he)) hd after (applyPatch c.idField patch)
  rw [Collection.updateOne, hdocs, hchange]
  refine ⟨rfl, fun hheld => ⟨before, after, rfl, hheld, hothers⟩, fun hlost => ?_⟩
  rw [selectOne_eq_find?, List.find?_eq_none]
  intro e he
  have hcases : e ∈ before ++ after ∨ e = applyPatch c.idField patch d := by
    simpa [or_assoc, or_comm, or_left_comm] using he
  rcases hcases with he | rfl
  · simp [hothers e he]
  · simp [hlost]

/-- After its deletion no document satisfies the filter. -/
theorem deleteOne (h : c.HasOnly f d) :
    (c.deleteOne f).1 = true ∧ (c.deleteOne f).2.selectOne { filter := f } = none := by
  obtain ⟨before, after, hdocs, hd, hothers⟩ := h
  have hremove := removeFirst_append (p := fun e => f.holds e)
    (fun e he => hothers e (List.mem_append_left after he)) hd after
  rw [Collection.deleteOne, hdocs, hremove]
  refine ⟨rfl, ?_⟩
  rw [selectOne_eq_find?, List.find?_eq_none]
  exact fun e he => by simp [hothers e he]

end HasOnly

/-! ## Identifiers as names and as paths -/

/-- The filter of an identifier without a dot finds exactly the documents that have it. -/
theorem holds_byId_eq_hasId {idField : String} (hdot : '.' ∉ idField.toList) (id : DocumentId)
    (d : Document) : (Filter.byId idField id).holds d = hasId idField id.toValue d := by
  rw [Filter.byId, Filter.holds, Relation.holds, Document.fieldOrNull,
    Document.getPath?_of_undotted hdot, hasId]
  cases d.get? idField with
  | none => cases id <;> rfl
  | some v => rfl

/-- A patch takes the identifier away exactly if it writes below that. -/
theorem hasId_applyPatch_iff {idField : String} {id : DocumentId} {d : Document}
    (hd : hasId idField id.toValue d = true) (patch : Document) :
    hasId idField id.toValue (applyPatch idField patch d) = true ↔ patch.Spares idField := by
  constructor
  · intro hheld
    by_contra hbelow
    have hchild : d.child idField = d.child idField := rfl
    obtain ⟨fields, hobj, -⟩ := exists_get?_applyPatch_of_not_spares hbelow hchild
    rw [hasId, hobj] at hheld
    cases id <;> exact absurd hheld Bool.false_ne_true
  · intro hspares
    rwa [hasId, get?_applyPatch_of_spares hspares]

/-- A document that brings an identifier is inserted last and as it is. -/
theorem eq_of_insertOne {c c' : Collection} {d e : Document} {v : Value} {ids ids' : IdSource}
    (hv : idOf? c.idField d = some v)
    (hrun : (insertOne d).runOn (c, ids) = (.ok e, c', ids')) :
    e = d ∧ c' = { c with docs := c.docs ++ [d] } ∧ c.docs.any (hasId c.idField v) = false := by
  rw [insertOne, Action.runOn_ofFun] at hrun
  rcases h : prepare c.idField c.docs d ids with ⟨f | e', supply⟩
  · simp only [h] at hrun
    cases hrun
  · obtain ⟨rfl, hnew⟩ := eq_of_prepare hv h
    simp only [h] at hrun
    cases hrun
    exact ⟨rfl, rfl, hnew⟩

theorem insertOne_of_empty {idField : String} {d : Document} {v : Value}
    (hv : idOf? idField d = some v) (ids : IdSource) :
    (insertOne d).runOn ({ idField }, ids) = (.ok d, { idField, docs := [d] }, ids) := by
  have hprepared : prepare idField [] d ids = (.ok d, ids) := by
    rw [prepare, hv]
    rfl
  rw [insertOne, Action.runOn_ofFun]
  simp only [hprepared]
  rfl

end Collection

theorem DocumentId.toValue_of_ofValue? {v : Value} {id : DocumentId}
    (h : DocumentId.ofValue? v = some id) : id.toValue = v := by
  cases v with
  | int n =>
    simp only [ofValue?, Value.signed64?] at h
    split at h
    · cases h
      rfl
    · cases h
  | str s =>
    cases h
    rfl
  | _ => simp [ofValue?, Value.signed64?] at h

/-- A path with a dot leads nowhere in a document that has only texts under names without. -/
theorem Document.getPath?_of_texts {path : String} (hdot : '.' ∈ path.toList) {d : Document}
    (h : ∀ name v, '.' ∉ name.toList → d.get? name = some v → ∃ text, v = .str text) :
    d.getPath? path = none := by
  have hundotted : ∀ name ∈ segments path, '.' ∉ name.toList :=
    fun name hname => undotted_of_mem_segments hname
  rcases hpath : segments path with _ | ⟨name, _ | ⟨next, rest⟩⟩
  · exact absurd hpath (segments_ne_nil path)
  · rw [hpath, List.forall_mem_singleton, ← eq_of_segments_eq_singleton hpath] at hundotted
    exact absurd hdot hundotted
  · rw [hpath] at hundotted
    rw [getPath?, hpath, at?, Value.at?]
    cases hget : d.get? name with
    | none => rfl
    | some v =>
      obtain ⟨text, rfl⟩ := h name v (hundotted name List.mem_cons_self) hget
      rfl

/-! ## Reading, patching and deleting -/

/-- Where a part of two states is the same. -/
def Part.Same {τ : Type} (part : Part σ τ) (s t : σ) : Prop := part.get s = part.get t

namespace Repository

variable {r : Repository σ}

/-- With hooks that leave the collection alone, a write ends as its change does beside the same
collection. -/
theorem exists_announced (hhooks : ∀ h ∈ r.hooks, h.Harmless part.Same True) (e : BeforeEvent)
    (change : Action σ α) (report : α → AfterEvent) (s : σ) :
    ∃ s' t, part.get s' = part.get s ∧
      (r.announced e change report).runOn s = ((change.runOn s').1, t) ∧
      part.get t = part.get (change.runOn s').2 :=
  exists_runOn_announced hhooks e change report (rfl : part.Same s s)
    (fun s' => (change.runOn s').2) fun _ _ => rfl

namespace Over

variable (hr : r.Over part) (hhooks : ∀ h ∈ r.hooks, h.Harmless part.Same True)

include hr hhooks

theorem exists_announced_change (e : BeforeEvent) (f : Collection → α × Collection)
    (report : α → AfterEvent) (s : σ) :
    ∃ t, (r.announced e (Collection.change part f) report).runOn s =
        (.ok (f (part.get s)).1, t) ∧ part.get t = (f (part.get s)).2 := by
  obtain ⟨s', t, hs', hrun, ht⟩ := exists_announced hhooks e (Collection.change part f) report s
  have hchange : (Collection.change part f).runOn s' =
      (.ok (f (part.get s')).1, part.set (f (part.get s')).2 s') := rfl
  rw [hchange, hs'] at hrun ht
  exact ⟨t, hrun, ht.trans (hr.get_set _ _)⟩

/-- A document is read by its identifier as the store finds it. -/
theorem exists_getById (id : DocumentId) (s : σ) :
    ∃ t, (r.getById id {}).runOn s =
        (.ok ((part.get s).selectOne { filter := Filter.byId r.settings.idField id }), t) ∧
      part.get t = part.get s := by
  have hfind : (r.store.findOne { filter := r.idFilter id }).Alike part.Same
      (r.store.findOne { filter := r.idFilter id }) := by
    intro s t hst
    rw [hr.store]
    exact ⟨hst, Or.inl (congrArg (fun c => Collection.findOne c _) hst)⟩
  have hreads : ∀ s t, part.Same s t →
      part.Same s ((r.store.findOne { filter := r.idFilter id }).runOn t).2 := by
    rw [hr.store]
    exact fun _ _ hst => hst
  have halike : (r.getById id {}).Alike part.Same ({ r with hooks := [] }.getById id {}) := by
    rw [getById_eq, getById_eq]
    refine (readThrough_follows hhooks rfl _ _ rfl hfind hreads _).mono ?_
    rintro _ ⟨hloud, -⟩
    exact hloud (Or.inr trivial)
  have hplain : ({ r with hooks := [] }.getById id {}).runOn s =
      (.ok ((part.get s).selectOne { filter := Filter.byId r.settings.idField id }), s) := by
    rw [getById_eq, runOn_readThrough_of_no_hooks rfl _ _ rfl]
    show (r.store.findOne { filter := r.idFilter id }).runOn s = _
    rw [hr.store]
    exact Collection.runOn_findOne_reader part rfl s
  obtain ⟨hout, hstate⟩ := halike.runOn (rfl : part.Same s s)
  rw [hplain] at hout hstate
  exact ⟨((r.getById id {}).runOn s).2, Prod.ext hout rfl, hstate⟩

/-- A patch is applied to the document that the store finds. -/
theorem exists_update (id : DocumentId) (patch : Document) (s : σ) :
    ∃ e t, (r.update id patch).runOn s =
        (.ok ((part.get s).updateOne (Filter.byId r.settings.idField id) e).1, t) ∧
      part.get t = ((part.get s).updateOne (Filter.byId r.settings.idField id) e).2 ∧
      (e.Spares r.settings.idField ↔ patch.Spares r.settings.idField) := by
  obtain ⟨e, s', hprepare, hs', hspares⟩ := hr.exists_preparePatch patch s
  obtain ⟨t, hrun, ht⟩ := hr.exists_announced_change hhooks (.update id e)
    (Collection.updateOne (Filter.byId r.settings.idField id) e) (.update id) s'
  rw [hs'] at hrun ht
  refine ⟨e, t, ?_, ht, hspares⟩
  rw [update_eq, Action.runOn_bind_of_ok hprepare, hr.store]
  exact hrun

theorem exists_delete (id : DocumentId) (s : σ) :
    ∃ t, (r.delete id).runOn s =
        (.ok ((part.get s).deleteOne (Filter.byId r.settings.idField id)).1, t) ∧
      part.get t = ((part.get s).deleteOne (Filter.byId r.settings.idField id)).2 := by
  rw [delete_eq, hr.store]
  exact hr.exists_announced_change hhooks (.delete id)
    (Collection.deleteOne (Filter.byId r.settings.idField id)) (.delete id) s

end Over

/-! ## Creating -/

/-- A document is inserted beside the collection that is there, whatever identifiers are left. -/
theorem Over.exists_announced_insertOne (hr : r.Over part)
    (hhooks : ∀ h ∈ r.hooks, h.Harmless part.Same True) (d : Document) (s : σ) :
    ∃ ids t, (r.announced (.create d) (r.store.insertOne d) .create).runOn s =
        (((Collection.insertOne d).runOn (part.get s, ids)).1, t) ∧
      part.get t = ((Collection.insertOne d).runOn (part.get s, ids)).2.1 := by
  obtain ⟨s', t, hs', hrun, ht⟩ :=
    exists_announced hhooks (.create d) (r.store.insertOne d) .create s
  obtain ⟨u, hinsert, hu⟩ := hr.exists_insertOne d s'
  rw [hinsert, hs'] at hrun
  rw [hinsert, hu, hs'] at ht
  exact ⟨r.ids.get s', t, hrun, ht⟩

/-- A document is kept under an identifier: it is read there, every patch finds it, and it can be
deleted, after which nothing is read. -/
structure Keeps (r : Repository σ) (id : DocumentId) (d : Document) (s : σ) : Prop where
  read : ((r.getById id {}).runOn s).1 = .ok (some d)
  update : ∀ patch, ∃ e, ((r.update id patch).runOn s).1 = .ok (some e)
  delete : ((r.delete id).runOn s).1 = .ok true
  gone : ((r.getById id {}).runOn ((r.delete id).runOn s).2).1 = .ok none

namespace Over

/-- A created document has an identifier, and none of the documents before it has that. -/
theorem of_create (hr : r.Over part) (hhooks : ∀ h ∈ r.hooks, h.Harmless part.Same True)
    {s t : σ} {d c : Document} (hfield : (part.get s).idField = r.settings.idField)
    (hrun : (r.create d).runOn s = (.ok c, t)) :
    ∃ v, Collection.idOf? r.settings.idField c = some v ∧
      part.get t = { part.get s with docs := (part.get s).docs ++ [c] } ∧
      (part.get s).docs.any (Collection.hasId r.settings.idField v) = false := by
  rw [create_eq] at hrun
  obtain ⟨e, s₁, hprepare, hannounced⟩ := Action.exists_of_runOn_bind hrun
  obtain ⟨hs₁, hid⟩ := hr.maintains_prepareNew (P := (· = part.get s)) d s rfl
  rw [hprepare] at hs₁ hid
  obtain ⟨v, hv⟩ := Option.isSome_iff_exists.mp (hid e rfl)
  obtain ⟨ids, t', hrun', ht'⟩ := hr.exists_announced_insertOne hhooks e s₁
  rw [hrun'] at hannounced
  obtain ⟨hout, rfl⟩ := Prod.ext_iff.mp hannounced
  rw [hs₁] at hout ht'
  have hv' : Collection.idOf? (part.get s).idField e = some v := by
    rw [hfield]
    exact hv
  obtain ⟨rfl, hdocs, hnew⟩ := Collection.eq_of_insertOne hv' (Prod.ext hout rfl)
  exact ⟨v, hv, ht'.trans hdocs, hfield ▸ hnew⟩

/-- The only document with an identifier is kept under it. -/
theorem keeps_of_hasOnly (hr : r.Over part)
    (hhooks : ∀ h ∈ r.hooks, h.Harmless part.Same True) {id : DocumentId} {d : Document} {s : σ}
    (h : (part.get s).HasOnly (Filter.byId r.settings.idField id) d) : r.Keeps id d s where
  read := by
    obtain ⟨t, hrun, -⟩ := hr.exists_getById hhooks id s
    rw [hrun, h.selectOne]
  update patch := by
    obtain ⟨e, t, hrun, -⟩ := hr.exists_update hhooks id patch s
    exact ⟨_, by rw [hrun, (h.updateOne e).1]⟩
  delete := by
    obtain ⟨t, hrun, -⟩ := hr.exists_delete hhooks id s
    rw [hrun, h.deleteOne.1]
  gone := by
    obtain ⟨t, hrun, ht⟩ := hr.exists_delete hhooks id s
    obtain ⟨u, hread, -⟩ := hr.exists_getById hhooks id t
    rw [hrun, hread, ht, h.deleteOne.2]

/-- A patched document is kept as long as the patch writes nothing below its identifier. -/
theorem exists_update_keeps_iff (hr : r.Over part)
    (hhooks : ∀ h ∈ r.hooks, h.Harmless part.Same True) (hdot : '.' ∉ r.settings.idField.toList)
    {id : DocumentId} {d : Document} {s : σ} (hfield : (part.get s).idField = r.settings.idField)
    (h : (part.get s).HasOnly (Filter.byId r.settings.idField id) d) (patch : Document) :
    ∃ e t, (r.update id patch).runOn s = (.ok (some e), t) ∧
      (r.Keeps id e t ↔ patch.Spares r.settings.idField) := by
  obtain ⟨p, t, hrun, ht, hspares⟩ := hr.exists_update hhooks id patch s
  obtain ⟨hupdated, honly, hlost⟩ := h.updateOne p
  rw [hupdated, hfield] at hrun
  rw [← ht, hfield, Collection.holds_byId_eq_hasId hdot] at honly hlost
  have hd : Collection.hasId r.settings.idField id.toValue d = true := by
    obtain ⟨-, -, -, hd, -⟩ := h
    rwa [Collection.holds_byId_eq_hasId hdot] at hd
  refine ⟨_, t, hrun, ?_⟩
  rw [← hspares, ← Collection.hasId_applyPatch_iff hd p]
  constructor
  · intro hkeeps
    by_contra hnot
    obtain ⟨u, hread, -⟩ := hr.exists_getById hhooks id t
    have hread' := hkeeps.read
    rw [hread, hlost (Bool.not_eq_true _ ▸ hnot)] at hread'
    cases hread'
  · exact fun hheld => hr.keeps_of_hasOnly hhooks (honly hheld)

/-- Under a name without a dot, a created document is the only one with its identifier. -/
theorem hasOnly_of_create (hr : r.Over part)
    (hhooks : ∀ h ∈ r.hooks, h.Harmless part.Same True) (hdot : '.' ∉ r.settings.idField.toList)
    {s t : σ} {d c : Document} (hfield : (part.get s).idField = r.settings.idField)
    (hrun : (r.create d).runOn s = (.ok c, t)) {id : DocumentId}
    (hid : (c.get? r.settings.idField).bind DocumentId.ofValue? = some id) :
    (part.get t).idField = r.settings.idField ∧
      (part.get t).HasOnly (Filter.byId r.settings.idField id) c := by
  obtain ⟨v, hv, ht, hnew⟩ := hr.of_create hhooks hfield hrun
  have hget := (Collection.idOf?_eq_some hv).1
  rw [hget] at hid
  have hvalue : id.toValue = v := DocumentId.toValue_of_ofValue? hid
  rw [ht]
  refine ⟨hfield, (part.get s).docs, [], rfl, ?_, ?_⟩
  · rw [Collection.holds_byId_eq_hasId hdot, hvalue, Collection.hasId, hget, Option.any_some,
      Value.equal, Value.compare_self]
    rfl
  · intro e he
    rw [List.append_nil] at he
    rw [Collection.holds_byId_eq_hasId hdot, hvalue]
    exact Bool.not_eq_true _ ▸ List.any_eq_false.mp hnew e he

/-! ## Identifiers with a dot -/

theorem get?_stampNew (now name : String) (d : Document) :
    (stampNew now d).get? name = d.get? name ∨
      (stampNew now d).get? name = some (.str now) ∧ '.' ∉ name.toList := by
  have hset : ∀ (stamp : String) (d : Document), '.' ∉ stamp.toList →
      (d.set stamp (.str now)).get? name = d.get? name ∨
        (d.set stamp (.str now)).get? name = some (.str now) ∧ '.' ∉ name.toList := by
    intro stamp d hdot
    by_cases hname : name = stamp
    · subst hname
      exact Or.inr ⟨Document.get?_set_self _ _ _, hdot⟩
    · exact Or.inl (Document.get?_set_of_ne hname _ _)
  rw [stampNew]
  rcases hset updatedAt (if (d.get? createdAt).isNone then d.set createdAt (.str now) else d)
    (by decide) with h | h
  · rw [h]
    split
    · exact hset createdAt d (by decide)
    · exact Or.inl rfl
  · exact Or.inr h

theorem exists_prepareNew_of_given (hr : r.Over part) {d : Document}
    (hgiven : ¬ (d.get? r.settings.idField).all Value.isNull = true) (s : σ) :
    ∃ e t, (r.prepareNew d).runOn s = (.ok e, t) ∧ part.get t = part.get s ∧
      (e = d ∨ ∃ now, e = stampNew now d) := by
  rw [prepareNew, if_neg hgiven, pure_bind]
  split
  · exact ⟨_, _, rfl, hr.get_clock _ s, Or.inr ⟨_, rfl⟩⟩
  · exact ⟨_, _, rfl, rfl, Or.inl rfl⟩

/-- Under a name with a dot, a document with nothing but an identifier is handed to the store so
that no path leads to the identifier. -/
theorem exists_prepareNew_of_dotted (hr : r.Over part) (hdot : '.' ∈ r.settings.idField.toList)
    (s : σ) :
    ∃ e t, (r.prepareNew [(r.settings.idField, .int 1)]).runOn s = (.ok e, t) ∧
      part.get t = part.get s ∧ e.get? r.settings.idField = some (.int 1) ∧
      e.getPath? r.settings.idField = none := by
  have hgiven : ¬ (Document.get? r.settings.idField [(r.settings.idField, .int 1)]).all
      Value.isNull = true := by simp [Document.get?, Value.isNull]
  obtain ⟨e, t, hrun, ht, he⟩ := hr.exists_prepareNew_of_given hgiven s
  have hget : ∀ name, e.get? name = Document.get? name [(r.settings.idField, .int 1)] ∨
      (∃ now, e.get? name = some (.str now)) ∧ '.' ∉ name.toList := by
    intro name
    rcases he with rfl | ⟨now, rfl⟩
    · exact Or.inl rfl
    · exact (get?_stampNew now name _).imp_right fun h => ⟨⟨now, h.1⟩, h.2⟩
  refine ⟨e, t, hrun, ht, ?_, ?_⟩
  · rw [(hget _).resolve_right fun h => h.2 hdot]
    simp [Document.get?]
  · refine Document.getPath?_of_texts hdot fun name v hname hv => ?_
    rcases hget name with hsame | ⟨⟨now, hnow⟩, -⟩
    · have hne : r.settings.idField ≠ name := fun heq => hname (heq ▸ hdot)
      rw [hsame, Document.get?, if_neg hne] at hv
      cases hv
    · exact ⟨now, Option.some.inj (hv.symm.trans hnow)⟩

/-- Under a name with a dot, a document with nothing but an identifier is never read again. -/
theorem exists_create_not_keeps (hr : r.Over part)
    (hhooks : ∀ h ∈ r.hooks, h.Harmless part.Same True) (hdot : '.' ∈ r.settings.idField.toList)
    (s : σ) :
    ∃ s' c t, (part.get s').idField = r.settings.idField ∧
      (r.create [(r.settings.idField, .int 1)]).runOn s' = (.ok c, t) ∧
      c.get? r.settings.idField = some (.int 1) ∧ ¬ r.Keeps (.int 1) c t := by
  obtain ⟨c, s₁, hprepare, hs₁, hget, hpath⟩ := hr.exists_prepareNew_of_dotted hdot
    (part.set { idField := r.settings.idField } s)
  obtain ⟨ids, t, hannounced, ht⟩ := hr.exists_announced_insertOne hhooks c s₁
  have hid : Collection.idOf? r.settings.idField c = some (.int 1) := by
    rw [Collection.idOf?, hget]
    rfl
  rw [hr.get_set] at hs₁
  rw [hs₁, Collection.insertOne_of_empty hid] at hannounced ht
  refine ⟨part.set { idField := r.settings.idField } s, c, t, by rw [hr.get_set], ?_, hget,
    fun hkeeps => ?_⟩
  · rw [create_eq, Action.runOn_bind_of_ok hprepare]
    exact hannounced
  · obtain ⟨u, hread, -⟩ := hr.exists_getById hhooks (.int 1) t
    have hheld : (Filter.byId r.settings.idField (.int 1)).holds c = false := by
      rw [Filter.byId, Filter.holds, Document.fieldOrNull, hpath]
      rfl
    have hfound := hkeeps.read
    rw [hread, ht, Collection.selectOne_eq_find?, List.find?_cons, hheld] at hfound
    cases hfound

end Over

/-- Every document that a repository creates has an identifier. The repository keeps it under that,
and also a patched one as long as the patch writes nothing below the identifier, exactly if the
name of the identifier has no dot. -/
theorem created_kept_iff (hr : r.Over part) (hhooks : ∀ h ∈ r.hooks, h.Harmless part.Same True)
    (start : σ) :
    (∀ s d c t, (part.get s).idField = r.settings.idField → (r.create d).runOn s = (.ok c, t) →
      ∃ v, c.get? r.settings.idField = some v ∧ v ≠ .null) ∧
    ((∀ s d c t id, (part.get s).idField = r.settings.idField →
        (r.create d).runOn s = (.ok c, t) →
        (c.get? r.settings.idField).bind DocumentId.ofValue? = some id →
        r.Keeps id c t ∧ ∀ patch, ∃ e u, (r.update id patch).runOn t = (.ok (some e), u) ∧
          (r.Keeps id e u ↔ patch.Spares r.settings.idField)) ↔
      '.' ∉ r.settings.idField.toList) := by
  refine ⟨fun s d c t hfield hrun => ?_, fun hkept hdot => ?_,
    fun hdot s d c t id hfield hrun hid => ?_⟩
  · obtain ⟨v, hv, -, -⟩ := hr.of_create hhooks hfield hrun
    exact ⟨v, Collection.idOf?_eq_some hv⟩
  · obtain ⟨s, c, t, hfield, hrun, hid, hlost⟩ := hr.exists_create_not_keeps hhooks hdot start
    refine hlost (hkept s _ c t (.int 1) hfield hrun ?_).1
    rw [hid]
    rfl
  · obtain ⟨hfield', honly⟩ := hr.hasOnly_of_create hhooks hdot hfield hrun hid
    exact ⟨hr.keeps_of_hasOnly hhooks honly, hr.exists_update_keeps_iff hhooks hdot hfield' honly⟩

end Repository

/-! ## Rows -/

namespace PlainStore

/-- No rows yet, under an identifier of any name. -/
def empty (idField : String) : PlainStore :=
  ⟨{ idField }, ⟨fun n => toString n, 0⟩, ⟨fun _ => "1970-01-01T00:00:00.000Z", 0⟩⟩

/-- Rows without hooks. -/
def rows (idField : String) (timestamps : Bool) : Repository PlainStore :=
  parts.repository "rows" { idField } timestamps []

theorem over_rows (idField : String) (timestamps : Bool) :
    (rows idField timestamps).Over parts.collection where
  store := rfl
  get_set _ _ := rfl
  get_ids _ _ := rfl
  get_clock _ _ := rfl
  before _ hh := absurd hh List.not_mem_nil
  after _ hh := absurd hh List.not_mem_nil

theorem created_kept_iff_rows :
    (∀ h ∈ (rows "id" true).hooks, h.Harmless parts.collection.Same True) ∧
      ∃ c t, ((rows "id" true).create [("id", .int 7)]).runOn (empty "id") = (.ok c, t) ∧
        (rows "id" true).Keeps (.int 7) c t := by
  have hhooks : ∀ h ∈ (rows "id" true).hooks, h.Harmless parts.collection.Same True :=
    fun _ hh => absurd hh List.not_mem_nil
  have hkept := (Repository.created_kept_iff (over_rows "id" true) hhooks (empty "id")).2.mpr
    (by decide)
  exact ⟨hhooks, _, _, rfl, (hkept (empty "id") [("id", .int 7)] _ _ (.int 7) rfl rfl rfl).1⟩

/-- Settings with a dot in the name of the identifier are valid, but a created document is not
found under its identifier. -/
theorem created_lost_rows :
    Settings.problem? { pagination := { idField := "meta.id" } } = none ∧
      ∃ c t, ((rows "meta.id" false).create [("meta.id", .int 1)]).runOn (empty "meta.id") =
          (.ok c, t) ∧
        (c.get? "meta.id").bind DocumentId.ofValue? = some (.int 1) ∧
        (((rows "meta.id" false).getById (.int 1) {}).runOn t).1 = .ok none ∧
        (((rows "meta.id" false).update (.int 1) []).runOn t).1 = .ok none ∧
        (((rows "meta.id" false).delete (.int 1)).runOn t).1 = .ok false :=
  ⟨by decide, _, _, rfl, rfl, rfl, rfl, rfl⟩

end PlainStore

end Quire
