import Quire.Proofs.CachedRuns
import Quire.Proofs.FollowedActions
import Quire.Proofs.PatchedIdentifiers

/-!
# Identities of stored documents

A repository over a collection, whatever hooks listen, as long as only the store writes the
collection. Every document that its writes leave in the collection has an identifier, and no two
have equal ones, as long as no patch writes below the identifier. A repository always names the
identifier that it stores a document under, so that whether the supply repeats itself does not
matter: the store refuses the second document.
-/
namespace Quire

variable {σ α β : Type} {part : Part σ Collection}

/-! ## Actions that keep the collection in a condition -/

/-- An action that keeps a condition on the collection at a part of the state, also where it fails,
and whose results satisfy another. -/
def Action.Maintains (part : Part σ Collection) (P : Collection → Prop) (a : Action σ α)
    (Q : α → Prop) : Prop :=
  ∀ s, P (part.get s) → P (part.get (a.runOn s).2) ∧ ∀ x, (a.runOn s).1 = .ok x → Q x

namespace Action.Maintains

variable {P : Collection → Prop}

theorem bind {a : Action σ α} {k : α → Action σ β} {Q : α → Prop} {R : β → Prop}
    (ha : a.Maintains part P Q) (hk : ∀ x, Q x → (k x).Maintains part P R) :
    (a >>= k).Maintains part P R := by
  intro s hs
  obtain ⟨hstate, hresult⟩ := ha s hs
  rw [runOn_bind]
  rcases hrun : a.runOn s with ⟨f | x, t⟩
  · rw [hrun] at hstate
    exact ⟨hstate, fun _ hy => by cases hy⟩
  · rw [hrun] at hstate hresult
    exact hk x (hresult x rfl) t hstate

theorem pure {x : α} {Q : α → Prop} (hx : Q x) :
    (Pure.pure x : Action σ α).Maintains part P Q := by
  intro s hs
  refine ⟨hs, fun y hy => ?_⟩
  cases hy
  exact hx

theorem of_quiet {a : Action σ α} (h : ∀ s, part.get (a.runOn s).2 = part.get s) :
    a.Maintains part P fun _ => True := by
  intro s hs
  refine ⟨?_, fun _ _ => trivial⟩
  rw [h s]
  exact hs

theorem inContext {c : HookContext} {a : Action (HookContext × σ) α} {Q : α → Prop}
    (h : a.Maintains (Part.snd.comp part) P Q) :
    (Repository.inContext c a).Maintains part P Q := fun s hs => h (c, s) hs

theorem onState {a : Action σ α} {Q : α → Prop} (h : a.Maintains part P Q) :
    (Repository.onState a).Maintains (Part.snd.comp part) P Q := fun s hs => h s.2 hs

end Action.Maintains

namespace Repository

/-- A repository whose store is the collection at a part of the state, which nothing else of it
writes. -/
structure Over (r : Repository σ) (part : Part σ Collection) : Prop where
  store : r.store = Collection.store part r.ids
  get_set : ∀ c s, part.get (part.set c s) = c
  get_ids : ∀ supply s, part.get (r.ids.set supply s) = part.get s
  get_clock : ∀ clock s, part.get (r.clock.set clock s) = part.get s
  before : ∀ h ∈ r.hooks, ∀ e s, part.get ((h.before e).runOn s).2.2 = part.get s.2
  after : ∀ h ∈ r.hooks, ∀ e s, part.get ((h.after e).runOn s).2.2 = part.get s.2

namespace Over

variable {r : Repository σ} {P : Collection → Prop}

theorem maintains_before (hr : r.Over part) (e : BeforeEvent) :
    (r.before e).Maintains (Part.snd.comp part) P fun _ => True := by
  have hemit : ∀ hooks : List (Hook σ), (∀ h ∈ hooks, h ∈ r.hooks) →
      (Hook.emitBefore hooks e).Maintains (Part.snd.comp part) P fun _ => True := by
    intro hooks hsub
    induction hooks with
    | nil => exact .pure trivial
    | cons h hooks ih =>
      rw [List.forall_mem_cons] at hsub
      exact .bind (.of_quiet (hr.before h hsub.1 e)) fun _ _ => ih hsub.2
  exact hemit r.hooks fun _ h => h

theorem maintains_after (hr : r.Over part) (e : AfterEvent) :
    (r.after e).Maintains (Part.snd.comp part) P fun _ => True := by
  have hemit : ∀ hooks : List (Hook σ), (∀ h ∈ hooks, h ∈ r.hooks) →
      (Hook.emitAfter hooks e).Maintains (Part.snd.comp part) P fun _ => True := by
    intro hooks hsub
    induction hooks with
    | nil => exact .pure trivial
    | cons h hooks ih =>
      rw [List.forall_mem_cons] at hsub
      exact .bind (.of_quiet (hr.after h hsub.1 e)) fun _ _ => ih hsub.2
  exact hemit r.hooks fun _ h => h

/-- What the store's part of a write keeps, the announced write keeps. -/
theorem maintains_announced (hr : r.Over part) {change : Action σ α} (e : BeforeEvent)
    (report : α → AfterEvent) (h : change.Maintains part P fun _ => True) :
    (r.announced e change report).Maintains part P fun _ => True := by
  apply Action.Maintains.inContext
  refine (hr.maintains_before e).bind fun _ _ => ?_
  refine h.onState.bind fun x _ => ?_
  exact (hr.maintains_after (report x)).bind fun _ _ => .pure trivial

theorem maintains_change (hr : r.Over part) {f : Collection → α × Collection}
    (hf : ∀ c, P c → P (f c).2) :
    (Collection.change part f).Maintains part P fun _ => True := by
  intro s hs
  refine ⟨?_, fun _ _ => trivial⟩
  have hrun : ((Collection.change part f).runOn s).2 = part.set (f (part.get s)).2 s := rfl
  rw [hrun, hr.get_set]
  exact hf _ hs

/-! ## Preparing writes -/

theorem maintains_ids (hr : r.Over part) (a : Action IdSource α) :
    (r.ids.lift a).Maintains part P fun _ => True :=
  .of_quiet fun s => hr.get_ids _ s

theorem maintains_clock (hr : r.Over part) (a : Action Clock α) :
    (r.clock.lift a).Maintains part P fun _ => True :=
  .of_quiet fun s => hr.get_clock _ s

theorem isSome_idOf?_set_str {idField : String} {d : Document}
    (h : (Collection.idOf? idField d).isSome = true) (name s : String) :
    (Collection.idOf? idField (d.set name (.str s))).isSome = true := by
  by_cases hname : idField = name
  · subst hname
    simp [Collection.idOf?, Value.isNull]
  · rwa [Collection.idOf?, Document.get?_set_of_ne hname]

theorem isSome_idOf?_stampNew {idField now : String} {d : Document}
    (h : (Collection.idOf? idField d).isSome = true) :
    (Collection.idOf? idField (stampNew now d)).isSome = true := by
  rw [stampNew]
  apply isSome_idOf?_set_str
  split
  · exact isSome_idOf?_set_str h _ _
  · exact h

theorem isSome_idOf?_of_given {idField : String} {d : Document}
    (h : ¬ (d.get? idField).all Value.isNull = true) :
    (Collection.idOf? idField d).isSome = true := by
  cases hget : d.get? idField with
  | none => simp [hget] at h
  | some v => simpa [Collection.idOf?, hget] using h

/-- A document is handed to the store with an identifier. -/
theorem maintains_prepareNew (hr : r.Over part) (d : Document) :
    (r.prepareNew d).Maintains part P fun e =>
      (Collection.idOf? r.settings.idField e).isSome = true := by
  have hstamped : ∀ e, (Collection.idOf? r.settings.idField e).isSome = true →
      (if r.timestamps then do
        let now ← r.clock.lift (Action.ofStep Clock.next)
        Pure.pure (stampNew now e)
      else Pure.pure e : Action σ Document).Maintains part P fun e =>
        (Collection.idOf? r.settings.idField e).isSome = true := by
    intro e he
    split
    · exact (hr.maintains_clock _).bind fun now _ => .pure (isSome_idOf?_stampNew he)
    · exact .pure he
  rw [prepareNew]
  split
  · next hmissing =>
    refine (hr.maintains_ids _).bind fun fresh _ => Action.Maintains.bind (.pure ?_) hstamped
    rw [withId, if_pos hmissing]
    simp [Collection.idOf?, Value.isNull]
  · next hgiven =>
    exact Action.Maintains.bind (.pure (isSome_idOf?_of_given hgiven)) hstamped

theorem maintains_prepareAllNew (hr : r.Over part) (ds : List Document) :
    (r.prepareAllNew ds).Maintains part P fun es =>
      ∀ e ∈ es, (Collection.idOf? r.settings.idField e).isSome = true := by
  induction ds with
  | nil => exact .pure (by simp)
  | cons d ds ih =>
    refine (hr.maintains_prepareNew d).bind fun e he => ?_
    exact ih.bind fun es hes => .pure (List.forall_mem_cons.mpr ⟨he, hes⟩)

theorem spares_stamp {field now : String} {patch : Document} (h : patch.Spares field) :
    (patch.set updatedAt (.str now)).Spares field := by
  intro f hf hne
  rcases Document.mem_set hf with rfl | hf
  · have hseg : segments updatedAt = [updatedAt] := Document.segments_of_undotted (by decide)
    simpa [hseg] using hne
  · exact h f hf hne

/-- A patch is handed to the store as sparing as it was given. -/
theorem maintains_preparePatch (hr : r.Over part) {patch : Document}
    (h : patch.Spares r.settings.idField) :
    (r.preparePatch patch).Maintains part P fun e => e.Spares r.settings.idField := by
  have herase : (patch.erase r.settings.idField).Spares r.settings.idField :=
    fun f hf => h f (Document.mem_of_mem_erase hf)
  rw [preparePatch]
  split
  · exact (hr.maintains_clock _).bind fun now _ => .pure (spares_stamp herase)
  · exact .pure herase

/-! ## Inserting -/

/-- What is carried out on the collection and the supply of identifiers together is carried out on
the collection. -/
theorem exists_runOn_pair (hr : r.Over part) (a : Action (Collection × IdSource) α) (s : σ) :
    ∃ t, ((part.pair r.ids).lift a).runOn s = ((a.runOn (part.get s, r.ids.get s)).1, t) ∧
      part.get t = (a.runOn (part.get s, r.ids.get s)).2.1 := by
  refine ⟨_, rfl, ?_⟩
  show part.get (r.ids.set _ (part.set _ s)) = _
  rw [hr.get_ids, hr.get_set]
  rfl

theorem exists_insertOne (hr : r.Over part) (d : Document) (s : σ) :
    ∃ t, (r.store.insertOne d).runOn s =
        (((Collection.insertOne d).runOn (part.get s, r.ids.get s)).1, t) ∧
      part.get t = ((Collection.insertOne d).runOn (part.get s, r.ids.get s)).2.1 := by
  rw [hr.store]
  exact hr.exists_runOn_pair (Collection.insertOne d) s

theorem maintains_insertOne (hr : r.Over part) {d : Document}
    (hd : (Collection.idOf? r.settings.idField d).isSome = true) :
    (r.store.insertOne d).Maintains part
      (fun c => c.idField = r.settings.idField ∧ c.Identified) fun _ => True := by
  intro s ⟨hfield, hs⟩
  refine ⟨?_, fun _ _ => trivial⟩
  obtain ⟨t, hrun, ht⟩ := hr.exists_insertOne d s
  rw [hrun, ht, Collection.insertOne, Action.runOn_ofFun]
  rcases h : Collection.prepare (part.get s).idField (part.get s).docs d (r.ids.get s) with
    ⟨f | e, supply⟩
  · simp only [h]
    exact ⟨hfield, hs⟩
  · simp only [h]
    exact ⟨hfield, hs.prepare (hfield ▸ hd) h⟩

theorem maintains_insertMany (hr : r.Over part) {ds : List Document}
    (hds : ∀ d ∈ ds, (Collection.idOf? r.settings.idField d).isSome = true) :
    (r.store.insertMany ds).Maintains part
      (fun c => c.idField = r.settings.idField ∧ c.Identified) fun _ => True := by
  intro s ⟨hfield, hs⟩
  refine ⟨?_, fun _ _ => trivial⟩
  have hrun : part.get ((r.store.insertMany ds).runOn s).2 =
      ((Collection.insertMany ds).runOn (part.get s, r.ids.get s)).2.1 := by
    rw [hr.store]
    obtain ⟨t, hrun, ht⟩ := hr.exists_runOn_pair (Collection.insertMany ds) s
    exact (congrArg (fun out => part.get out.2) hrun).trans ht
  rw [hrun, Collection.insertMany, Action.runOn_ofFun]
  rcases h : Collection.prepareAll (part.get s).idField (part.get s).docs ds (r.ids.get s) with
    ⟨f | es, supply⟩
  · simp only [h]
    exact ⟨hfield, hs⟩
  · simp only [h]
    exact ⟨hfield, hs.prepareAll (hfield ▸ hds) h⟩

/-! ## Patching -/

/-- Patches that spare the identifier leave the list of identifiers as it is. -/
theorem maintains_updateMany (hr : r.Over part) {patch : Document}
    (h : patch.Spares r.settings.idField) (f : Filter) (ids : List (Option Value)) :
    (r.updateMany f patch).Maintains part
      (fun c => c.idField = r.settings.idField ∧ c.ids = ids) fun _ => True := by
  rw [updateMany_eq]
  refine (hr.maintains_preparePatch h).bind fun e he => hr.maintains_announced _ _ ?_
  rw [hr.store]
  refine hr.maintains_change (f := Collection.updateMany f e) fun c hc => ⟨hc.1, ?_⟩
  rw [Collection.ids_updateMany (hc.1 ▸ he), hc.2]

theorem maintains_update (hr : r.Over part) {patch : Document}
    (h : patch.Spares r.settings.idField) (id : DocumentId) (ids : List (Option Value)) :
    (r.update id patch).Maintains part
      (fun c => c.idField = r.settings.idField ∧ c.ids = ids) fun _ => True := by
  rw [update_eq]
  refine (hr.maintains_preparePatch h).bind fun e he => hr.maintains_announced _ _ ?_
  rw [hr.store]
  refine hr.maintains_change (f := Collection.updateOne (r.idFilter id) e) fun c hc =>
    ⟨hc.1, ?_⟩
  rw [Collection.ids_updateOne (hc.1 ▸ he), hc.2]

end Over

/-! ## Writes -/

/-- A write of a repository. -/
inductive Write where
  | create (d : Document)
  | createMany (ds : List Document)
  | update (id : DocumentId) (patch : Document)
  | updateMany (filter : Filter) (patch : Document)
  | delete (id : DocumentId)
  | deleteMany (filter : Filter)

/-- Carries a write out and drops its result. -/
def Write.perform (r : Repository σ) : Write → Action σ Unit
  | .create d => do let _ ← r.create d
  | .createMany ds => do let _ ← r.createMany ds
  | .update id patch => do let _ ← r.update id patch
  | .updateMany f patch => do let _ ← r.updateMany f patch
  | .delete id => do let _ ← r.delete id
  | .deleteMany f => do let _ ← r.deleteMany f

/-- Whether the patch of a write, if it has one, spares a field. -/
def Write.Spares (field : String) : Write → Prop
  | .update _ patch | .updateMany _ patch => patch.Spares field
  | _ => True

/-- The state after writes one after another, whether they succeed or fail. -/
def afterWrites (r : Repository σ) (ws : List Write) (s : σ) : σ :=
  ws.foldl (fun s w => ((w.perform r).runOn s).2) s

namespace Over

variable {r : Repository σ}

/-- Every write keeps the documents told apart by their identifiers. -/
theorem maintains_write (hr : r.Over part) {w : Write} (hw : w.Spares r.settings.idField) :
    (w.perform r).Maintains part (fun c => c.idField = r.settings.idField ∧ c.Identified)
      fun _ => True := by
  -- A patch keeps every list of identifiers, so it keeps what is true of the list.
  have hpatched : ∀ {γ : Type} {a : Action σ γ}, (∀ ids, a.Maintains part
      (fun c => c.idField = r.settings.idField ∧ c.ids = ids) fun _ => True) →
      a.Maintains part (fun c => c.idField = r.settings.idField ∧ c.Identified)
        fun _ => True := by
    intro γ a ha s ⟨hfield, hs⟩
    obtain ⟨⟨hfield', hids⟩, -⟩ := ha (part.get s).ids s ⟨hfield, rfl⟩
    exact ⟨⟨hfield', hs.of_sublist (hids ▸ List.Sublist.refl _)⟩, fun _ _ => trivial⟩
  cases w with
  | create d =>
    refine Action.Maintains.bind (Q := fun _ => True) ?_ fun _ _ => .pure trivial
    rw [create_eq]
    exact (hr.maintains_prepareNew d).bind fun e he =>
      hr.maintains_announced _ _ (hr.maintains_insertOne he)
  | createMany ds =>
    refine Action.Maintains.bind (Q := fun _ => True) ?_ fun _ _ => .pure trivial
    rw [createMany_eq]
    exact (hr.maintains_prepareAllNew ds).bind fun es hes =>
      hr.maintains_announced _ _ (hr.maintains_insertMany hes)
  | update id patch =>
    exact (hpatched (hr.maintains_update hw id)).bind fun _ _ => .pure trivial
  | updateMany f patch =>
    exact (hpatched (hr.maintains_updateMany hw f)).bind fun _ _ => .pure trivial
  | delete id =>
    refine Action.Maintains.bind (Q := fun _ => True) ?_ fun _ _ => .pure trivial
    rw [delete_eq]
    refine hr.maintains_announced _ _ ?_
    rw [hr.store]
    exact hr.maintains_change (f := Collection.deleteOne (r.idFilter id)) fun c hc =>
      ⟨hc.1, hc.2.deleteOne _⟩
  | deleteMany f =>
    refine Action.Maintains.bind (Q := fun _ => True) ?_ fun _ _ => .pure trivial
    rw [deleteMany_eq]
    refine hr.maintains_announced _ _ ?_
    rw [hr.store]
    exact hr.maintains_change (f := Collection.deleteMany f) fun c hc =>
      ⟨hc.1, hc.2.deleteMany f⟩

theorem identified_afterWrites (hr : r.Over part) {s : σ}
    (hfield : (part.get s).idField = r.settings.idField) (hs : (part.get s).Identified)
    {ws : List Write} (hws : ∀ w ∈ ws, w.Spares r.settings.idField) :
    (part.get (r.afterWrites ws s)).Identified := by
  induction ws generalizing s with
  | nil => exact hs
  | cons w ws ih =>
    rw [List.forall_mem_cons] at hws
    obtain ⟨⟨hfield', hs'⟩, -⟩ := hr.maintains_write hws.1 s ⟨hfield, hs⟩
    exact ih hfield' hs' hws.2

/-! ## Patches below the identifier -/

theorem mem_erase_of_ne {name : String} {d : Document} {f : String × Value} (h : f ∈ d)
    (hne : f.1 ≠ name) : f ∈ d.erase name := by
  induction d with
  | nil => exact h
  | cons g rest ih =>
    obtain ⟨k, v⟩ := g
    rw [Document.erase]
    rcases List.mem_cons.mp h with rfl | h
    · rw [if_neg hne]
      exact List.mem_cons_self
    · split
      · exact ih h
      · exact List.mem_cons_of_mem _ (ih h)

theorem mem_set_of_ne {name : String} {v : Value} {d : Document} {f : String × Value} (h : f ∈ d)
    (hne : f.1 ≠ name) : f ∈ d.set name v := by
  induction d with
  | nil => exact absurd h List.not_mem_nil
  | cons g rest ih =>
    obtain ⟨k, w⟩ := g
    rw [Document.set]
    split
    · exact List.mem_cons_of_mem _ h
    · split
      · next hk =>
        rcases List.mem_cons.mp h with rfl | h
        · exact absurd hk.symm hne
        · exact List.mem_cons_of_mem _ h
      · rcases List.mem_cons.mp h with rfl | h
        · exact List.mem_cons_self
        · exact List.mem_cons_of_mem _ (ih h)

theorem spares_of_stamped {field now : String} {patch : Document}
    (h : (patch.set updatedAt (.str now)).Spares field) : patch.Spares field := by
  intro f hf hne
  by_cases hname : f.1 = updatedAt
  · have hseg : segments f.1 = [f.1] := by
      rw [hname]
      exact Document.segments_of_undotted (by decide)
    simpa [hseg] using hne
  · exact h f (mem_set_of_ne hf hname) hne

theorem spares_of_erased {field : String} {patch : Document}
    (h : (patch.erase field).Spares field) : patch.Spares field :=
  fun f hf hne => h f (mem_erase_of_ne hf hne) hne

/-- A patch is handed to the store exactly as sparing as it was given. -/
theorem exists_preparePatch (hr : r.Over part) (patch : Document) (s : σ) :
    ∃ e t, (r.preparePatch patch).runOn s = (.ok e, t) ∧ part.get t = part.get s ∧
      (e.Spares r.settings.idField ↔ patch.Spares r.settings.idField) := by
  have hsome : ∃ e t, (r.preparePatch patch).runOn s = (.ok e, t) ∧ part.get t = part.get s ∧
      (e.Spares r.settings.idField → patch.Spares r.settings.idField) := by
    rw [preparePatch]
    split
    · exact ⟨_, _, rfl, hr.get_clock _ s, fun h => spares_of_erased (spares_of_stamped h)⟩
    · exact ⟨_, _, rfl, rfl, spares_of_erased⟩
  obtain ⟨e, t, hrun, ht, hspares⟩ := hsome
  refine ⟨e, t, hrun, ht, hspares, fun h => ?_⟩
  exact (hr.maintains_preparePatch (P := fun _ => True) h s trivial).2 e (by rw [hrun])

end Over

end Repository

/-- Two documents with nothing but an identifier. -/
def Collection.twoNumbered (idField : String) : Collection :=
  { idField, docs := [[(idField, .int 1)], [(idField, .int 2)]] }

namespace Collection

theorem ids_twoNumbered (idField : String) :
    (twoNumbered idField).ids = [some (.int 1), some (.int 2)] := by
  simp [ids, twoNumbered, Document.get?]

theorem identified_twoNumbered (idField : String) : (twoNumbered idField).Identified := by
  have hdifferent : (Value.int 1).equal (.int 2) = false := by decide
  constructor
  · rw [ids_twoNumbered]
    simp
  · rw [ids_twoNumbered]
    simp only [List.pairwise_pair]
    intro v w hv hw
    cases hv
    cases hw
    exact hdifferent

/-- After a patch below the identifier the two have the same one. -/
theorem ids_updateMany_twoNumbered {idField : String} {patch : Document}
    (h : ¬ patch.Spares idField) :
    ∃ fields, ((twoNumbered idField).updateMany .all patch).2.ids =
      [some (.obj fields), some (.obj fields)] := by
  have hchild : Document.child idField [(idField, .int 1)] =
      Document.child idField [(idField, .int 2)] := by simp [Document.child, Document.get?]
  obtain ⟨fields, hfirst, hsecond⟩ := exists_get?_applyPatch_of_not_spares h hchild
  refine ⟨fields, ?_⟩
  simp [ids, updateMany_eq_map, twoNumbered, Filter.holds, hfirst, hsecond]

theorem not_identified_of_ids {c : Collection} {v : Value} (h : c.ids = [some v, some v]) :
    ¬ c.Identified := by
  intro hc
  have hapart := hc.apart
  rw [h, List.pairwise_pair] at hapart
  have hequal := hapart v v rfl rfl
  rw [Value.equal, Value.compare_self] at hequal
  exact absurd hequal (by decide)

end Collection

namespace Repository

/-- Without hooks, a patch below the identifier gives two documents the same one. -/
theorem Over.exists_ids_of_not_spares {r : Repository σ} (hr : r.Over part) {patch : Document}
    (hpatch : ¬ patch.Spares r.settings.idField) (s : σ) :
    ∃ fields, (part.get (({ r with hooks := [] }.updateMany .all patch).runOn
      (part.set (.twoNumbered r.settings.idField) s)).2).ids =
        [some (.obj fields), some (.obj fields)] := by
  have hbare : Over { r with hooks := [] } part :=
    ⟨hr.store, hr.get_set, hr.get_ids, hr.get_clock, by simp, by simp⟩
  obtain ⟨e, t, hprepare, ht, he⟩ := hbare.exists_preparePatch patch
    (part.set (.twoNumbered r.settings.idField) s)
  rw [hr.get_set] at ht
  have hrun : part.get (({ r with hooks := [] }.updateMany .all patch).runOn
      (part.set (.twoNumbered r.settings.idField) s)).2 =
        ((Collection.twoNumbered r.settings.idField).updateMany .all e).2 := by
    rw [updateMany_eq, Action.runOn_bind_of_ok hprepare, runOn_announced_of_no_hooks rfl,
      hbare.store]
    show part.get (part.set ((part.get t).updateMany .all e).2 t) = _
    rw [hr.get_set, ht]
  rw [hrun]
  exact Collection.ids_updateMany_twoNumbered fun hspares => hpatch (he.mp hspares)

/-- Writes from an empty collection leave documents with identifiers that are all different, as
long as the patches spare the identifier. Such a patch leaves the identifiers of all documents as
they are. Any other patch changes identifiers and gives two documents the same one, somewhere. -/
theorem writes_keep_identity {r : Repository σ} (hr : r.Over part) (s : σ) :
    (∀ ws : List Write, part.get s = { idField := r.settings.idField } →
      (∀ w ∈ ws, w.Spares r.settings.idField) → (part.get (r.afterWrites ws s)).Identified) ∧
    (∀ patch : Document, patch.Spares r.settings.idField →
      (part.get s).idField = r.settings.idField → ∀ (f : Filter) (id : DocumentId),
      (part.get ((r.updateMany f patch).runOn s).2).ids = (part.get s).ids ∧
        (part.get ((r.update id patch).runOn s).2).ids = (part.get s).ids) ∧
    ∀ patch : Document, ¬ patch.Spares r.settings.idField →
      ∃ t, (part.get t).idField = r.settings.idField ∧ (part.get t).Identified ∧
        (part.get (({ r with hooks := [] }.updateMany .all patch).runOn t).2).ids ≠
          (part.get t).ids ∧
        ¬ (part.get (({ r with hooks := [] }.updateMany .all patch).runOn t).2).Identified := by
  refine ⟨fun ws hempty hws => ?_, fun patch hpatch hfield f id => ⟨?_, ?_⟩, fun patch hpatch => ?_⟩
  · refine hr.identified_afterWrites (by rw [hempty]) ?_ hws
    rw [hempty]
    exact Collection.identified_empty _
  · exact (hr.maintains_updateMany hpatch f (part.get s).ids s ⟨hfield, rfl⟩).1.2
  · exact (hr.maintains_update hpatch id (part.get s).ids s ⟨hfield, rfl⟩).1.2
  · obtain ⟨fields, hids⟩ := hr.exists_ids_of_not_spares hpatch s
    refine ⟨part.set (.twoNumbered r.settings.idField) s, ?_, ?_, ?_, ?_⟩
    · rw [hr.get_set]
      rfl
    · rw [hr.get_set]
      exact Collection.identified_twoNumbered _
    · rw [hids, hr.get_set, Collection.ids_twoNumbered]
      simp
    · exact Collection.not_identified_of_ids hids

end Repository

/-! ## Rows -/

namespace CachedStore

variable {κ : Type} (p : CachePlugin κ) (settings : PagingSettings) (timestamps : Bool)

/-- The caching hook writes the cache alone. -/
theorem over_repository : (repository p settings timestamps).Over collectionPart where
  store := rfl
  get_set _ _ := rfl
  get_ids _ _ := rfl
  get_clock _ _ := rfl
  before h hh e s := by
    rw [List.mem_singleton.mp hh]
    rfl
  after h hh e s := by
    rw [List.mem_singleton.mp hh]
    rfl

/-- Two rows, a patch of both and a third that comes too late. -/
def rowWrites : List Repository.Write :=
  [.create [("id", .int 1)], .create [("id", .int 2)], .updateMany .all [("n", .int 5)],
    .create [("id", .int 2)]]

theorem writes_keep_identity_rows :
    (noRows.collection = { idField := "id" } ∧ ∀ w ∈ rowWrites, w.Spares "id") ∧
      ((repository rowsCache rowsPaging false).afterWrites rowWrites
        noRows).collection.Identified := by
  have hempty : noRows.collection = { idField := "id" } := rfl
  have hspares : ∀ w ∈ rowWrites, w.Spares "id" := by
    have hpatch : Document.Spares "id" [("n", .int 5)] := by decide
    simp only [rowWrites, List.forall_mem_cons]
    exact ⟨trivial, trivial, hpatch, trivial, by simp⟩
  exact ⟨⟨hempty, hspares⟩, (Repository.writes_keep_identity
    (over_repository rowsCache rowsPaging false) noRows).1 rowWrites hempty hspares⟩

/-- A patch below the identifier gives both rows the same one. -/
theorem writes_lose_identity_rows :
    ¬ ((repository rowsCache rowsPaging false).afterWrites
      [.create [("id", .int 1)], .create [("id", .int 2)], .updateMany .all [("id.x", .int 1)]]
      noRows).collection.Identified := by
  have hids : ((repository rowsCache rowsPaging false).afterWrites
      [.create [("id", .int 1)], .create [("id", .int 2)], .updateMany .all [("id.x", .int 1)]]
      noRows).collection.ids = [some (.obj [("x", .int 1)]), some (.obj [("x", .int 1)])] := by
    rfl
  exact Collection.not_identified_of_ids hids

end CachedStore
end Quire
