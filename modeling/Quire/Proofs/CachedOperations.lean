import Quire.Proofs.CachedStores

/-!
# Effects of operations

Every operation of a cached repository is a chain of effects.
-/
namespace Quire

namespace CachedStore

variable {κ α : Type} (p : CachePlugin κ) (settings : PagingSettings) (timestamps : Bool)
  (scope : Scope)

/-! ## Preparing writes -/

theorem exists_prepareNew {q : Value → Bool} (hq : Value.Storable q) {d : Document} (hd : d.Sound q)
    (w : CachedStore κ) :
    ∃ e ids clock, ((repository p settings timestamps).prepareNew d).runOn w =
      (.ok e, { w with ids, clock }) ∧ e.Sound q := by
  have hwithId : ∀ fresh, (Repository.withId settings.idField fresh d).Sound q := by
    intro fresh
    rw [Repository.withId]
    split
    · exact hd.set_str hq _ _
    · exact hd
  have hstamp : ∀ now e, Document.Sound q e → (Repository.stampNew now e).Sound q := by
    intro now e he
    rw [Repository.stampNew]
    refine Document.Sound.set_str hq ?_ _ _
    split
    · exact he.set_str hq _ _
    · exact he
  rw [Repository.prepareNew]
  have htimes : (repository p settings timestamps).timestamps = timestamps := rfl
  split
  · rw [htimes]
    cases timestamps
    · refine ⟨_, _, _, rfl, hwithId _⟩
    · refine ⟨_, _, _, rfl, hstamp _ _ (hwithId _)⟩
  · rw [htimes]
    cases timestamps
    · refine ⟨_, _, _, rfl, hd⟩
    · refine ⟨_, _, _, rfl, hstamp _ _ hd⟩

theorem exists_prepareAllNew {q : Value → Bool} (hq : Value.Storable q) {ds : List Document}
    (hds : ∀ d ∈ ds, d.Sound q) (w : CachedStore κ) :
    ∃ es ids clock, ((repository p settings timestamps).prepareAllNew ds).runOn w =
      (.ok es, { w with ids, clock }) ∧ ∀ e ∈ es, e.Sound q := by
  induction ds generalizing w with
  | nil => exact ⟨[], w.ids, w.clock, rfl, by simp⟩
  | cons d ds ih =>
    rw [List.forall_mem_cons] at hds
    obtain ⟨e, ids, clock, hrun, he⟩ :=
      exists_prepareNew p settings timestamps hq hds.1 w
    obtain ⟨es, ids', clock', hruns, hes⟩ := ih hds.2 { w with ids, clock }
    refine ⟨e :: es, ids', clock', ?_, List.forall_mem_cons.mpr ⟨he, hes⟩⟩
    rw [Repository.prepareAllNew, Action.runOn_bind_of_ok hrun, Action.runOn_bind_of_ok hruns]
    rfl

theorem exists_preparePatch {q : Value → Bool} (hq : Value.Storable q) {patch : Document}
    (hpatch : patch.Sound q) (w : CachedStore κ) :
    ∃ e clock, ((repository p settings timestamps).preparePatch patch).runOn w =
      (.ok e, { w with clock }) ∧ e.Sound q := by
  have herase := hpatch.erase hq settings.idField
  rw [Repository.preparePatch, show (repository p settings timestamps).timestamps = timestamps from
    rfl]
  cases timestamps
  · exact ⟨_, w.clock, rfl, herase⟩
  · exact ⟨_, _, rfl, herase.set_str hq _ _⟩

/-! ## Inserting -/

theorem exists_insertOne {q : Value → Bool} (hq : Value.Storable q) {d : Document} (hd : d.Sound q)
    (w : CachedStore κ) :
    ∃ ids, (∃ f, ((repository p settings timestamps).store.insertOne d).runOn w =
        (.error f, { w with ids })) ∨
      ∃ e, ((repository p settings timestamps).store.insertOne d).runOn w =
        (.ok e, { w with
          ids, collection := { w.collection with docs := w.collection.docs ++ [e] } }) ∧
        e.Sound q := by
  have hrun : ((repository p settings timestamps).store.insertOne d).runOn w =
      (((Collection.insertOne d).runOn (w.collection, w.ids)).1,
        { w with
          ids := ((Collection.insertOne d).runOn (w.collection, w.ids)).2.2
          collection := ((Collection.insertOne d).runOn (w.collection, w.ids)).2.1 }) := rfl
  rw [hrun, Collection.insertOne, Action.runOn_ofFun]
  rcases h : Collection.prepare w.collection.idField w.collection.docs d w.ids with ⟨f | e, ids⟩
  · refine ⟨ids, Or.inl ⟨f, ?_⟩⟩
    simp only [h]
  · refine ⟨ids, Or.inr ⟨e, ?_, Collection.sound_of_prepare hq hd h⟩⟩
    simp only [h]

theorem exists_insertMany {q : Value → Bool} (hq : Value.Storable q) {ds : List Document}
    (hds : ∀ d ∈ ds, d.Sound q) (w : CachedStore κ) :
    ∃ ids, (∃ f, ((repository p settings timestamps).store.insertMany ds).runOn w =
        (.error f, { w with ids })) ∨
      ∃ es, ((repository p settings timestamps).store.insertMany ds).runOn w =
        (.ok es, { w with
          ids, collection := { w.collection with docs := w.collection.docs ++ es } }) ∧
        ∀ e ∈ es, e.Sound q := by
  have hrun : ((repository p settings timestamps).store.insertMany ds).runOn w =
      (((Collection.insertMany ds).runOn (w.collection, w.ids)).1,
        { w with
          ids := ((Collection.insertMany ds).runOn (w.collection, w.ids)).2.2
          collection := ((Collection.insertMany ds).runOn (w.collection, w.ids)).2.1 }) := rfl
  rw [hrun, Collection.insertMany, Action.runOn_ofFun]
  rcases h : Collection.prepareAll w.collection.idField w.collection.docs ds w.ids with
    ⟨f | es, ids⟩
  · refine ⟨ids, Or.inl ⟨f, ?_⟩⟩
    simp only [h]
  · refine ⟨ids, Or.inr ⟨es, ?_, Collection.sound_of_prepareAll hq hds h⟩⟩
    simp only [h]

/-! ## Writes -/

/-- What a write leaves behind is one effect and the raised version written out, or nothing where
the store refuses. -/
theorem effects_announced (henabled : p.settings.enabled = true) {e : BeforeEvent}
    (he : e.operation.isRead = false) {change : Action (CachedStore κ) α} {report : α → AfterEvent}
    (hreport : ∀ x, (report x).operation.isRead = false) {w : CachedStore κ}
    (herror : ∀ f t, change.runOn w = (.error f, t) → t.snapshot = w.snapshot)
    (hok : ∀ x t, change.runOn w = (.ok x, t) → Effect p settings scope w.snapshot
      ⟨t.collection, ListVersion.next t.cache.version.current,
        p.afterWrite (report x) t.cache.adapter⟩) :
    Effects p settings scope w.snapshot
      (((repository p settings timestamps).announced e change report).runOn w).2.snapshot := by
  have hrun := runOn_announced p settings timestamps henabled he change hreport w
  rcases hchange : change.runOn w with ⟨f | x, t⟩
  · simp only [hchange] at hrun
    rw [hrun, herror f t hchange]
  · simp only [hchange] at hrun
    obtain ⟨stats, hrun⟩ := hrun
    rw [hrun]
    exact (Relation.ReflTransGen.single (hok x t hchange)).tail (Effect.persist _ _ _ _ _)

/-- A change of the collection by the store does not fail. -/
theorem effects_announced_change (henabled : p.settings.enabled = true) {e : BeforeEvent}
    (he : e.operation.isRead = false) (f : Collection → α × Collection) {report : α → AfterEvent}
    (hreport : ∀ x, (report x).operation.isRead = false) {w : CachedStore κ}
    (heffect : Effect p settings scope w.snapshot
      ⟨(f w.collection).2, ListVersion.next w.cache.version.current,
        p.afterWrite (report (f w.collection).1) w.cache.adapter⟩) :
    Effects p settings scope w.snapshot
      (((repository p settings timestamps).announced e (Collection.change collectionPart f)
        report).runOn w).2.snapshot := by
  have hrun : (Collection.change collectionPart f).runOn w =
      (.ok (f w.collection).1, { w with collection := (f w.collection).2 }) := rfl
  refine effects_announced p settings timestamps scope henabled he hreport ?_ ?_
  · intro f t h
    rw [hrun] at h
    cases h
  · intro x t h
    rw [hrun] at h
    cases h
    exact heffect

variable {scope}

/-- An insertion by the store is refused, or it appends documents. -/
theorem effects_announced_insert (henabled : p.settings.enabled = true) {e : BeforeEvent}
    (he : e.operation.isRead = false) {insert : Action (CachedStore κ) α} {report : α → AfterEvent}
    (hreport : ∀ x, (report x).operation.isRead = false) {w : CachedStore κ}
    (hversion : scope.versions w.cache.version.current) (added : α → List Document)
    (hinsert : ∃ ids, (∃ f, insert.runOn w = (.error f, { w with ids })) ∨
      ∃ x, insert.runOn w = (.ok x, { w with
          ids, collection := { w.collection with docs := w.collection.docs ++ added x } }) ∧
        ∀ d ∈ added x, d.Sound scope.parts)
    (hafter : ∀ x k, p.afterWrite (report x) k = k) :
    Effects p settings scope w.snapshot
      (((repository p settings timestamps).announced e insert report).runOn w).2.snapshot := by
  obtain ⟨ids, ⟨f, hrun⟩ | ⟨x, hrun, hsound⟩⟩ := hinsert
  all_goals
    refine effects_announced p settings timestamps scope henabled he hreport (fun g t h => ?_)
      (fun y t h => ?_)
    all_goals
      rw [hrun] at h
      cases h
  · rfl
  · rw [hafter]
    exact Effect.insert _ _ _ hversion hsound

theorem effects_create (henabled : p.settings.enabled = true) (hq : Value.Storable scope.parts)
    {d : Document} (hd : d.Sound scope.parts) (w : CachedStore κ)
    (hversion : scope.versions w.cache.version.current) :
    Effects p settings scope w.snapshot
      (((repository p settings timestamps).create d).runOn w).2.snapshot := by
  obtain ⟨e, ids, clock, hprepare, he⟩ :=
    exists_prepareNew p settings timestamps hq hd w
  rw [Repository.create_eq, Action.runOn_bind_of_ok hprepare]
  obtain ⟨ids', hinsert⟩ := exists_insertOne p settings timestamps hq he { w with ids, clock }
  exact effects_announced_insert p settings timestamps henabled rfl (fun _ => rfl)
    (w := { w with ids, clock }) hversion (fun stored => [stored])
    ⟨ids', hinsert.imp id fun ⟨stored, hrun, hstored⟩ =>
      ⟨stored, hrun, List.forall_mem_singleton.mpr hstored⟩⟩ fun _ _ => rfl

theorem effects_createMany (henabled : p.settings.enabled = true) (hq : Value.Storable scope.parts)
    {ds : List Document} (hds : ∀ d ∈ ds, d.Sound scope.parts) (w : CachedStore κ)
    (hversion : scope.versions w.cache.version.current) :
    Effects p settings scope w.snapshot
      (((repository p settings timestamps).createMany ds).runOn w).2.snapshot := by
  obtain ⟨es, ids, clock, hprepare, hes⟩ :=
    exists_prepareAllNew p settings timestamps hq hds w
  rw [Repository.createMany_eq, Action.runOn_bind_of_ok hprepare]
  exact effects_announced_insert p settings timestamps henabled rfl (fun _ => rfl)
    (w := { w with ids, clock }) hversion id
    (exists_insertMany p settings timestamps hq hes { w with ids, clock }) fun _ _ => rfl

theorem effects_update (henabled : p.settings.enabled = true) (hq : Value.Storable scope.parts)
    {id : DocumentId} (hid : scope.ids id) {patch : Document} (hpatch : patch.Sound scope.parts)
    (w : CachedStore κ)
    (hversion : scope.versions w.cache.version.current) :
    Effects p settings scope w.snapshot
      (((repository p settings timestamps).update id patch).runOn w).2.snapshot := by
  obtain ⟨e, clock, hprepare, he⟩ :=
    exists_preparePatch p settings timestamps hq hpatch w
  rw [Repository.update_eq, Action.runOn_bind_of_ok hprepare]
  exact effects_announced_change p settings timestamps scope henabled rfl
    (Collection.updateOne (Filter.byId settings.idField id) e) (w := { w with clock })
    (fun _ => rfl) (Effect.update _ _ _ hversion hid he)

theorem effects_updateMany (henabled : p.settings.enabled = true) (hq : Value.Storable scope.parts)
    (hbulk : scope.bulk) (f : Filter) {patch : Document} (hpatch : patch.Sound scope.parts)
    (w : CachedStore κ)
    (hversion : scope.versions w.cache.version.current) :
    Effects p settings scope w.snapshot
      (((repository p settings timestamps).updateMany f patch).runOn w).2.snapshot := by
  obtain ⟨e, clock, hprepare, he⟩ :=
    exists_preparePatch p settings timestamps hq hpatch w
  rw [Repository.updateMany_eq, Action.runOn_bind_of_ok hprepare]
  exact effects_announced_change p settings timestamps scope henabled rfl
    (Collection.updateMany f e) (w := { w with clock })
    (fun _ => rfl) (Effect.updateMany _ _ _ hversion f hbulk he)

theorem effects_delete (henabled : p.settings.enabled = true) {id : DocumentId}
    (hid : scope.ids id) (w : CachedStore κ)
    (hversion : scope.versions w.cache.version.current) :
    Effects p settings scope w.snapshot
      (((repository p settings timestamps).delete id).runOn w).2.snapshot := by
  rw [Repository.delete_eq]
  exact effects_announced_change p settings timestamps scope henabled rfl
    (Collection.deleteOne (Filter.byId settings.idField id))
    (fun _ => rfl) (Effect.delete _ _ _ hversion hid)

theorem effects_deleteMany (henabled : p.settings.enabled = true) (hbulk : scope.bulk) (f : Filter)
    (w : CachedStore κ)
    (hversion : scope.versions w.cache.version.current) :
    Effects p settings scope w.snapshot
      (((repository p settings timestamps).deleteMany f).runOn w).2.snapshot := by
  rw [Repository.deleteMany_eq]
  exact effects_announced_change p settings timestamps scope henabled rfl
    (Collection.deleteMany f)
    (fun _ => rfl) (Effect.deleteMany _ _ _ hversion f hbulk)

/-! ## Reads -/

/-- A projection to no field at all leaves documents whole. -/
theorem selectOne_of_not_isShaped {o : ReadOptions} (h : o.isShaped = false) (c : Collection)
    (f : Filter) :
    c.selectOne { filter := f, projection := o.projection, populate := o.populate } =
      c.selectOne { filter := f } := by
  rw [ReadOptions.isShaped, Bool.or_eq_false_iff] at h
  cases hprojection : o.projection with
  | none => rfl
  | some projection =>
    rw [hprojection, Option.any_some, Bool.not_eq_false'] at h
    have hwhole : projection.apply c.idField = id := by
      funext d
      rw [Projection.apply, if_pos h.1]
      rfl
    simp only [Collection.selectOne, Collection.select, hwhole, List.map_id]

theorem getById_outcome (henabled : p.settings.enabled = true) (id : DocumentId) (o : ReadOptions)
    (w : CachedStore κ) :
    ReadOutcome p w
      (p.source? { skipCache := o.skipCache } w.cache.version.current (.getById id o))
      (fun served => (Repository.servedDocument? served).map some)
      (.ok (w.collection.selectOne
        { filter := .byId settings.idField id
          projection := o.projection, populate := o.populate }))
      (Option.map .obj) p.settings.byIdTtl
      (((repository p settings timestamps).getById id o).runOn w) := by
  rw [Repository.getById_eq]
  exact readThrough_outcome p settings timestamps _ henabled (.getById id o) rfl
    (CachePlugin.after_getById henabled id o) fun _ =>
      Collection.runOn_findOne_reader collectionPart rfl _

theorem getByQuery_outcome (henabled : p.settings.enabled = true) (f : Filter) (o : ReadOptions)
    (w : CachedStore κ) :
    ReadOutcome p w
      (p.source? { skipCache := o.skipCache } w.cache.version.current (.getByQuery f o))
      (fun served => (Repository.servedDocument? served).map some)
      (.ok (w.collection.selectOne
        { filter := f, projection := o.projection, populate := o.populate }))
      (Option.map .obj) p.settings.queryTtl
      (((repository p settings timestamps).getByQuery f o).runOn w) := by
  rw [Repository.getByQuery_eq]
  exact readThrough_outcome p settings timestamps _ henabled (.getByQuery f o) rfl
    (CachePlugin.after_getByQuery henabled f o) fun _ =>
      Collection.runOn_findOne_reader collectionPart rfl _

theorem getAll_outcome (henabled : p.settings.enabled = true) (request : ListRequest)
    (w : CachedStore κ) :
    ReadOutcome p w
      (p.source? { skipCache := request.skipCache } w.cache.version.current (.getAll request))
      (Repository.servedList? request.mode) (w.collection.listed settings request.mode)
      (fun r => some r.toValue) p.settings.listTtl
      (((repository p settings timestamps).getAll request).runOn w) := by
  rw [Repository.getAll_eq]
  exact readThrough_outcome p settings timestamps _ henabled (.getAll request) rfl
    (CachePlugin.after_getAll henabled request) fun s =>
      Repository.runOn_readList collectionPart idsPart _ rfl request.mode _

/-- What a read leaves behind is the look into the cache and the entry that it keeps. -/
theorem effects_of_outcome {w : CachedStore κ}
    {source : Option (String × (String → Option HookResult))}
    {pick : Option HookResult → Option α} {result : Except Fault α} {entry : α → Option Value}
    {ttl : Nat} {run : Except Fault α × CachedStore κ}
    (h : ReadOutcome p w source pick result entry ttl run)
    (hkeep : ∀ key read x v k, source = some (key, read) → result = .ok x → entry x = some v →
      Effect p settings scope ⟨w.collection, w.cache.version.current, k⟩
        ⟨w.collection, w.cache.version.current, p.adapter.afterSet key v.text ttl k⟩) :
    Effects p settings scope w.snapshot run.2.snapshot := by
  cases h with
  | bypassed => exact .refl
  | served => exact .single (.look _ _ _ _)
  | found => exact .single (.look _ _ _ _)
  | kept hsource hresult hentry =>
    exact (Relation.ReflTransGen.single (Effect.look _ _ _ _)).tail
      (hkeep _ _ _ _ _ hsource hresult hentry)

theorem effects_getById (henabled : p.settings.enabled = true) {id : DocumentId}
    (hid : scope.ids id) (o : ReadOptions) (w : CachedStore κ) :
    Effects p settings scope w.snapshot
      (((repository p settings timestamps).getById id o).runOn w).2.snapshot := by
  refine effects_of_outcome p settings (getById_outcome p settings timestamps henabled id o w) ?_
  intro key read found v k hsource hresult hentry
  obtain ⟨hshaped, rfl, -⟩ := CachePlugin.eq_of_source?_getById hsource
  obtain ⟨d, hd, rfl⟩ := Option.map_eq_some_iff.mp hentry
  rw [hd, selectOne_of_not_isShaped hshaped, Except.ok.injEq] at hresult
  exact Effect.keepDocument _ _ _ _ hid hresult

theorem effects_getByQuery (henabled : p.settings.enabled = true) (f : Filter) (o : ReadOptions)
    (w : CachedStore κ) :
    Effects p settings scope w.snapshot
      (((repository p settings timestamps).getByQuery f o).runOn w).2.snapshot := by
  refine effects_of_outcome p settings (getByQuery_outcome p settings timestamps henabled f o w) ?_
  intro key read found v k hsource _ _
  obtain ⟨rfl, -⟩ := CachePlugin.eq_of_source?_getByQuery hsource
  exact Effect.keepQuery _ _ _ f o _ _

theorem effects_getAll (henabled : p.settings.enabled = true) {request : ListRequest}
    (hmode : scope.modes request.mode) (w : CachedStore κ) :
    Effects p settings scope w.snapshot
      (((repository p settings timestamps).getAll request).runOn w).2.snapshot := by
  refine effects_of_outcome p settings (getAll_outcome p settings timestamps henabled request w) ?_
  intro key read r v k hsource hresult hentry
  obtain ⟨rfl, -⟩ := CachePlugin.eq_of_source?_getAll hsource
  cases hentry
  exact Effect.keepList _ _ _ _ hmode hresult

/-! ## What a read through the cache returns -/

section Results

variable {p settings timestamps}

theorem served_noted (key : String) (found : Option HookResult) (skip : Bool) :
    (HookContext.noted key found { skipCache := skip }).served = found := by
  cases found <;> rfl

/-- A read that asks the cache returns what the cache has, and otherwise what the store gives. -/
theorem readThrough_result (henabled : p.settings.enabled = true) {skip : Bool} {e : BeforeEvent}
    {pick : Option HookResult → Option α} {find : Action (CachedStore κ) α}
    {result : Except Fault α} {report : α → AfterEvent} {entry : α → Option Value} {ttl : Nat}
    (hreport : ∀ x, p.after (report x) = p.keepResult (entry x) ttl) {w : CachedStore κ}
    (hfind : ∀ s, find.runOn { w with cache := s } = (result, { w with cache := s }))
    {key : String} {read : String → Option HookResult}
    (hsource : p.source? { skipCache := skip } w.cache.version.current e = some (key, read)) :
    (((repository p settings timestamps).readThrough skip e pick find report).runOn w).1 =
      ((pick ((p.adapter.reply key w.cache.adapter).bind read)).map Except.ok).getD result := by
  have hbefore := p.runOn_before henabled e { skipCache := skip } w.cache
  rw [hsource] at hbefore
  obtain ⟨stats, hbefore⟩ := hbefore
  have hannounce := runOn_before p settings timestamps hbefore
  have hserved := runOn_servedOr pick
    (c := HookContext.noted key ((p.adapter.reply key w.cache.adapter).bind read)
      { skipCache := skip })
    (hfind { w.cache with stats, adapter := p.adapter.afterGet key w.cache.adapter })
  rw [served_noted] at hserved
  rw [Repository.readThrough, Repository.inContext, Action.runOn_ofFun,
    Action.runOn_bind_of_ok hannounce]
  generalize ((pick ((p.adapter.reply key w.cache.adapter).bind read)).map Except.ok).getD
    result = out at hserved ⊢
  cases out with
  | error f => rw [Action.runOn_bind_of_error hserved]
  | ok x =>
    obtain ⟨t, hkeep⟩ := p.exists_runOn_keepResult (entry x) ttl
      (HookContext.take (HookContext.noted key ((p.adapter.reply key w.cache.adapter).bind read)
        { skipCache := skip })).2
      { w.cache with stats, adapter := p.adapter.afterGet key w.cache.adapter }
    rw [← hreport] at hkeep
    rw [Action.runOn_bind_of_ok hserved,
      Action.runOn_bind_of_ok (runOn_after p settings timestamps hkeep)]
    rfl

end Results

end CachedStore

/-! ## All operations -/

namespace CachedOp

variable {κ : Type} (p : CachePlugin κ) (settings : PagingSettings) (timestamps : Bool)
  {scope : Scope}

open CachedStore

theorem snd_runOn_drop {σ α : Type} (a : Action σ α) (s : σ) :
    ((do let _ ← a : Action σ Unit).runOn s).2 = (a.runOn s).2 := by
  rw [Action.runOn_bind]
  rcases a.runOn s with ⟨f | x, t⟩ <;> rfl

theorem runOn_onCachePart {α : Type} {a : Action (CacheState κ) α} {w : CachedStore κ}
    {out : Except Fault α} {s : CacheState κ} (h : a.runOn w.cache = (out, s)) :
    (cachePart.lift a).runOn w = (out, { w with cache := s }) := by
  rw [Part.runOn_lift]
  simp only [cachePart, h]

/-- Every operation is a chain of effects. -/
theorem effects_perform (henabled : p.settings.enabled = true) (hq : Value.Storable scope.parts)
    {op : CachedOp} (hop : op.Within scope) (w : CachedStore κ)
    (hversion : scope.versions w.cache.version.current) :
    Effects p settings scope w.snapshot
      ((op.perform p (repository p settings timestamps)).runOn w).2.snapshot := by
  cases op with
  | create d =>
    rw [perform, snd_runOn_drop]
    exact effects_create p settings timestamps henabled hq hop w hversion
  | createMany ds =>
    rw [perform, snd_runOn_drop]
    exact effects_createMany p settings timestamps henabled hq hop w hversion
  | update id patch =>
    rw [perform, snd_runOn_drop]
    exact effects_update p settings timestamps henabled hq hop.1 hop.2 w hversion
  | updateMany f patch =>
    rw [perform, snd_runOn_drop]
    exact effects_updateMany p settings timestamps henabled hq hop.1 f hop.2 w hversion
  | delete id =>
    rw [perform, snd_runOn_drop]
    exact effects_delete p settings timestamps henabled hop w hversion
  | deleteMany f =>
    rw [perform, snd_runOn_drop]
    exact effects_deleteMany p settings timestamps henabled hop f w hversion
  | getById id o =>
    rw [perform, snd_runOn_drop]
    exact effects_getById p settings timestamps henabled hop o w
  | getByQuery f o =>
    rw [perform, snd_runOn_drop]
    exact effects_getByQuery p settings timestamps henabled f o w
  | getAll request =>
    rw [perform, snd_runOn_drop]
    exact effects_getAll p settings timestamps henabled hop w
  | invalidate id =>
    obtain ⟨existed, stats, h⟩ := p.runOn_dropById id w.cache
    rw [perform, snd_runOn_drop, CachePlugin.invalidate, runOn_onCachePart h]
    exact .single (.drop _ _ _ _)
  | invalidateLists =>
    obtain ⟨stats, h⟩ := p.runOn_bump w.cache
    rw [perform, snd_runOn_drop, CachePlugin.invalidateLists, runOn_onCachePart h]
    exact (Relation.ReflTransGen.single (Effect.raise _ _ _ hversion)).tail
      (Effect.persist _ _ _ _ _)
  | invalidateAll =>
    obtain ⟨n, stats, k, version, hk, hversion, h⟩ := p.runOn_invalidateAll w.cache
    rw [perform, snd_runOn_drop, runOn_onCachePart h]
    have hcleared : Effects p settings scope w.snapshot
        ⟨w.collection, w.cache.version.current, k⟩ := by
      rcases hk with rfl | rfl
      · exact .refl
      · exact .single (.clear _ _ _)
    have hraised : Effects p settings scope w.snapshot ⟨w.collection, version, k⟩ := by
      rcases hversion with rfl | rfl
      · exact hcleared
      · exact hcleared.tail (.raise _ _ _ hversion)
    exact hraised.tail (Effect.persist _ _ _ _ _)

end CachedOp
end Quire
