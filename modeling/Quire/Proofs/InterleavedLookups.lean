import Quire.Proofs.Interleavings

/-!
# Interleaved reads and changes of single documents

Reads of documents by identifier beside updates and deletions of single documents, while the adapter
may be used under all keys that are no identifiers of the collection.
-/
namespace Quire

/-- The document with an identifier, as the store finds it. -/
def Collection.lookup (c : Collection) (settings : PagingSettings) (id : DocumentId)
    (o : ReadOptions) : Option Document :=
  c.selectOne {
    filter := .byId settings.idField id, projection := o.projection, populate := o.populate }

/-- A read of a document by its identifier. -/
structure Lookup where
  id : DocumentId
  options : ReadOptions := {}

/-- An update or a deletion of a document, with what is announced after it. -/
inductive DocumentChange (settings : PagingSettings) (c : Collection) :
    AfterEvent → Collection → Prop
  | update (id : DocumentId) (patch : Document) : DocumentChange settings c
      (.update id (c.updateOne (.byId settings.idField id) patch).1)
      (c.updateOne (.byId settings.idField id) patch).2
  | delete (id : DocumentId) : DocumentChange settings c
      (.delete id (c.deleteOne (.byId settings.idField id)).1)
      (c.deleteOne (.byId settings.idField id)).2

/-- The document that an update or a deletion was about. -/
def AfterEvent.target? : AfterEvent → Option DocumentId
  | .update id _ | .delete id _ => some id
  | _ => none

namespace DocumentChange

variable {settings : PagingSettings} {c c' : Collection} {e : AfterEvent}

theorem isRead_eq_false (h : DocumentChange settings c e c') : e.operation.isRead = false := by
  cases h <;> rfl

/-- After the change the cache drops the entry of the document. -/
theorem exists_target (h : DocumentChange settings c e c') : ∃ id, e.target? = some id ∧
    ∀ {κ : Type} (p : CachePlugin κ) (k : κ),
      p.afterWrite e k = p.adapter.afterDelete (p.keys.byId id) k := by
  cases h with
  | update id patch => exact ⟨id, rfl, fun p k => rfl⟩
  | delete id => exact ⟨id, rfl, fun p k => rfl⟩

end DocumentChange

/-- Reads by identifier, beside updates and deletions of single documents. -/
def TrafficKind.lookups (keys : CacheKeys) (settings : PagingSettings) :
    TrafficKind Lookup (Option Document) where
  asks _ := True
  skipCache request := request.options.skipCache
  before request := .getById request.id request.options
  pick _ served := (Repository.servedDocument? served).map some
  find request c := .ok (c.lookup settings request.id request.options)
  after request := .getById request.id request.options
  changes := DocumentChange settings
  others key := ∀ id, key ≠ keys.byId id

namespace CachePlugin

variable {κ : Type} (p : CachePlugin κ)

/-- Before a read by identifier nothing happens, or the cache is asked for the whole document. -/
theorem runOn_before_getById (id : DocumentId) (o : ReadOptions) (s : CacheState κ) :
    (p.before (.getById id o)).runOn ({ skipCache := o.skipCache }, s) =
        (.ok (), { skipCache := o.skipCache }, s) ∨
      p.settings.enabled = true ∧ o.isShaped = false ∧ ∃ stats,
        (p.before (.getById id o)).runOn ({ skipCache := o.skipCache }, s) =
          (.ok (),
            .noted (p.keys.byId id)
              ((p.adapter.reply (p.keys.byId id) s.adapter).bind readDocument?)
              { skipCache := o.skipCache },
            { s with stats, adapter := p.adapter.afterGet (p.keys.byId id) s.adapter }) := by
  cases henabled : p.settings.enabled with
  | false => exact Or.inl (runOn_before_of_disabled henabled _ _ s)
  | true =>
    have h := p.runOn_before henabled (.getById id o) { skipCache := o.skipCache } s
    rw [source?] at h
    by_cases hpast : (o.skipCache || o.isShaped) = true
    · rw [if_pos hpast] at h
      exact Or.inl h
    · rw [if_neg hpast] at h
      rw [Bool.not_eq_true, Bool.or_eq_false_iff] at hpast
      exact Or.inr ⟨rfl, hpast.2, h⟩

/-- After a read by identifier nothing happens, or the document is kept under the key that was
noted. -/
theorem runOn_after_getById (id : DocumentId) (o : ReadOptions) (found : Option Document)
    (c : HookContext) (s : CacheState κ) :
    (p.after (.getById id o found)).runOn (c, s) = (.ok (), c, s) ∨
      p.settings.enabled = true ∧ c.servedFromCache = false ∧
        ∃ key d stats, c.cacheKey = some key ∧ found = some d ∧
          (p.after (.getById id o found)).runOn (c, s) = (.ok (), c,
            { s with
              stats, adapter := p.adapter.afterSet key (Value.obj d).text p.settings.byIdTtl
                s.adapter }) := by
  cases henabled : p.settings.enabled with
  | false => exact Or.inl (runOn_after_of_disabled henabled _ c s)
  | true =>
    rw [after_getById henabled]
    by_cases hskipped : c.servedFromCache = true ∨ c.cacheKey = none ∨ found = none
    · refine Or.inl (p.runOn_keepResult_of_not_kept ?_ _ s)
      exact hskipped.imp_right (Or.imp_right fun hnone => by rw [hnone, Option.map_none])
    · simp only [not_or, Bool.not_eq_true, ← ne_eq, Option.ne_none_iff_exists'] at hskipped
      obtain ⟨hserved, ⟨key, hkey⟩, d, rfl⟩ := hskipped
      obtain ⟨stats, hkeep⟩ := p.runOn_keepResult hserved hkey (.obj d) p.settings.byIdTtl s
      exact Or.inr ⟨rfl, hserved, key, d, stats, hkey, rfl, hkeep⟩

end CachePlugin

/-! ## Steps without others between them -/

namespace TrafficRun

open CachedStore

variable {κ : Type} {p : CachePlugin κ} {settings : PagingSettings} {timestamps : Bool}
  {Holds : κ → CacheMemory → Prop} (w : CachedStore κ)
  {s : Traffic κ Lookup (Option Document)}

/-- The steps of a read by identifier, one after another, are the read. -/
theorem exists_getById (hcollection : s.collection = w.collection) (hcache : s.cache = w.cache)
    {i : Nat} (hi : s.reads i = .waiting) (id : DocumentId) (o : ReadOptions) :
    let run := ((repository p settings timestamps).getById id o).runOn w
    ∃ t, TrafficRun p (.lookups p.keys settings) Holds s t ∧ t.collection = run.2.collection ∧
      t.cache = run.2.cache ∧ t.reads i = .finished ⟨id, o⟩ run.1 := by
  rw [Repository.getById_eq]
  have hfind : ∀ cache : CacheState κ,
      ((repository p settings timestamps).store.findOne {
          filter := (repository p settings timestamps).idFilter id
          projection := o.projection, populate := o.populate }).runOn { w with cache } =
        (.ok (w.collection.lookup settings id o), { w with cache }) := fun cache =>
    Collection.runOn_findOne_reader collectionPart rfl _
  exact exists_readThrough (.lookups p.keys settings) w hcollection hcache hi ⟨id, o⟩ trivial hfind

/-- The steps of an update with the patch that the store gets are the update. -/
theorem exists_update (hcollection : s.collection = w.collection) (hcache : s.cache = w.cache)
    {j : Nat} (hj : s.writes j = .waiting) (id : DocumentId) (patch : Document) :
    let run := ((repository p settings timestamps).update id patch).runOn w
    ∃ t, TrafficRun p (.lookups p.keys settings) Holds s t ∧ t.collection = run.2.collection ∧
      t.cache = run.2.cache ∧ t.writes j = .settled := by
  obtain ⟨prepared, clock, hprepare⟩ : ∃ prepared clock,
      ((repository p settings timestamps).preparePatch patch).runOn w =
        (.ok prepared, { w with clock }) := by
    rw [Repository.preparePatch, show (repository p settings timestamps).timestamps = timestamps
      from rfl]
    cases timestamps
    · exact ⟨_, w.clock, rfl⟩
    · exact ⟨_, _, rfl⟩
  rw [Repository.update_eq, Action.runOn_bind_of_ok hprepare]
  have hchange : (Collection.change collectionPart
      (Collection.updateOne (.byId settings.idField id) prepared)).runOn { w with clock } =
        (.ok (w.collection.updateOne (.byId settings.idField id) prepared).1, { w with
          clock
          collection := (w.collection.updateOne (.byId settings.idField id) prepared).2 }) := rfl
  exact exists_announced (.lookups p.keys settings) hchange rfl rfl
    (DocumentChange.update id prepared) hcollection hcache hj

/-- The steps of a deletion are the deletion. -/
theorem exists_delete (hcollection : s.collection = w.collection) (hcache : s.cache = w.cache)
    {j : Nat} (hj : s.writes j = .waiting) (id : DocumentId) :
    let run := ((repository p settings timestamps).delete id).runOn w
    ∃ t, TrafficRun p (.lookups p.keys settings) Holds s t ∧ t.collection = run.2.collection ∧
      t.cache = run.2.cache ∧ t.writes j = .settled := by
  have hchange : (Collection.change collectionPart
      (Collection.deleteOne (.byId settings.idField id))).runOn w =
        (.ok (w.collection.deleteOne (.byId settings.idField id)).1, { w with
          collection := (w.collection.deleteOne (.byId settings.idField id)).2 }) := rfl
  rw [Repository.delete_eq]
  exact exists_announced (.lookups p.keys settings) hchange rfl rfl
    (DocumentChange.delete id) hcollection hcache hj

end TrafficRun
end Quire
