import Mathlib.Logic.Relation
import Quire.Proofs.CacheCalls
import Quire.Proofs.Identifiers
import Quire.Proofs.Listings

/-!
# Cached stores

A collection in memory behind a repository whose only hook is caching, and everything that an
operation can do to the collection, to the version and to the state of the adapter.
-/
namespace Quire

/-- A collection with what a repository needs besides it, and the state of its cache. -/
structure CachedStore (κ : Type) where
  collection : Collection
  ids : IdSource
  clock : Clock
  cache : CacheState κ

/-- The part of a cached store on which answers depend. -/
structure Snapshot (κ : Type) where
  collection : Collection
  version : Nat
  adapter : κ

namespace CachedStore

variable {κ α : Type}

def collectionPart : Part (CachedStore κ) Collection :=
  ⟨(·.collection), fun c w => { w with collection := c }⟩

def idsPart : Part (CachedStore κ) IdSource := ⟨(·.ids), fun ids w => { w with ids }⟩

def clockPart : Part (CachedStore κ) Clock := ⟨(·.clock), fun clock w => { w with clock }⟩

def cachePart : Part (CachedStore κ) (CacheState κ) := ⟨(·.cache), fun s w => { w with cache := s }⟩

def snapshot (w : CachedStore κ) : Snapshot κ :=
  ⟨w.collection, w.cache.version.current, w.cache.adapter⟩

/-- The store after a read, which changes only what the adapter and the counters hold. -/
def afterRead (stats : CacheStats) (k : κ) (w : CachedStore κ) : CachedStore κ :=
  { w with cache := { w.cache with stats, adapter := k } }

/-- The repository of a collection in memory, without hooks. -/
def plain (name : String) (settings : PagingSettings) (timestamps : Bool) :
    Repository (CachedStore κ) where
  collection := name
  store := Collection.store collectionPart idsPart
  settings
  ids := idsPart
  clock := clockPart
  timestamps

/-- The same repository with caching as its only hook. -/
def repository (p : CachePlugin κ) (settings : PagingSettings) (timestamps : Bool) :
    Repository (CachedStore κ) :=
  (plain p.keys.collection settings timestamps).withCache p cachePart

end CachedStore

/-! ## Operations -/

/-- An operation of a cached repository, or an invalidation by hand. -/
inductive CachedOp where
  | create (d : Document)
  | createMany (ds : List Document)
  | update (id : DocumentId) (patch : Document)
  | updateMany (filter : Filter) (patch : Document)
  | delete (id : DocumentId)
  | deleteMany (filter : Filter)
  | getById (id : DocumentId) (options : ReadOptions)
  | getByQuery (filter : Filter) (options : ReadOptions)
  | getAll (request : ListRequest)
  | invalidate (id : DocumentId)
  | invalidateLists
  | invalidateAll

namespace CachedOp

variable {κ : Type}

open CachedStore

/-- Carries an operation out and drops its result. -/
def perform (p : CachePlugin κ) (r : Repository (CachedStore κ)) :
    CachedOp → Action (CachedStore κ) Unit
  | .create d => do let _ ← r.create d
  | .createMany ds => do let _ ← r.createMany ds
  | .update id patch => do let _ ← r.update id patch
  | .updateMany f patch => do let _ ← r.updateMany f patch
  | .delete id => do let _ ← r.delete id
  | .deleteMany f => do let _ ← r.deleteMany f
  | .getById id o => do let _ ← r.getById id o
  | .getByQuery f o => do let _ ← r.getByQuery f o
  | .getAll request => do let _ ← r.getAll request
  | .invalidate id => do let _ ← cachePart.lift (p.invalidate id)
  | .invalidateLists => do let _ ← cachePart.lift p.invalidateLists
  | .invalidateAll => do let _ ← cachePart.lift p.invalidateAll

end CachedOp

/-- What the operations of a run may be given, and when they are made. -/
structure Scope where
  ids : DocumentId → Prop
  modes : ListMode → Prop
  /-- A condition on all parts of documents and patches. -/
  parts : Value → Bool
  /-- Whether several documents may be changed at once. -/
  bulk : Prop
  /-- The versions under which operations are made. -/
  versions : Nat → Prop

/-- Whether an operation is given what it may be given. -/
def CachedOp.Within (scope : Scope) : CachedOp → Prop
  | .create d => d.Sound scope.parts
  | .createMany ds => ∀ d ∈ ds, d.Sound scope.parts
  | .update id patch => scope.ids id ∧ patch.Sound scope.parts
  | .updateMany _ patch => scope.bulk ∧ patch.Sound scope.parts
  | .delete id | .getById id _ | .invalidate id => scope.ids id
  | .deleteMany _ => scope.bulk
  | .getAll request => scope.modes request.mode
  | .getByQuery _ _ | .invalidateLists | .invalidateAll => True

/-! ## Effects -/

/-- What an operation can do, one thing at a time. A write raises the version together with the
change that makes entries stale. -/
inductive Effect {κ : Type} (p : CachePlugin κ) (settings : PagingSettings) (scope : Scope) :
    Snapshot κ → Snapshot κ → Prop
  | look (c v k) (key : String) : Effect p settings scope ⟨c, v, k⟩ ⟨c, v, p.adapter.afterGet key k⟩
  | keepDocument (c v k) {id : DocumentId} (ttl : Nat) {d : Document} (hid : scope.ids id)
      (hd : c.selectOne { filter := Filter.byId settings.idField id } = some d) :
      Effect p settings scope ⟨c, v, k⟩
        ⟨c, v, p.adapter.afterSet (p.keys.byId id) (Value.obj d).text ttl k⟩
  | keepQuery (c v k) (f : Filter) (o : ReadOptions) (text : String) (ttl : Nat) :
      Effect p settings scope ⟨c, v, k⟩ ⟨c, v, p.adapter.afterSet (p.keys.byQuery f o) text ttl k⟩
  | keepList (c v k) {mode : ListMode} (ttl : Nat) {r : ListResult} (hmode : scope.modes mode)
      (hr : c.listed settings mode = .ok r) :
      Effect p settings scope ⟨c, v, k⟩
        ⟨c, v, p.adapter.afterSet (p.keys.list v mode) r.toValue.text ttl k⟩
  | persist (c v k) (text : String) (ttl : Nat) :
      Effect p settings scope ⟨c, v, k⟩ ⟨c, v, p.adapter.afterSet p.keys.version text ttl k⟩
  | drop (c v k) (id : DocumentId) :
      Effect p settings scope ⟨c, v, k⟩ ⟨c, v, p.adapter.afterDelete (p.keys.byId id) k⟩
  | clear (c v k) :
      Effect p settings scope ⟨c, v, k⟩ ⟨c, v, p.adapter.afterClear p.keys.pattern k⟩
  /-- Caching goes on from a version that is not behind. -/
  | resume (c v k) {v' : Nat} (hle : v ≤ v') : Effect p settings scope ⟨c, v, k⟩ ⟨c, v', k⟩
  | raise (c v k) (hv : scope.versions v) :
      Effect p settings scope ⟨c, v, k⟩ ⟨c, ListVersion.next v, k⟩
  | insert (c v k) (hv : scope.versions v) {ds : List Document}
      (hds : ∀ d ∈ ds, d.Sound scope.parts) :
      Effect p settings scope ⟨c, v, k⟩ ⟨{ c with docs := c.docs ++ ds }, ListVersion.next v, k⟩
  | update (c v k) (hv : scope.versions v) {id : DocumentId} {patch : Document}
      (hid : scope.ids id) (hpatch : patch.Sound scope.parts) :
      Effect p settings scope ⟨c, v, k⟩
        ⟨(c.updateOne (Filter.byId settings.idField id) patch).2, ListVersion.next v,
          p.adapter.afterDelete (p.keys.byId id) k⟩
  | updateMany (c v k) (hv : scope.versions v) (f : Filter) {patch : Document}
      (hbulk : scope.bulk) (hpatch : patch.Sound scope.parts) :
      Effect p settings scope ⟨c, v, k⟩ ⟨(c.updateMany f patch).2, ListVersion.next v, k⟩
  | delete (c v k) (hv : scope.versions v) {id : DocumentId} (hid : scope.ids id) :
      Effect p settings scope ⟨c, v, k⟩
        ⟨(c.deleteOne (Filter.byId settings.idField id)).2, ListVersion.next v,
          p.adapter.afterDelete (p.keys.byId id) k⟩
  | deleteMany (c v k) (hv : scope.versions v) (f : Filter) (hbulk : scope.bulk) :
      Effect p settings scope ⟨c, v, k⟩ ⟨(c.deleteMany f).2, ListVersion.next v, k⟩

/-- Any number of effects, one after another. -/
abbrev Effects {κ : Type} (p : CachePlugin κ) (settings : PagingSettings) (scope : Scope) :
    Snapshot κ → Snapshot κ → Prop :=
  Relation.ReflTransGen (Effect p settings scope)

/-! ## Announced operations -/

namespace Repository

variable {σ α : Type} (r : Repository σ)

/-- A write, announced before and after. -/
def announced (e : BeforeEvent) (change : Action σ α) (report : α → AfterEvent) : Action σ α :=
  inContext {} do
    r.before e
    let x ← onState change
    r.after (report x)
    pure x

theorem create_eq (d : Document) :
    r.create d =
      (do let d ← r.prepareNew d; r.announced (.create d) (r.store.insertOne d) .create) := rfl

theorem createMany_eq (ds : List Document) :
    r.createMany ds = (do
      let ds ← r.prepareAllNew ds
      r.announced (.createMany ds) (r.store.insertMany ds) .createMany) := rfl

theorem update_eq (id : DocumentId) (patch : Document) :
    r.update id patch = (do
      let patch ← r.preparePatch patch
      r.announced (.update id patch) (r.store.updateOne (r.idFilter id) patch) (.update id)) := rfl

theorem updateMany_eq (f : Filter) (patch : Document) :
    r.updateMany f patch = (do
      let patch ← r.preparePatch patch
      r.announced (.updateMany f patch) (r.store.updateMany f patch) (.updateMany f)) := rfl

theorem delete_eq (id : DocumentId) :
    r.delete id = r.announced (.delete id) (r.store.deleteOne (r.idFilter id)) (.delete id) := rfl

theorem deleteMany_eq (f : Filter) :
    r.deleteMany f = r.announced (.deleteMany f) (r.store.deleteMany f) (.deleteMany f) := rfl

/-- A served result of the right shape, or else what the store gives. -/
def servedOr (pick : Option HookResult → Option α) (find : Action σ α) :
    Action (HookContext × σ) α := do
  match pick (← takeServed) with
  | some x => pure x
  | none => onState find

/-- A read, announced before and after. -/
def readThrough (skip : Bool) (e : BeforeEvent) (pick : Option HookResult → Option α)
    (find : Action σ α) (report : α → AfterEvent) : Action σ α :=
  inContext { skipCache := skip } do
    r.before e
    let x ← servedOr pick find
    r.after (report x)
    pure x

theorem serveOrFind_eq (f : Filter) (o : ReadOptions) :
    r.serveOrFind f o = servedOr (fun served => (servedDocument? served).map some)
      (r.store.findOne { filter := f, projection := o.projection, populate := o.populate }) := by
  rw [serveOrFind, servedOr]
  refine bind_congr fun served => ?_
  cases servedDocument? served <;> rfl

theorem getById_eq (id : DocumentId) (o : ReadOptions) :
    r.getById id o = r.readThrough o.skipCache (.getById id o)
      (fun served => (servedDocument? served).map some)
      (r.store.findOne
        { filter := r.idFilter id, projection := o.projection, populate := o.populate })
      (.getById id o) := by
  rw [getById, readThrough, serveOrFind_eq]

theorem getByQuery_eq (f : Filter) (o : ReadOptions) :
    r.getByQuery f o = r.readThrough o.skipCache (.getByQuery f o)
      (fun served => (servedDocument? served).map some)
      (r.store.findOne { filter := f, projection := o.projection, populate := o.populate })
      (.getByQuery f o) := by
  rw [getByQuery, readThrough, serveOrFind_eq]

theorem getAll_eq (request : ListRequest) :
    r.getAll request = r.readThrough request.skipCache (.getAll request)
      (servedList? request.mode) (r.readList request.mode) (.getAll request) := by
  rw [getAll, readThrough, servedOr]
  simp only [bind_assoc]
  refine congrArg _ (bind_congr fun _ => bind_congr fun served => ?_)
  cases servedList? request.mode served <;> rfl

end Repository

/-! ## What announced operations do -/

namespace CachedStore

variable {κ α : Type} (p : CachePlugin κ) (settings : PagingSettings) (timestamps : Bool)

/-- An announcement to the only hook. -/
theorem runOn_announcement {a : Action (HookContext × CacheState κ) Unit} {c c' : HookContext}
    {w : CachedStore κ} {out : Except Fault Unit} {s : CacheState κ}
    (h : a.runOn (c, w.cache) = (out, c', s)) :
    ((Part.fst.pair (Part.snd.comp cachePart)).lift a >>= fun _ => pure ()).runOn (c, w) =
      (out, c', { w with cache := s }) := by
  have hlift : ((Part.fst.pair (Part.snd.comp cachePart)).lift a).runOn (c, w) =
      ((a.runOn (c, w.cache)).1, (a.runOn (c, w.cache)).2.1,
        { w with cache := (a.runOn (c, w.cache)).2.2 }) := rfl
  rw [h] at hlift
  cases out with
  | ok u => rw [Action.runOn_bind_of_ok hlift]; rfl
  | error f => rw [Action.runOn_bind_of_error hlift]

theorem runOn_before {e : BeforeEvent} {c c' : HookContext} {w : CachedStore κ}
    {out : Except Fault Unit} {s : CacheState κ}
    (h : (p.before e).runOn (c, w.cache) = (out, c', s)) :
    ((repository p settings timestamps).before e).runOn (c, w) =
      (out, c', { w with cache := s }) := runOn_announcement h

theorem runOn_after {e : AfterEvent} {c c' : HookContext} {w : CachedStore κ}
    {out : Except Fault Unit} {s : CacheState κ}
    (h : (p.after e).runOn (c, w.cache) = (out, c', s)) :
    ((repository p settings timestamps).after e).runOn (c, w) =
      (out, c', { w with cache := s }) := runOn_announcement h

theorem runOn_onState {a : Action (CachedStore κ) α} {w t : CachedStore κ} {out : Except Fault α}
    (h : a.runOn w = (out, t)) (c : HookContext) :
    (Repository.onState a).runOn (c, w) = (out, c, t) := by
  rw [Repository.onState, Part.runOn_lift]
  simp only [Part.snd, h]

theorem runOn_inContext {c : HookContext} {a : Action (HookContext × CachedStore κ) α}
    {w t : CachedStore κ} {out : Except Fault α} (h : ∃ c', a.runOn (c, w) = (out, c', t)) :
    (Repository.inContext c a).runOn w = (out, t) := by
  obtain ⟨c', h⟩ := h
  rw [Repository.inContext, Action.runOn_ofFun, h]

/-- A write that the store accepts returns what the store gives, whatever its hooks do to the
cache. -/
theorem runOn_announced_of_ok {e : BeforeEvent} {change : Action (CachedStore κ) α}
    {report : α → AfterEvent} {w t : CachedStore κ} {x : α} {c' : HookContext}
    {cache' : CacheState κ} (hbefore : (p.before e).runOn ({}, w.cache) = (.ok (), {}, w.cache))
    (hchange : change.runOn w = (.ok x, t))
    (hafter : (p.after (report x)).runOn ({}, t.cache) = (.ok (), c', cache')) :
    ((repository p settings timestamps).announced e change report).runOn w =
      (.ok x, { t with cache := cache' }) := by
  refine runOn_inContext ⟨c', ?_⟩
  rw [Action.runOn_bind_of_ok (runOn_before p settings timestamps hbefore),
    Action.runOn_bind_of_ok (runOn_onState hchange {}),
    Action.runOn_bind_of_ok (runOn_after p settings timestamps hafter)]
  rfl

/-- A write that the store refuses does nothing to the cache. Every other write raises the version
and drops the entry that it makes stale. -/
theorem runOn_announced (henabled : p.settings.enabled = true) {e : BeforeEvent}
    (he : e.operation.isRead = false) (change : Action (CachedStore κ) α) {report : α → AfterEvent}
    (hreport : ∀ x, (report x).operation.isRead = false) (w : CachedStore κ) :
    match change.runOn w with
    | (.error f, t) =>
      ((repository p settings timestamps).announced e change report).runOn w = (.error f, t)
    | (.ok x, t) =>
      ∃ stats, ((repository p settings timestamps).announced e change report).runOn w =
        (.ok x, { t with cache := ⟨⟨ListVersion.next t.cache.version.current⟩, stats,
          p.afterPersist (ListVersion.next t.cache.version.current)
            (p.afterWrite (report x) t.cache.adapter)⟩ }) := by
  have hbefore : (p.before e).runOn ({}, w.cache) = (.ok (), {}, w.cache) := by
    have h := p.runOn_before henabled e {} w.cache
    rw [show p.source? {} w.cache.version.current e = none by
      cases e <;> first | rfl | cases he] at h
    exact h
  have hannounce := runOn_before p settings timestamps hbefore
  rcases hchange : change.runOn w with ⟨f | x, t⟩
  · refine runOn_inContext ⟨{}, ?_⟩
    rw [Action.runOn_bind_of_ok hannounce, Action.runOn_bind_of_error (runOn_onState hchange {})]
  · obtain ⟨stats, hafter⟩ := p.runOn_after_of_write henabled (hreport x) {} t.cache
    exact ⟨stats, runOn_announced_of_ok p settings timestamps hbefore hchange hafter⟩

theorem runOn_servedOr (pick : Option HookResult → Option α) {find : Action (CachedStore κ) α}
    {result : Except Fault α} {c : HookContext} {w : CachedStore κ}
    (hfind : find.runOn w = (result, w)) :
    (Repository.servedOr pick find).runOn (c, w) =
      (((pick c.served).map Except.ok).getD result, c.take.2, w) := by
  have htake : Repository.takeServed.runOn (c, w) = (.ok c.served, c.take.2, w) := rfl
  rw [Repository.servedOr, Action.runOn_bind_of_ok htake]
  cases hpick : pick c.served with
  | none => exact runOn_onState hfind c.take.2
  | some x => rfl

/-- A read whose result is known after its first hook. -/
theorem runOn_readThrough_of_ok {skip : Bool} {e : BeforeEvent}
    (pick : Option HookResult → Option α) {find : Action (CachedStore κ) α}
    {report : α → AfterEvent} {w : CachedStore κ} {c c' : HookContext} {cache cache' : CacheState κ}
    {result : Except Fault α} {x : α}
    (hbefore : (p.before e).runOn ({ skipCache := skip }, w.cache) = (.ok (), c, cache))
    (hfind : find.runOn { w with cache } = (result, { w with cache }))
    (hresult : ((pick c.served).map Except.ok).getD result = .ok x)
    (hafter : (p.after (report x)).runOn (c.take.2, cache) = (.ok (), c', cache')) :
    ((repository p settings timestamps).readThrough skip e pick find report).runOn w =
      (.ok x, { w with cache := cache' }) := by
  have hserved := runOn_servedOr pick (c := c) hfind
  rw [hresult] at hserved
  refine runOn_inContext ⟨c', ?_⟩
  rw [Action.runOn_bind_of_ok (runOn_before p settings timestamps hbefore),
    Action.runOn_bind_of_ok hserved, Action.runOn_bind_of_ok (runOn_after p settings timestamps
      (w := { w with cache }) hafter)]
  rfl

/-- A read that fails after its first hook. -/
theorem runOn_readThrough_of_error {skip : Bool} {e : BeforeEvent}
    (pick : Option HookResult → Option α) {find : Action (CachedStore κ) α}
    {report : α → AfterEvent} {w : CachedStore κ} {c : HookContext} {cache : CacheState κ}
    {result : Except Fault α} {f : Fault}
    (hbefore : (p.before e).runOn ({ skipCache := skip }, w.cache) = (.ok (), c, cache))
    (hfind : find.runOn { w with cache } = (result, { w with cache }))
    (hresult : ((pick c.served).map Except.ok).getD result = .error f) :
    ((repository p settings timestamps).readThrough skip e pick find report).runOn w =
      (.error f, { w with cache }) := by
  have hserved := runOn_servedOr pick (c := c) hfind
  rw [hresult] at hserved
  refine runOn_inContext ⟨c.take.2, ?_⟩
  rw [Action.runOn_bind_of_ok (runOn_before p settings timestamps hbefore),
    Action.runOn_bind_of_error hserved]

/-- How a read can end, given where it looks for its result and what the store gives. -/
inductive ReadOutcome (p : CachePlugin κ) (w : CachedStore κ)
    (source : Option (String × (String → Option HookResult))) (pick : Option HookResult → Option α)
    (result : Except Fault α) (entry : α → Option Value) (ttl : Nat) :
    Except Fault α × CachedStore κ → Prop
  /-- The cache was not asked. -/
  | bypassed (hsource : source = none) : ReadOutcome p w source pick result entry ttl (result, w)
  /-- The cache had a result of the right shape. -/
  | served {key : String} {read : String → Option HookResult} {text : String} {h : HookResult}
      {x : α} (hsource : source = some (key, read))
      (hreply : p.adapter.reply key w.cache.adapter = some text) (hread : read text = some h)
      (hpick : pick (some h) = some x) (stats : CacheStats) :
      ReadOutcome p w source pick result entry ttl
        (.ok x, w.afterRead stats (p.adapter.afterGet key w.cache.adapter))
  /-- The store gave the result, and it was not kept. -/
  | found {key : String} {read : String → Option HookResult} (hsource : source = some (key, read))
      (stats : CacheStats) :
      ReadOutcome p w source pick result entry ttl
        (result, w.afterRead stats (p.adapter.afterGet key w.cache.adapter))
  /-- The store gave the result, and it was kept. -/
  | kept {key : String} {read : String → Option HookResult} {x : α} {v : Value}
      (hsource : source = some (key, read)) (hresult : result = .ok x) (hentry : entry x = some v)
      (hmissed : (p.adapter.reply key w.cache.adapter).bind read = none) (stats : CacheStats) :
      ReadOutcome p w source pick result entry ttl
        (.ok x, w.afterRead stats (p.adapter.afterSet key v.text ttl
          (p.adapter.afterGet key w.cache.adapter)))

section Reads

variable {skip : Bool} (pick : Option HookResult → Option α) {find : Action (CachedStore κ) α}
  {result : Except Fault α} {report : α → AfterEvent} {entry : α → Option Value} {ttl : Nat}

/-- Where nothing is kept, the rest of a read changes nothing. -/
theorem runOn_rest_of_not_kept (hreport : ∀ x, p.after (report x) = p.keepResult (entry x) ttl)
    {c : HookContext} {t : CachedStore κ} (hfind : find.runOn t = (result, t))
    (hkept : c.servedFromCache = true ∨ c.cacheKey = none ∨
      ∀ x, ((pick c.served).map Except.ok).getD result = .ok x → entry x = none) :
    ∃ c', (Repository.servedOr pick find >>= fun x =>
        (repository p settings timestamps).after (report x) >>= fun _ => pure x).runOn (c, t) =
      (((pick c.served).map Except.ok).getD result, c', t) := by
  have hserved := runOn_servedOr pick (c := c) hfind
  cases hout : ((pick c.served).map Except.ok).getD result with
  | error f =>
    rw [hout] at hserved
    exact ⟨_, Action.runOn_bind_of_error hserved _⟩
  | ok x =>
    rw [hout] at hserved
    have hafter := p.runOn_keepResult_of_not_kept (c := c.take.2)
      (hkept.imp_right fun h => h.imp_right fun h => h x hout) ttl t.cache
    rw [← hreport] at hafter
    refine ⟨c.take.2, ?_⟩
    rw [Action.runOn_bind_of_ok hserved,
      Action.runOn_bind_of_ok (runOn_after p settings timestamps hafter)]
    rfl

/-- A result from the store is kept under the key where the cache had none. -/
theorem runOn_rest_of_kept (hreport : ∀ x, p.after (report x) = p.keepResult (entry x) ttl)
    {c : HookContext} {t : CachedStore κ} {x : α} (hfind : find.runOn t = (.ok x, t))
    (hpick : pick c.served = none) (hserved : c.servedFromCache = false) {key : String}
    (hkey : c.cacheKey = some key) {v : Value} (hentry : entry x = some v) :
    ∃ c' stats, (Repository.servedOr pick find >>= fun x =>
        (repository p settings timestamps).after (report x) >>= fun _ => pure x).runOn (c, t) =
      (.ok x, c', t.afterRead stats (p.adapter.afterSet key v.text ttl t.cache.adapter)) := by
  have hfound := runOn_servedOr pick (c := c) hfind
  rw [hpick] at hfound
  obtain ⟨stats, hkeep⟩ := p.runOn_keepResult (c := c.take.2) hserved hkey v ttl t.cache
  rw [← hentry, ← hreport] at hkeep
  refine ⟨c.take.2, stats, (Action.runOn_bind_of_ok hfound _).trans ?_⟩
  rw [Action.runOn_bind_of_ok (runOn_after p settings timestamps hkeep)]
  rfl

/-- A read returns the result that the cache serves, or what the store gives, which it may keep. -/
theorem readThrough_outcome (henabled : p.settings.enabled = true) (e : BeforeEvent)
    (hpick : pick none = none) (hreport : ∀ x, p.after (report x) = p.keepResult (entry x) ttl)
    {w : CachedStore κ}
    (hfind : ∀ s, find.runOn { w with cache := s } = (result, { w with cache := s })) :
    ReadOutcome p w (p.source? { skipCache := skip } w.cache.version.current e) pick result entry
      ttl (((repository p settings timestamps).readThrough skip e pick find report).runOn w) := by
  have hbefore := p.runOn_before henabled e { skipCache := skip } w.cache
  cases hsource : p.source? { skipCache := skip } w.cache.version.current e with
  | none =>
    rw [hsource] at hbefore
    have hrun : ((repository p settings timestamps).readThrough skip e pick find report).runOn w =
        (result, w) := by
      obtain ⟨c, hrest⟩ := runOn_rest_of_not_kept p settings timestamps pick hreport
        (c := { skipCache := skip }) (hfind w.cache) (Or.inr (Or.inl rfl))
      rw [hpick] at hrest
      refine runOn_inContext ⟨c, ?_⟩
      rw [Action.runOn_bind_of_ok (runOn_before p settings timestamps hbefore)]
      exact hrest
    rw [hrun]
    exact .bypassed rfl
  | some source =>
    obtain ⟨key, read⟩ := source
    rw [hsource] at hbefore
    obtain ⟨stats, hbefore⟩ := hbefore
    have hannounce := runOn_before p settings timestamps hbefore
    have hfind' := hfind
      { w.cache with stats, adapter := p.adapter.afterGet key w.cache.adapter }
    cases hfound : (p.adapter.reply key w.cache.adapter).bind read with
    | none =>
      rw [hfound] at hannounce
      -- The cache had nothing, so what the store gives is kept if it is a result with an entry.
      by_cases hkept : ∃ x v, result = .ok x ∧ entry x = some v
      · obtain ⟨x, v, rfl, hentry⟩ := hkept
        obtain ⟨c, kept, hrest⟩ := runOn_rest_of_kept p settings timestamps pick hreport
          (c := HookContext.noted key none { skipCache := skip }) hfind' hpick rfl rfl hentry
        have hrun : ((repository p settings timestamps).readThrough skip e pick find
            report).runOn w = (.ok x, w.afterRead kept (p.adapter.afterSet key v.text ttl
              (p.adapter.afterGet key w.cache.adapter))) := by
          refine runOn_inContext ⟨c, ?_⟩
          rw [Action.runOn_bind_of_ok hannounce]
          exact hrest
        rw [hrun]
        exact .kept rfl rfl hentry hfound kept
      · have hserved : pick (HookContext.noted key none { skipCache := skip }).served = none :=
          hpick
        have hentry : ∀ x, ((pick (HookContext.noted key none { skipCache := skip }).served).map
            Except.ok).getD result = .ok x → entry x = none := by
          intro x hx
          rw [hserved] at hx
          exact Option.eq_none_iff_forall_ne_some.mpr fun v hv => hkept ⟨x, v, hx, hv⟩
        have hrun : ((repository p settings timestamps).readThrough skip e pick find
            report).runOn w =
              (result, w.afterRead stats (p.adapter.afterGet key w.cache.adapter)) := by
          obtain ⟨c, hrest⟩ := runOn_rest_of_not_kept p settings timestamps pick hreport
            hfind' (Or.inr (Or.inr hentry))
          rw [hserved] at hrest
          refine runOn_inContext ⟨c, ?_⟩
          rw [Action.runOn_bind_of_ok hannounce]
          exact hrest
        rw [hrun]
        exact .found rfl stats
    | some h =>
      rw [hfound] at hannounce
      obtain ⟨text, htext, hread⟩ := Option.bind_eq_some_iff.mp hfound
      have hrun : ((repository p settings timestamps).readThrough skip e pick find
          report).runOn w = (((pick (some h)).map Except.ok).getD result,
            w.afterRead stats (p.adapter.afterGet key w.cache.adapter)) := by
        obtain ⟨c, hrest⟩ := runOn_rest_of_not_kept p settings timestamps pick hreport
          (c := HookContext.noted key (some h) { skipCache := skip }) hfind' (Or.inl rfl)
        refine runOn_inContext ⟨c, ?_⟩
        rw [Action.runOn_bind_of_ok hannounce]
        exact hrest
      rw [hrun]
      cases hshape : pick (some h) with
      | some x => exact .served rfl htext hread hshape stats
      | none => exact .found rfl stats

end Reads

end CachedStore

end Quire
