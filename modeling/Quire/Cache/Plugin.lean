import Quire.Cache.Adapter
import Quire.Cache.Keys
import Quire.Cache.Stats
import Quire.Hook
import Quire.Repository
import Quire.Wire.Page
/-!
# Cache-aside

A hook that serves reads from a cache and invalidates on writes. A single document is kept under a
key of its identifier alone, which changes of that document drop. A list is kept under a key with
the version of the collection, which every write raises. A failing cache counts as a miss.
-/
namespace Quire

/-- What caching keeps for one collection: the list version, the counters, the adapter's state. -/
structure CacheState (κ : Type) where
  version : ListVersion
  stats : CacheStats
  adapter : κ

namespace CacheState

variable {κ α : Type}

/-- The state of a new plugin over an adapter. -/
def start (collection : String) (publish : Bool) (version : Nat) (adapter : κ) : CacheState κ :=
  { version := ⟨version⟩, stats := { collection, publish }, adapter }

def adapterPart : Part (CacheState κ) κ := ⟨(·.adapter), fun a s => { s with adapter := a }⟩

def versionPart : Part (CacheState κ) ListVersion :=
  ⟨(·.version), fun v s => { s with version := v }⟩

/-- Counts an event. -/
def record (e : CacheEvent) : Action (CacheState κ) Unit :=
  Action.ofStep fun s => ((), { s with stats := s.stats.record e })

/-- The present version. -/
def currentVersion : Action (CacheState κ) Nat := Action.ofRead fun s => .ok s.version.current

/-- A call of the adapter, with its outcome as a value. -/
def call (a : Action κ α) : Action (CacheState κ) (Except Fault α) :=
  Action.attempt (adapterPart.lift a)

end CacheState

/-- Caching for one collection. -/
structure CachePlugin (κ : Type) where
  keys : CacheKeys
  settings : CacheSettings
  adapter : CacheAdapter κ

namespace CachePlugin

open CacheState

variable {κ α : Type}

/-- Caching for a collection, if its name can stand in keys. -/
def make (collection : String) (adapter : CacheAdapter κ) (settings : CacheSettings) :
    Except Fault (CachePlugin κ) :=
  (CacheKeys.make settings.keyPrefix collection).map fun keys => ⟨keys, settings, adapter⟩

variable (p : CachePlugin κ)

/-! ## Versions -/

/-- The version in a text. -/
def versionOfText? (s : String) : Option Nat :=
  (Text.unsignedNumeral? (Text.trim s.toList)).filter (· < twoPow 64)

/-- Takes over the version that the cache holds, if it can be read and is ahead. -/
def bootstrap : Action (CacheState κ) Nat := do
  match ← call (p.adapter.get p.keys.version) with
  | .ok (some text) =>
    match versionOfText? text with
    | some seen => versionPart.lift (Action.ofStep (ListVersion.observe seen))
    | none => currentVersion
  | .ok none => currentVersion
  | .error _ => do
    record (.error "bootstrap")
    currentVersion

/-- Writes a version into the cache. -/
def persist (version : Nat) : Action (CacheState κ) Unit := do
  match ← call (p.adapter.set p.keys.version (toString version) p.settings.versionTtl) with
  | .ok _ => pure ()
  | .error _ => record (.error "persist_version")

/-- Raises the version, so that no list kept before is found again. -/
def bump : Action (CacheState κ) Nat := do
  let version ← versionPart.lift (Action.ofStep ListVersion.bump)
  record (.invalidation "version")
  p.persist version
  pure version

/-! ## Entries -/

/-- Reads an entry. An entry that cannot be read counts as an error and a miss. -/
def lookup (read : String → Option α) (key : String) : Action (CacheState κ) (Option α) := do
  match ← call (p.adapter.fetch read key) with
  | .ok (some a) => do
    record .hit
    pure (some a)
  | .ok none => do
    record .miss
    pure none
  | .error _ => do
    record (.error "get")
    record .miss
    pure none

/-- Writes an entry. -/
def keep (key : String) (v : Value) (ttl : Nat) : Action (CacheState κ) Unit := do
  match ← call (p.adapter.set key v.text ttl) with
  | .ok _ => record .set
  | .error _ => record (.error "set")

/-- Drops the entry of a document, and says whether there was one. -/
def dropById (id : DocumentId) : Action (CacheState κ) Bool := do
  match ← call (p.adapter.delete (p.keys.byId id)) with
  | .ok existed => do
    record (.invalidation "entry")
    pure existed
  | .error _ => do
    record (.error "delete")
    pure false

/-! ## The hook -/

/-- The context of the operation. -/
def context : Action (HookContext × CacheState κ) HookContext := Action.ofRead fun s => .ok s.1

def onCache (a : Action (CacheState κ) α) : Action (HookContext × CacheState κ) α :=
  Part.snd.lift a

def changeContext (f : HookContext → HookContext) : Action (HookContext × CacheState κ) Unit :=
  Part.fst.lift (Action.ofStep fun c => ((), f c))

/-- Serves the entry of a key, if there is one, and notes the key for later. -/
def serveFrom (read : String → Option HookResult) (key : String) :
    Action (HookContext × CacheState κ) Unit := do
  match ← onCache (p.lookup read key) with
  | some r => changeContext (·.serve r)
  | none => pure ()
  changeContext fun c => { c with cacheKey := some key }

/-- A document out of a text, as a result. -/
def readDocument? (s : String) : Option HookResult := (Document.ofText? s).map .document

/-- A list out of a text, as a result. -/
def readList? (s : String) : Option HookResult := (ListResult.ofText? s).map .list

/-- Whether a list request is too large to be cached. -/
def exceedsLimit (request : ListRequest) : Bool :=
  request.mode.limit.any fun n => p.settings.maxListLimit < n

/-- Before a read: looks the result up, unless the read goes past the cache. -/
def before (e : BeforeEvent) : Action (HookContext × CacheState κ) Unit := do
  if !p.settings.enabled || (← context).skipCache then pure ()
  else
    match e with
    | .getById id options =>
      if options.isShaped then pure () else p.serveFrom readDocument? (p.keys.byId id)
    | .getByQuery filter options =>
      p.serveFrom readDocument? (p.keys.byQuery filter options)
    | .getAll request =>
      if p.exceedsLimit request then pure ()
      else do
        let version ← onCache currentVersion
        p.serveFrom readList? (p.keys.list version request.mode)
    | _ => pure ()

/-- Keeps a result under the key that was noted, unless it came from the cache. -/
def keepResult (v : Option Value) (ttl : Nat) : Action (HookContext × CacheState κ) Unit := do
  let c ← context
  if c.servedFromCache then pure ()
  else
    match c.cacheKey, v with
    | some key, some v => onCache (p.keep key v ttl)
    | _, _ => pure ()

/-- After a read: keeps the result. After a write: drops what the write made stale. -/
def after (e : AfterEvent) : Action (HookContext × CacheState κ) Unit := do
  if !p.settings.enabled then pure ()
  else
    match e with
    | .getById _ _ result => p.keepResult (result.map .obj) p.settings.byIdTtl
    | .getByQuery _ _ result => p.keepResult (result.map .obj) p.settings.queryTtl
    | .getAll _ result => p.keepResult (some result.toValue) p.settings.listTtl
    | .create _ | .createMany _ | .updateMany _ _ | .deleteMany _ _ => do
      let _ ← onCache p.bump
      pure ()
    | .update id _ | .delete id _ => do
      let _ ← onCache (p.dropById id)
      let _ ← onCache p.bump
      pure ()

/-- The plugin as a hook over a larger state. -/
def hook {σ : Type} (part : Part σ (CacheState κ)) : Hook σ where
  name := "cache-aside"
  before e := (Part.fst.pair (Part.snd.comp part)).lift (p.before e)
  after e := (Part.fst.pair (Part.snd.comp part)).lift (p.after e)

/-! ## By hand -/

/-- Drops the entry of a document. -/
def invalidate (id : DocumentId) : Action (CacheState κ) Bool := p.dropById id

/-- Makes all lists of the collection stale, and returns the new version. -/
def invalidateLists : Action (CacheState κ) Nat := p.bump

/-- Drops all entries of the collection and returns their number. Where the cache cannot do that,
all lists become stale. -/
def invalidateAll : Action (CacheState κ) Nat := do
  let cleared ←
    if p.adapter.supportsClear then do
      match ← call (p.adapter.clear p.keys.pattern) with
      | .ok removed => do
        record (.invalidation "clear")
        p.persist (← currentVersion)
        pure (some removed)
      | .error _ => do
        record (.error "clear")
        pure none
    else pure none
  match cleared with
  | some removed => pure removed
  | none => do
    let _ ← p.bump
    pure 0

end CachePlugin

namespace Repository

variable {σ κ : Type}

/-- The repository with caching behind the hooks that are there. -/
def withCache (r : Repository σ) (p : CachePlugin κ) (part : Part σ (CacheState κ)) :
    Repository σ :=
  { r with hooks := r.hooks ++ [p.hook part] }

/-- Starts caching over a repository: takes over the version that the cache holds, then listens. -/
def attachCache (r : Repository σ) (p : CachePlugin κ) (part : Part σ (CacheState κ))
    (start : CacheState κ) : Action σ (Repository σ) := do
  Action.ofStep fun s => ((), part.set start s)
  let _ ← part.lift p.bootstrap
  pure (r.withCache p part)

end Repository

end Quire
