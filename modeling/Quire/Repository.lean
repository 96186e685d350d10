import Quire.Hook
import Quire.Paging
/-!
# Repositories

Reads and writes of one collection, announced to hooks. Before the store is asked a hook may have
served the result of a read; a result of the wrong shape is not used.
-/
namespace Quire

/-- The readings that a clock will give, and how many it has given. -/
structure Clock where
  reading : Nat → String
  given : Nat

namespace Clock

/-- The present time. -/
def next (c : Clock) : String × Clock := (c.reading c.given, { c with given := c.given + 1 })

end Clock

/-- A repository over a state. -/
structure Repository (σ : Type) where
  collection : String
  store : Store σ
  settings : PagingSettings
  ids : Part σ IdSource
  clock : Part σ Clock
  hooks : List (Hook σ) := []
  /-- Whether documents carry the times of their creation and their last change. -/
  timestamps : Bool := true

namespace Repository

variable {σ α : Type}

def createdAt : String := "createdAt"

def updatedAt : String := "updatedAt"

/-! ## Preparing writes -/

/-- Gives a document an identifier where it has none. -/
def withId (idField fresh : String) (d : Document) : Document :=
  if (d.get? idField).all Value.isNull then d.set idField (.str fresh) else d

/-- Stamps a new document. A given time of creation stays. -/
def stampNew (now : String) (d : Document) : Document :=
  let d := if (d.get? createdAt).isNone then d.set createdAt (.str now) else d
  d.set updatedAt (.str now)

/-- A document as it is handed to the store. -/
def prepareNew (r : Repository σ) (d : Document) : Action σ Document := do
  let d ←
    if (d.get? r.settings.idField).all Value.isNull then do
      let fresh ← r.ids.lift (Action.ofStep IdSource.next)
      pure (withId r.settings.idField fresh d)
    else pure d
  if r.timestamps then do
    let now ← r.clock.lift (Action.ofStep Clock.next)
    pure (stampNew now d)
  else pure d

/-- Several documents as they are handed to the store. -/
def prepareAllNew (r : Repository σ) : List Document → Action σ (List Document)
  | [] => pure []
  | d :: ds => do
    let d ← r.prepareNew d
    let ds ← r.prepareAllNew ds
    pure (d :: ds)

/-- A patch as it is handed to the store: without the identifier, with the time. -/
def preparePatch (r : Repository σ) (patch : Document) : Action σ Document := do
  let patch := patch.erase r.settings.idField
  if r.timestamps then do
    let now ← r.clock.lift (Action.ofStep Clock.next)
    pure (patch.set updatedAt (.str now))
  else pure patch

/-- The filter of one document. -/
def idFilter (r : Repository σ) (id : DocumentId) : Filter :=
  .test .eq r.settings.idField id.toValue

/-! ## Announcing -/

/-- Runs an operation with a context of its own. -/
def inContext (c : HookContext) (a : Action (HookContext × σ) α) : Action σ α :=
  Action.ofFun fun s => let (r, _, t) := a.runOn (c, s); (r, t)

/-- An action that has no part in the context. -/
def onState (a : Action σ α) : Action (HookContext × σ) α := Part.snd.lift a

def before (r : Repository σ) (e : BeforeEvent) : Action (HookContext × σ) Unit :=
  Hook.emitBefore r.hooks e

def after (r : Repository σ) (e : AfterEvent) : Action (HookContext × σ) Unit :=
  Hook.emitAfter r.hooks e

/-- Takes the result that a hook served. -/
def takeServed : Action (HookContext × σ) (Option HookResult) :=
  Part.fst.lift (Action.ofStep HookContext.take)

/-- A served document. -/
def servedDocument? : Option HookResult → Option Document
  | some (.document d) => some d
  | _ => none

/-- A served list of the requested method. -/
def servedList? (mode : ListMode) : Option HookResult → Option ListResult
  | some (.list result) =>
    match result, mode with
    | .offset _, .offset _ => some result
    | .keyset _, .keyset _ => some result
    | _, _ => none
  | _ => none

/-! ## Reading -/

/-- The pages of the collection. -/
def pager (r : Repository σ) : Pager σ := ⟨r.store.toReader, r.settings⟩

/-- The served document, or the first one that the store finds. -/
def serveOrFind (r : Repository σ) (f : Filter) (o : ReadOptions) :
    Action (HookContext × σ) (Option Document) := do
  match servedDocument? (← takeServed) with
  | some d => pure (some d)
  | none =>
    onState (r.store.findOne { filter := f, projection := o.projection, populate := o.populate })

/-- The document with an identifier. -/
def getById (r : Repository σ) (id : DocumentId) (o : ReadOptions) : Action σ (Option Document) :=
  inContext { skipCache := o.skipCache } do
    r.before (.getById id o)
    let result ← r.serveOrFind (r.idFilter id) o
    r.after (.getById id o result)
    pure result

/-- The document with an identifier, which must exist. -/
def requireById (r : Repository σ) (id : DocumentId) (o : ReadOptions) : Action σ Document := do
  match ← r.getById id o with
  | some d => pure d
  | none => Action.fail (.notFound "Document" id.display)

/-- The first document that satisfies a filter. -/
def getByQuery (r : Repository σ) (f : Filter) (o : ReadOptions) : Action σ (Option Document) :=
  inContext { skipCache := o.skipCache } do
    r.before (.getByQuery f o)
    let result ← r.serveOrFind f o
    r.after (.getByQuery f o result)
    pure result

/-- The list that the store gives. -/
def readList (r : Repository σ) : ListMode → Action σ ListResult
  | .offset request => ListResult.offset <$> r.pager.paginate request
  | .keyset request => ListResult.keyset <$> r.pager.stream request

/-- A list of documents. -/
def getAll (r : Repository σ) (request : ListRequest) : Action σ ListResult :=
  inContext { skipCache := request.skipCache } do
    r.before (.getAll request)
    let served ← takeServed
    let result ←
      match servedList? request.mode served with
      | some list => pure list
      | none => onState (r.readList request.mode)
    r.after (.getAll request result)
    pure result

/-- A page by number. -/
def paginate (r : Repository σ) (request : OffsetRequest) : Action σ OffsetPage := do
  match ← r.getAll { mode := .offset request } with
  | .offset page => pure page
  | _ => Action.fail (.internal "offset read produced a different result shape")

/-- A page by position. -/
def stream (r : Repository σ) (request : KeysetRequest) : Action σ KeysetPage := do
  match ← r.getAll { mode := .keyset request } with
  | .keyset page => pure page
  | _ => Action.fail (.internal "keyset read produced a different result shape")

/-- A page of a pipeline's results. It is not announced. -/
def aggregatePaginate (r : Repository σ) (request : AggregateRequest) : Action σ OffsetPage :=
  r.pager.aggregatePaginate request

/-! ## Writing -/

/-- Inserts a document. -/
def create (r : Repository σ) (d : Document) : Action σ Document := do
  let d ← r.prepareNew d
  inContext {} do
    r.before (.create d)
    let created ← onState (r.store.insertOne d)
    r.after (.create created)
    pure created

/-- Inserts several documents. -/
def createMany (r : Repository σ) (ds : List Document) : Action σ (List Document) := do
  let ds ← r.prepareAllNew ds
  inContext {} do
    r.before (.createMany ds)
    let created ← onState (r.store.insertMany ds)
    r.after (.createMany created)
    pure created

/-- Patches the document with an identifier. -/
def update (r : Repository σ) (id : DocumentId) (patch : Document) :
    Action σ (Option Document) := do
  let patch ← r.preparePatch patch
  inContext {} do
    r.before (.update id patch)
    let updated ← onState (r.store.updateOne (r.idFilter id) patch)
    r.after (.update id updated)
    pure updated

/-- Patches every document that satisfies a filter. -/
def updateMany (r : Repository σ) (f : Filter) (patch : Document) : Action σ Nat := do
  let patch ← r.preparePatch patch
  inContext {} do
    r.before (.updateMany f patch)
    let modified ← onState (r.store.updateMany f patch)
    r.after (.updateMany f modified)
    pure modified

/-- Deletes the document with an identifier. -/
def delete (r : Repository σ) (id : DocumentId) : Action σ Bool :=
  inContext {} do
    r.before (.delete id)
    let deleted ← onState (r.store.deleteOne (r.idFilter id))
    r.after (.delete id deleted)
    pure deleted

/-- Deletes every document that satisfies a filter. -/
def deleteMany (r : Repository σ) (f : Filter) : Action σ Nat :=
  inContext {} do
    r.before (.deleteMany f)
    let deleted ← onState (r.store.deleteMany f)
    r.after (.deleteMany f deleted)
    pure deleted

end Repository
end Quire
