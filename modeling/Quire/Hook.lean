import Quire.Action
import Quire.Document.Id
import Quire.Page
import Quire.Request
/-!
# Lifecycle hooks

Every operation of a repository announces itself before it touches the store and again when it has
a result. Hooks hear both in the order in which they were attached; the first that fails ends the
operation.
-/
namespace Quire

/-- The operations that are announced. -/
inductive Operation where
  | getById
  | getByQuery
  | getAll
  | create
  | createMany
  | update
  | updateMany
  | delete
  | deleteMany
deriving DecidableEq, Repr

namespace Operation

def all : List Operation :=
  [.getById, .getByQuery, .getAll, .create, .createMany, .update, .updateMany, .delete, .deleteMany]

def name : Operation → String
  | .getById => "getById"
  | .getByQuery => "getByQuery"
  | .getAll => "getAll"
  | .create => "create"
  | .createMany => "createMany"
  | .update => "update"
  | .updateMany => "updateMany"
  | .delete => "delete"
  | .deleteMany => "deleteMany"

/-- Whether the operation leaves the store alone. -/
def isRead : Operation → Bool
  | .getById | .getByQuery | .getAll => true
  | _ => false

end Operation

/-- What is announced before an operation. -/
inductive BeforeEvent where
  | getById (id : DocumentId) (options : ReadOptions)
  | getByQuery (filter : Filter) (options : ReadOptions)
  | getAll (request : ListRequest)
  | create (doc : Document)
  | createMany (docs : List Document)
  | update (id : DocumentId) (patch : Document)
  | updateMany (filter : Filter) (patch : Document)
  | delete (id : DocumentId)
  | deleteMany (filter : Filter)

def BeforeEvent.operation : BeforeEvent → Operation
  | .getById .. => .getById
  | .getByQuery .. => .getByQuery
  | .getAll .. => .getAll
  | .create .. => .create
  | .createMany .. => .createMany
  | .update .. => .update
  | .updateMany .. => .updateMany
  | .delete .. => .delete
  | .deleteMany .. => .deleteMany

/-- What is announced after an operation, with its result. -/
inductive AfterEvent where
  | getById (id : DocumentId) (options : ReadOptions) (result : Option Document)
  | getByQuery (filter : Filter) (options : ReadOptions) (result : Option Document)
  | getAll (request : ListRequest) (result : ListResult)
  | create (doc : Document)
  | createMany (docs : List Document)
  | update (id : DocumentId) (result : Option Document)
  | updateMany (filter : Filter) (modified : Nat)
  | delete (id : DocumentId) (deleted : Bool)
  | deleteMany (filter : Filter) (deleted : Nat)

def AfterEvent.operation : AfterEvent → Operation
  | .getById .. => .getById
  | .getByQuery .. => .getByQuery
  | .getAll .. => .getAll
  | .create .. => .create
  | .createMany .. => .createMany
  | .update .. => .update
  | .updateMany .. => .updateMany
  | .delete .. => .delete
  | .deleteMany .. => .deleteMany

/-- A result that a hook gives in place of the store. -/
inductive HookResult where
  | document (doc : Document)
  | list (result : ListResult)
deriving Repr, BEq

/-- What the hooks of one operation share. -/
structure HookContext where
  /-- The caller wants to read past the cache. -/
  skipCache : Bool := false
  /-- The key under which a caching hook keeps the result. -/
  cacheKey : Option String := none
  served : Option HookResult := none
  /-- Stays set when the served result has been taken. -/
  servedFromCache : Bool := false
deriving Repr

namespace HookContext

/-- Gives the operation its result. -/
def serve (r : HookResult) (c : HookContext) : HookContext :=
  { c with served := some r, servedFromCache := true }

/-- Takes the served result out of the context. -/
def take (c : HookContext) : Option HookResult × HookContext :=
  (c.served, { c with served := none })

end HookContext

/-- A participant in the operations of a repository. -/
structure Hook (σ : Type) where
  name : String
  before : BeforeEvent → Action (HookContext × σ) Unit := fun _ => pure ()
  after : AfterEvent → Action (HookContext × σ) Unit := fun _ => pure ()

namespace Hook

variable {σ : Type}

/-- Announces an operation to all hooks. -/
def emitBefore : List (Hook σ) → BeforeEvent → Action (HookContext × σ) Unit
  | [], _ => pure ()
  | h :: hs, e => do
    h.before e
    emitBefore hs e

/-- Announces a result to all hooks. -/
def emitAfter : List (Hook σ) → AfterEvent → Action (HookContext × σ) Unit
  | [], _ => pure ()
  | h :: hs, e => do
    h.after e
    emitAfter hs e

end Hook
end Quire
