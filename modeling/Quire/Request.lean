import Quire.Query.Pipeline
/-!
# Requests

What a caller may ask of a paged collection.
-/
namespace Quire

/-- A page by number. -/
structure OffsetRequest where
  filter : Filter := .all
  sort : Option SortOrder := none
  /-- Page numbers start at one. -/
  page : Option Nat := none
  limit : Option Nat := none
  projection : Option Projection := none
  populate : List String := []
  /-- Take the store's estimate for the total where there is no condition. -/
  estimatedCount : Bool := false
deriving Repr, Inhabited

/-- A page by position. -/
structure KeysetRequest where
  filter : Filter := .all
  sort : Option SortOrder := none
  /-- The cursor of the page before. -/
  after : Option String := none
  limit : Option Nat := none
  projection : Option Projection := none
  populate : List String := []
deriving Repr, Inhabited

/-- A page of a pipeline's results. -/
structure AggregateRequest where
  pipeline : List Stage := []
  page : Option Nat := none
  limit : Option Nat := none
deriving Repr, Inhabited

/-- How a single document is read. -/
structure ReadOptions where
  projection : Option Projection := none
  populate : List String := []
  /-- Read past the cache. -/
  skipCache : Bool := false
deriving Repr, Inhabited

namespace ReadOptions

/-- A read past the cache. -/
def uncached : ReadOptions := { skipCache := true }

/-- Whether the read returns something other than the whole document. -/
def isShaped (o : ReadOptions) : Bool :=
  o.projection.any (!·.isEmpty) || !o.populate.isEmpty

end ReadOptions

/-- How a list is paged. -/
inductive ListMode where
  | offset (request : OffsetRequest)
  | keyset (request : KeysetRequest)
deriving Repr, Inhabited

namespace ListMode

def filter : ListMode → Filter
  | .offset r => r.filter
  | .keyset r => r.filter

def sort : ListMode → Option SortOrder
  | .offset r => r.sort
  | .keyset r => r.sort

/-- The requested page size. -/
def limit : ListMode → Option Nat
  | .offset r => r.limit
  | .keyset r => r.limit

end ListMode

/-- A list read. -/
structure ListRequest where
  mode : ListMode
  /-- Read past the cache. -/
  skipCache : Bool := false
deriving Repr, Inhabited

end Quire
