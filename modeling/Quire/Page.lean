import Quire.Json.Value
/-!
# Pages

The results of list reads. A page built here has consistent navigation; a page read from elsewhere
is taken as it is.
-/
namespace Quire

/-- A page of offset or aggregate paging. -/
structure OffsetPage where
  docs : List Document
  page : Nat
  limit : Nat
  total : Nat
  pages : Nat
  hasNext : Bool
  hasPrev : Bool
  warning : Option String
deriving Repr, BEq

/-- The number of pages that hold `total` documents. -/
def pageCount (total limit : Nat) : Nat :=
  if limit = 0 then 0 else (total + limit - 1) / limit

/-- The page with the given contents; its navigation follows. -/
def OffsetPage.build (docs : List Document) (page limit total : Nat)
    (warning : Option String := none) : OffsetPage :=
  let pages := pageCount total limit
  { docs, page, limit, total, pages, hasNext := page < pages, hasPrev := 1 < page, warning }

/-- A page of keyset paging. -/
structure KeysetPage where
  docs : List Document
  limit : Nat
  hasMore : Bool
  /-- The cursor of the following page. -/
  next : Option String
deriving Repr, BEq

/-- The page with the given contents; there is more exactly when there is a cursor. -/
def KeysetPage.build (docs : List Document) (limit : Nat) (next : Option String) : KeysetPage :=
  { docs, limit, hasMore := next.isSome, next }

/-- A list result with the method that produced it. -/
inductive ListResult where
  | offset (page : OffsetPage)
  | keyset (page : KeysetPage)
  | aggregate (page : OffsetPage)
deriving Repr, BEq

/-- The documents of a list result. -/
def ListResult.docs : ListResult → List Document
  | .offset p => p.docs
  | .keyset p => p.docs
  | .aggregate p => p.docs

end Quire
