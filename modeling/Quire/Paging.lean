import Quire.Cursor
import Quire.Keyset
import Quire.Page
import Quire.Request
import Quire.Settings.Basic
import Quire.Store
/-!
# Paging

Offset, keyset and aggregate paging over any store. Nothing is kept between requests: the position
is in the page number or in the cursor that the caller brings.
-/
namespace Quire

/-- Paging over a store. -/
structure Pager (σ : Type) where
  reader : Reader σ
  settings : PagingSettings

namespace PagingSettings

/-- The page size for a requested one: at least one, at most the largest. -/
def clampLimit (s : PagingSettings) (requested : Option Nat) : Nat :=
  max 1 (min (requested.getD s.defaultLimit) (max s.maxLimit 1))

/-- The page number for a requested one. -/
def clampPage (requested : Option Nat) : Nat := max 1 (requested.getD 1)

/-- The largest number of documents that a request can skip. -/
def skipLimit : Nat := twoPow 64 - 1

/-- The number of documents before a page. -/
def skipOf (page limit : Nat) : Nat := min ((page - 1) * limit) skipLimit

/-- The warning of a page far behind. -/
def deepPageWarning? (s : PagingSettings) (page : Nat) : Option String :=
  if page ≤ s.deepPageThreshold then none
  else
    some (s!"page {page} is beyond the deep pagination threshold of {s.deepPageThreshold}; " ++
      "use cursor pagination for deep traversal")

/-- The order of an offset request: normalized, or by identifier where none is asked for. -/
def offsetSort (s : PagingSettings) (requested : Option SortOrder) : Except Fault SortOrder :=
  match requested.filter (!·.isEmpty) with
  | some sort => sort.forKeyset s.idField
  | none => .ok (.ascending s.idField)

/-- The order of a keyset request. -/
def keysetSort (s : PagingSettings) (requested : Option SortOrder) : Except Fault SortOrder :=
  match requested.filter (!·.isEmpty) with
  | some sort => sort.forKeyset s.idField
  | none => .error .missingSort

/-- The filter of a keyset request: with a cursor, only what lies strictly after it. -/
def keysetFilter (s : PagingSettings) (r : KeysetRequest) (sort : SortOrder) :
    Except Fault Filter :=
  match r.after with
  | none => .ok r.filter
  | some token => do
    let c ← Cursor.decodeFor token sort s.idField s.cursorVersion
    sort.after r.filter c.values c.id s.idField

/-- The projection of a keyset request: a cursor needs every sort field of the last document. -/
def keysetProjection (requested : Option Projection) (sort : SortOrder) : Option Projection :=
  requested.map fun p => if p.isEmpty then p else p.addAll sort.names

/-- The page of one document more than fit: the surplus only shows that there is more. -/
def keysetPage (s : PagingSettings) (sort : SortOrder) (limit : Nat) (found : List Document) :
    Except Fault KeysetPage :=
  if found.length ≤ limit then .ok (.build found limit none)
  else
    let docs := found.take limit
    match docs.getLast? with
    | none => .ok (.build docs limit none)
    | some last => do
      let c ← Cursor.ofDocument last sort s.idField s.cursorVersion
      .ok (.build docs limit (some c.encode))

/-- The branches that cut a pipeline's results into a page and count them. -/
def pageFacet (skip limit : Nat) : Stage :=
  .facet [("docs", [.skip skip, .limit limit]), ("total", [.count "count"])]

/-- The documents under the first branch. -/
def facetDocs (row : Document) : Except Fault (List Document) :=
  match row.get? "docs" with
  | none => .ok []
  | some .null => .ok []
  | some (.arr items) =>
    match items.mapM Value.document? with
    | some docs => .ok docs
    | none => .error (.store "aggregate produced a non-document row")
  | some _ => .error (.store "aggregate facet 'docs' is not an array")

/-- The number under the second branch, zero where there is none. -/
def facetTotal (row : Document) : Nat :=
  match row.get? "total" with
  | some (.arr (first :: _)) => ((first.field? "count").bind Value.unsigned64?).getD 0
  | _ => 0

end PagingSettings

namespace Pager

variable {σ : Type} (p : Pager σ)

/-- A page by number: one find and one count. -/
def paginate (r : OffsetRequest) : Action σ OffsetPage := do
  let page := PagingSettings.clampPage r.page
  let limit := p.settings.clampLimit r.limit
  let sort ← Action.ofExcept (p.settings.offsetSort r.sort)
  let docs ← p.reader.find {
    filter := r.filter, sort, skip := PagingSettings.skipOf page limit, limit := some limit
    projection := r.projection, populate := r.populate }
  let total ←
    if r.filter.isEmpty && (r.estimatedCount || p.settings.estimatedCount) then p.reader.estimate
    else p.reader.count r.filter
  return .build (docs.take limit) page limit total (p.settings.deepPageWarning? page)

/-- A page by position. -/
def stream (r : KeysetRequest) : Action σ KeysetPage := do
  let sort ← Action.ofExcept (p.settings.keysetSort r.sort)
  let limit := p.settings.clampLimit r.limit
  let filter ← Action.ofExcept (p.settings.keysetFilter r sort)
  let found ← p.reader.find {
    filter, sort, limit := some (limit + 1)
    projection := PagingSettings.keysetProjection r.projection sort, populate := r.populate }
  Action.ofExcept (p.settings.keysetPage sort limit found)

/-- The pages of a stream one after another, at most as many as the bound. -/
def walk : Nat → KeysetRequest → Action σ (List KeysetPage)
  | 0, _ => pure []
  | bound + 1, r => do
    let page ← p.stream r
    match page.next with
    | none => pure [page]
    | some token => do
      let rest ← walk bound { r with after := some token }
      pure (page :: rest)

/-- A page of a pipeline's results, with their number, by one pipeline. -/
def aggregatePaginate (r : AggregateRequest) : Action σ OffsetPage := do
  let page := PagingSettings.clampPage r.page
  let limit := p.settings.clampLimit r.limit
  let skip := PagingSettings.skipOf page limit
  let rows ← p.reader.aggregate (r.pipeline ++ [PagingSettings.pageFacet skip limit])
  let row := rows.head?.getD []
  let docs ← Action.ofExcept (PagingSettings.facetDocs row)
  return .build (docs.take limit) page limit (PagingSettings.facetTotal row)
    (p.settings.deepPageWarning? page)

end Pager
end Quire
