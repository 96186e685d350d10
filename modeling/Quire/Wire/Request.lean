import Quire.Page
import Quire.Request
import Quire.Wire.Query
/-!
# Written forms of requests
-/
namespace Quire

open Wire

namespace OffsetRequest

/-- The fields of the written form. -/
def toFields (r : OffsetRequest) : List (String × Value) :=
  [("filter", r.filter.toValue), ("sort", .ofOption SortOrder.toValue r.sort),
    ("page", .ofOption .nat r.page), ("limit", .ofOption .nat r.limit),
    ("projection", .ofOption Projection.toValue r.projection),
    ("populate", .arr (r.populate.map .str)), ("estimated_count", .bool r.estimatedCount)]

def toValue (r : OffsetRequest) : Value := .obj r.toFields

def read? (reading : Reading) (v : Value) : Option OffsetRequest := do
  match ← slots? ["filter", "sort", "page", "limit", "projection", "populate", "estimated_count"] v
    with
  | [filter, sort, page, limit, projection, populate, estimatedCount] =>
    some {
      filter := ← filter.required (Filter.read? reading)
      sort := ← sort.optional (SortOrder.read? reading)
      page := ← page.optional nat64?
      limit := ← limit.optional nat64?
      projection := ← projection.optional Projection.read?
      populate := ← populate.required (list? string?)
      estimatedCount := ← estimatedCount.required bool? }
  | _ => none

end OffsetRequest

instance : Written OffsetRequest := ⟨OffsetRequest.toValue, OffsetRequest.read? .strict⟩

namespace KeysetRequest

/-- The fields of the written form. -/
def toFields (r : KeysetRequest) : List (String × Value) :=
  [("filter", r.filter.toValue), ("sort", .ofOption SortOrder.toValue r.sort),
    ("after", .ofOption .str r.after), ("limit", .ofOption .nat r.limit),
    ("projection", .ofOption Projection.toValue r.projection),
    ("populate", .arr (r.populate.map .str))]

def toValue (r : KeysetRequest) : Value := .obj r.toFields

def read? (reading : Reading) (v : Value) : Option KeysetRequest := do
  match ← slots? ["filter", "sort", "after", "limit", "projection", "populate"] v with
  | [filter, sort, after, limit, projection, populate] =>
    some {
      filter := ← filter.required (Filter.read? reading)
      sort := ← sort.optional (SortOrder.read? reading)
      after := ← after.optional string?
      limit := ← limit.optional nat64?
      projection := ← projection.optional Projection.read?
      populate := ← populate.required (list? string?) }
  | _ => none

end KeysetRequest

instance : Written KeysetRequest := ⟨KeysetRequest.toValue, KeysetRequest.read? .strict⟩

namespace AggregateRequest

def toValue (r : AggregateRequest) : Value :=
  .obj [("pipeline", .arr (Stage.toValues r.pipeline)), ("page", .ofOption .nat r.page),
    ("limit", .ofOption .nat r.limit)]

def read? (v : Value) : Option AggregateRequest := do
  match ← slots? ["pipeline", "page", "limit"] v with
  | [pipeline, page, limit] =>
    some ⟨← pipeline.required Stage.pipeline?, ← page.optional nat64?, ← limit.optional nat64?⟩
  | _ => none

end AggregateRequest

instance : Written AggregateRequest := ⟨AggregateRequest.toValue, AggregateRequest.read?⟩

namespace ReadOptions

def toValue (o : ReadOptions) : Value :=
  .obj [("projection", .ofOption Projection.toValue o.projection),
    ("populate", .arr (o.populate.map .str)), ("skip_cache", .bool o.skipCache)]

def read? (v : Value) : Option ReadOptions := do
  match ← slots? ["projection", "populate", "skip_cache"] v with
  | [projection, populate, skipCache] =>
    some ⟨← projection.optional Projection.read?, ← populate.required (list? string?),
      ← skipCache.orElse false bool?⟩
  | _ => none

end ReadOptions

instance : Written ReadOptions := ⟨ReadOptions.toValue, ReadOptions.read?⟩

namespace ListMode

def toValue : ListMode → Value
  | .offset r => .obj (("method", .str "offset") :: r.toFields)
  | .keyset r => .obj (("method", .str "keyset") :: r.toFields)

/-- The mode of a record with a method. -/
def read? (v : Value) : Option ListMode := do
  match ← splitTag? "method" v with
  | ("offset", body) => (OffsetRequest.read? .loose body).map .offset
  | ("keyset", body) => (KeysetRequest.read? .loose body).map .keyset
  | _ => none

end ListMode

instance : Written ListMode := ⟨ListMode.toValue, ListMode.read?⟩
end Quire
