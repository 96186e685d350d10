import Quire.Document.Id
import Quire.Query.Pipeline
import Quire.Wire.Record
/-!
# Written forms of filters, sort orders and pipelines
-/
namespace Quire

open Wire

/-! ## Identifiers -/

instance : Written DocumentId := ⟨DocumentId.toValue, DocumentId.ofValue?⟩

/-! ## Filters -/

namespace Relation

/-- The relations with their names. -/
def words : List (String × Relation) :=
  [("eq", .eq), ("ne", .ne), ("gt", .gt), ("gte", .gte), ("lt", .lt), ("lte", .lte)]

def name : Relation → String
  | .eq => "eq"
  | .ne => "ne"
  | .gt => "gt"
  | .gte => "gte"
  | .lt => "lt"
  | .lte => "lte"

end Relation

namespace Filter

mutual
/-- The written form of a filter. -/
def toValue : Filter → Value
  | .all => .str "all"
  | .test r f v => .obj [(r.name, .obj [("field", .str f), ("value", v)])]
  | .oneOf f vs => .obj [("in", .obj [("field", .str f), ("values", .arr vs)])]
  | .presence f p => .obj [("exists", .obj [("field", .str f), ("exists", .bool p)])]
  | .and parts => .obj [("and", .arr (toValues parts))]
  | .or parts => .obj [("or", .arr (toValues parts))]

/-- The written forms of several filters. -/
def toValues : List Filter → List Value
  | [] => []
  | f :: fs => f.toValue :: toValues fs
end

/-- A condition on one field, by its name and its two parts. -/
def readTest? (reading : Reading) (name : String) (body : Value) : Option Filter :=
  match Relation.words.lookup name with
  | some r => do
    match ← contentSlots? reading ["field", "value"] body with
    | [f, v] => some (.test r (← f.required string?) (← v.required Wire.value?))
    | _ => none
  | none =>
    if name = "in" then do
      match ← contentSlots? reading ["field", "values"] body with
      | [f, vs] => some (.oneOf (← f.required string?) (← vs.required (list? Wire.value?)))
      | _ => none
    else if name = "exists" then do
      match ← contentSlots? reading ["field", "exists"] body with
      | [f, p] => some (.presence (← f.required string?) (← p.required bool?))
      | _ => none
    else none

mutual
/-- The filter of a written form. -/
def read? (reading : Reading) : Value → Option Filter
  | .str s => if s = "all" then some .all else none
  | .obj [("and", .arr parts)] => (readAll? reading parts).map .and
  | .obj [("or", .arr parts)] => (readAll? reading parts).map .or
  | .obj [("all", body)] => if isEmptyContent reading body then some .all else none
  | .obj [(name, body)] => readTest? reading name body
  | _ => none

/-- The filters of several written forms. -/
def readAll? (reading : Reading) : List Value → Option (List Filter)
  | [] => some []
  | v :: vs => do
    let f ← read? reading v
    let fs ← readAll? reading vs
    some (f :: fs)
end

end Filter

instance : Written Filter := ⟨Filter.toValue, Filter.read? .strict⟩

/-! ## Sort orders -/

namespace Direction

def words : List (String × Direction) := [("asc", .asc), ("desc", .desc)]

def name : Direction → String
  | .asc => "asc"
  | .desc => "desc"

end Direction

instance : Written Direction := ⟨fun d => .str d.name, word? Direction.words .strict⟩

namespace SortField

def toValue (f : SortField) : Value :=
  .obj [("field", .str f.field), ("direction", .str f.direction.name)]

def read? (reading : Reading) (v : Value) : Option SortField := do
  match ← slots? ["field", "direction"] v with
  | [f, d] => some ⟨← f.required string?, ← d.required (word? Direction.words reading)⟩
  | _ => none

end SortField

instance : Written SortField := ⟨SortField.toValue, SortField.read? .strict⟩

namespace SortOrder

def toValue (s : SortOrder) : Value := .arr (s.fields.map (·.toValue))

def read? (reading : Reading) (v : Value) : Option SortOrder :=
  (list? (SortField.read? reading) v).map (⟨·⟩)

end SortOrder

instance : Written SortOrder := ⟨SortOrder.toValue, SortOrder.read? .strict⟩

/-! ## Projections -/

namespace Projection

def toValue (p : Projection) : Value := .arr (p.fields.map .str)

def read? (v : Value) : Option Projection := (list? string? v).map (⟨·⟩)

end Projection

instance : Written Projection := ⟨Projection.toValue, Projection.read?⟩

/-! ## Pipelines -/

namespace Accumulator

/-- The name of the operation. -/
def name : Accumulator → String
  | .count => "count"
  | .sum _ => "sum"
  | .avg _ => "avg"
  | .min _ => "min"
  | .max _ => "max"
  | .first _ => "first"

/-- The field of the operation. -/
def field? : Accumulator → Option String
  | .count => none
  | .sum f | .avg f | .min f | .max f | .first f => some f

def toValue (a : Accumulator) : Value :=
  .obj (("op", .str a.name) :: present "field" (a.field?.map .str))

/-- The operations over a field. -/
def words : List (String × Option (String → Accumulator)) :=
  [("count", none), ("sum", some .sum), ("avg", some .avg), ("min", some .min), ("max", some .max),
    ("first", some .first)]

def read? (v : Value) : Option Accumulator := do
  match ← tagged? "op" "field" words v with
  | (some make, field) => some (make (← field.required string?))
  | (none, .given .null) => some .count
  | (none, .absent) => some .count
  | _ => none

end Accumulator

instance : Written Accumulator := ⟨Accumulator.toValue, Accumulator.read?⟩

namespace Stage

/-- The written form of a named accumulator. -/
def namedAccumulator (a : String × Accumulator) : Value := .arr [.str a.1, a.2.toValue]

mutual
/-- The written form of a stage. -/
def toValue : Stage → Value
  | .filter f => .obj [("match", f.toValue)]
  | .sort s => .obj [("sort", s.toValue)]
  | .skip n => .obj [("skip", .nat n)]
  | .limit n => .obj [("limit", .nat n)]
  | .project p => .obj [("project", p.toValue)]
  | .group field accumulators =>
    .obj [("group", .obj [("by", .ofOption .str field),
      ("accumulators", .arr (accumulators.map namedAccumulator))])]
  | .count name => .obj [("count", .str name)]
  | .facet branches => .obj [("facet", .arr (branchValues branches))]

/-- The written forms of several stages. -/
def toValues : List Stage → List Value
  | [] => []
  | s :: rest => s.toValue :: toValues rest

/-- The written forms of named pipelines. -/
def branchValues : List (String × List Stage) → List Value
  | [] => []
  | (name, stages) :: rest => .arr [.str name, .arr (toValues stages)] :: branchValues rest
end

/-- A stage other than a facet, by its name and its body. -/
def readPlain? (name : String) (body : Value) : Option Stage :=
  if name = "match" then (Filter.read? .strict body).map .filter
  else if name = "sort" then (SortOrder.read? .strict body).map .sort
  else if name = "skip" then (nat64? body).map .skip
  else if name = "limit" then (nat64? body).map .limit
  else if name = "project" then (Projection.read? body).map .project
  else if name = "count" then (string? body).map .count
  else if name = "group" then do
    match ← contentSlots? .strict ["by", "accumulators"] body with
    | [field, accumulators] =>
      some (.group (← field.optional string?)
        (← accumulators.required (list? (pair? string? Accumulator.read?))))
    | _ => none
  else none

mutual
/-- The stage of a written form. -/
def read? : Value → Option Stage
  | .obj [("facet", .arr branches)] => (readBranches? branches).map .facet
  | .obj [(name, body)] => readPlain? name body
  | _ => none

/-- The stages of several written forms. -/
def readAll? : List Value → Option (List Stage)
  | [] => some []
  | v :: vs => do
    let s ← read? v
    let rest ← readAll? vs
    some (s :: rest)

/-- The named pipelines of their written forms. -/
def readBranches? : List Value → Option (List (String × List Stage))
  | [] => some []
  | .arr [.str name, .arr stages] :: rest => do
    let branch ← readAll? stages
    let branches ← readBranches? rest
    some ((name, branch) :: branches)
  | _ :: _ => none
end

/-- The pipeline of its written form. -/
def pipeline? : Value → Option (List Stage)
  | .arr stages => readAll? stages
  | _ => none

end Stage

instance : Written Stage := ⟨Stage.toValue, Stage.read?⟩

/-! ## Find requests -/

namespace FindQuery

def toValue (q : FindQuery) : Value :=
  .obj [("filter", q.filter.toValue), ("sort", q.sort.toValue), ("skip", .nat q.skip),
    ("limit", .ofOption .nat q.limit), ("projection", .ofOption Projection.toValue q.projection),
    ("populate", .arr (q.populate.map .str))]

def read? (v : Value) : Option FindQuery := do
  match ← slots? ["filter", "sort", "skip", "limit", "projection", "populate"] v with
  | [filter, sort, skip, limit, projection, populate] =>
    some {
      filter := ← filter.required (Filter.read? .strict)
      sort := ← sort.required (SortOrder.read? .strict)
      skip := ← skip.required nat64?
      limit := ← limit.optional nat64?
      projection := ← projection.optional Projection.read?
      populate := ← populate.required (list? string?) }
  | _ => none

end FindQuery

instance : Written FindQuery := ⟨FindQuery.toValue, FindQuery.read?⟩
end Quire
