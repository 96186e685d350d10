import Quire.Document.Path
import Quire.Json.Order
/-!
# Filters

A closed vocabulary of conditions on documents, its meaning, and combinators that keep the meaning
while they flatten.
-/
namespace Quire

/-- How a field may relate to a value. -/
inductive Relation where
  | eq
  | ne
  | gt
  | gte
  | lt
  | lte
deriving DecidableEq, Repr

/-- Whether an order between field and value satisfies the relation. -/
def Relation.holds : Relation → Ordering → Bool
  | .eq, o => o == .eq
  | .ne, o => o != .eq
  | .gt, o => o == .gt
  | .gte, o => o != .lt
  | .lt, o => o == .lt
  | .lte, o => o != .gt

/-- A condition on documents. -/
inductive Filter where
  /-- Every document. -/
  | all
  /-- A field, null where missing, in a relation to a value. -/
  | test (relation : Relation) (field : String) (value : Value)
  /-- A field, null where missing, equal to one of the values. -/
  | oneOf (field : String) (values : List Value)
  /-- Presence or absence of a field. -/
  | presence (field : String) (present : Bool)
  | and (parts : List Filter)
  | or (parts : List Filter)
deriving Inhabited, Repr, BEq

namespace Filter

mutual
/-- Whether a document satisfies a filter. -/
def holds (d : Document) : Filter → Bool
  | .all => true
  | .test r f v => r.holds ((d.fieldOrNull f).compare v)
  | .oneOf f vs => vs.any fun v => (d.fieldOrNull f).equal v
  | .presence f p => (d.getPath? f).isSome == p
  | .and parts => holdsAll d parts
  | .or parts => holdsAny d parts

/-- Whether a document satisfies all of the filters. -/
def holdsAll (d : Document) : List Filter → Bool
  | [] => true
  | f :: fs => holds d f && holdsAll d fs

/-- Whether a document satisfies one of the filters. -/
def holdsAny (d : Document) : List Filter → Bool
  | [] => false
  | f :: fs => holds d f || holdsAny d fs
end

mutual
/-- Whether a filter is visibly without condition. -/
def isEmpty : Filter → Bool
  | .all => true
  | .and parts => areEmpty parts
  | _ => false

/-- Whether all of the filters are visibly without condition. -/
def areEmpty : List Filter → Bool
  | [] => true
  | f :: fs => f.isEmpty && areEmpty fs
end

def isAll : Filter → Bool
  | .all => true
  | _ => false

/-- The operands of a conjunction: conditions that always hold fall away, and a conjunction among
them gives its own operands. -/
def conjuncts : List Filter → List Filter
  | [] => []
  | .all :: fs => conjuncts fs
  | .and parts :: fs => parts ++ conjuncts fs
  | f :: fs => f :: conjuncts fs

/-- The conjunction of filters. -/
def conjunction (fs : List Filter) : Filter :=
  match conjuncts fs with
  | [] => .all
  | [f] => f
  | parts => .and parts

/-- The disjunction of filters. -/
def disjunction (fs : List Filter) : Filter :=
  if fs.any isAll then .all
  else
    match fs with
    | [f] => f
    | parts => .or parts

/-- Both filters. -/
def andAlso (f g : Filter) : Filter := conjunction [f, g]

end Filter
end Quire
