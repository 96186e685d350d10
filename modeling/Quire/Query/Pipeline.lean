import Quire.Query.Filter
import Quire.Query.Sort
/-!
# Projections and pipelines

What an aggregation may ask for: selections of fields, accumulators over groups, and stages.
-/
namespace Quire

/-- The fields to keep. The identifier is always kept, and no fields mean all of them. -/
structure Projection where
  fields : List String
deriving DecidableEq, Repr, Inhabited

namespace Projection

def isEmpty (p : Projection) : Bool := p.fields.isEmpty

/-- One more field, unless it is there. -/
def add (p : Projection) (field : String) : Projection :=
  if p.fields.contains field then p else ⟨p.fields ++ [field]⟩

/-- Several more fields. -/
def addAll (p : Projection) (fields : List String) : Projection := fields.foldl add p

/-- The projection to the given fields, each named once. -/
def ofFields (fields : List String) : Projection := addAll ⟨[]⟩ fields

/-- Copies one field, if the document has it. -/
def copyField (d : Document) (out : Document) (field : String) : Document :=
  match d.getPath? field with
  | some v => out.setPath field v
  | none => out

/-- What a projection keeps of a document. -/
def apply (p : Projection) (idField : String) (d : Document) : Document :=
  if p.isEmpty then d
  else
    let start :=
      match d.get? idField with
      | some id => Document.set idField id []
      | none => []
    p.fields.foldl (copyField d) start

end Projection

/-- A value computed over the documents of a group. -/
inductive Accumulator where
  | count
  | sum (field : String)
  | avg (field : String)
  | min (field : String)
  | max (field : String)
  | first (field : String)
deriving DecidableEq, Repr

/-- One step of a pipeline. -/
inductive Stage where
  | filter (condition : Filter)
  | sort (order : SortOrder)
  | skip (n : Nat)
  | limit (n : Nat)
  | project (projection : Projection)
  /-- One document per value of a field, or one for all documents. -/
  | group (field : Option String) (accumulators : List (String × Accumulator))
  /-- One document with the number of documents, unless there are none. -/
  | count (name : String)
  /-- One document with the results of several pipelines. -/
  | facet (branches : List (String × List Stage))
deriving Inhabited, Repr

/-- A request for documents. -/
structure FindQuery where
  filter : Filter := .all
  sort : SortOrder := .empty
  skip : Nat := 0
  limit : Option Nat := none
  projection : Option Projection := none
  /-- Relations to resolve; a store without relations ignores them. -/
  populate : List String := []
deriving Repr, Inhabited

end Quire
