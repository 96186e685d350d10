import Quire.Store
import Quire.Wire.Query
/-!
# Store calls

The calls of a store as data, so that they can be announced, refused and written down.
-/
namespace Quire

/-- A call of a store. -/
inductive StoreCall where
  | find (q : FindQuery)
  | findOne (q : FindQuery)
  | count (filter : Filter)
  | estimate
  | aggregate (pipeline : List Stage)
  | insertOne (doc : Document)
  | insertMany (docs : List Document)
  | updateOne (filter : Filter) (patch : Document)
  | updateMany (filter : Filter) (patch : Document)
  | deleteOne (filter : Filter)
  | deleteMany (filter : Filter)

namespace StoreCall

def name : StoreCall → String
  | .find _ => "find"
  | .findOne _ => "find_one"
  | .count _ => "count_documents"
  | .estimate => "estimated_document_count"
  | .aggregate _ => "aggregate"
  | .insertOne _ => "insert_one"
  | .insertMany _ => "insert_many"
  | .updateOne _ _ => "update_one"
  | .updateMany _ _ => "update_many"
  | .deleteOne _ => "delete_one"
  | .deleteMany _ => "delete_many"

/-- What a call is given. -/
def arguments : StoreCall → List (String × Value)
  | .find q | .findOne q => [written "query" q]
  | .count f | .deleteOne f | .deleteMany f => [written "filter" f]
  | .estimate => []
  | .aggregate stages => [written "pipeline" stages]
  | .insertOne d => [written "doc" d]
  | .insertMany ds => [written "docs" ds]
  | .updateOne f patch | .updateMany f patch => [written "filter" f, written "patch" patch]

def toValue (c : StoreCall) : Value := .obj (written "call" c.name :: c.arguments)

end StoreCall

/-- The store that announces each call before it carries it out. A call whose announcement fails is
not carried out. -/
def Store.announcing {σ : Type} (s : Store σ) (announce : StoreCall → Action σ Unit) :
    Store σ where
  find q := do
    announce (.find q)
    s.find q
  findOne q := do
    announce (.findOne q)
    s.findOne q
  count f := do
    announce (.count f)
    s.count f
  estimate := do
    announce .estimate
    s.estimate
  aggregate stages := do
    announce (.aggregate stages)
    s.aggregate stages
  insertOne d := do
    announce (.insertOne d)
    s.insertOne d
  insertMany ds := do
    announce (.insertMany ds)
    s.insertMany ds
  updateOne f patch := do
    announce (.updateOne f patch)
    s.updateOne f patch
  updateMany f patch := do
    announce (.updateMany f patch)
    s.updateMany f patch
  deleteOne f := do
    announce (.deleteOne f)
    s.deleteOne f
  deleteMany f := do
    announce (.deleteMany f)
    s.deleteMany f

end Quire
