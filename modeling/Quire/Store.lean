import Quire.Store.Collection
/-!
# Stores

What paging and repositories ask of a document store, over any state, and the store of a
collection in memory.
-/
namespace Quire

/-- The reading side of a store over a state. -/
structure Reader (σ : Type) where
  find : FindQuery → Action σ (List Document)
  /-- The first document of a request, in its order. -/
  findOne : FindQuery → Action σ (Option Document)
  count : Filter → Action σ Nat
  /-- The number of all documents, perhaps not exact. -/
  estimate : Action σ Nat
  aggregate : List Stage → Action σ (List Document)

/-- A store over a state. Inserted documents are returned as stored. -/
structure Store (σ : Type) extends Reader σ where
  insertOne : Document → Action σ Document
  insertMany : List Document → Action σ (List Document)
  updateOne : Filter → Document → Action σ (Option Document)
  updateMany : Filter → Document → Action σ Nat
  deleteOne : Filter → Action σ Bool
  deleteMany : Filter → Action σ Nat

namespace Collection

variable {σ : Type}

/-- Reads a collection. -/
def reader (part : Part σ Collection) : Reader σ where
  find q := Action.ofRead fun s => (part.get s).find q
  findOne q := Action.ofRead fun s => (part.get s).findOne q
  count f := Action.ofRead fun s => .ok ((part.get s).count f)
  estimate := Action.ofRead fun s => .ok (part.get s).docs.length
  aggregate stages := Action.ofRead fun s => (part.get s).results stages

theorem runOn_findOne_reader (part : Part σ Collection) {q : FindQuery} (h : q.sort = .empty)
    (s : σ) : ((reader part).findOne q).runOn s = (.ok ((part.get s).selectOne q), s) :=
  Prod.ext (findOne_of_sort_eq_empty h) rfl

/-- A change of a collection. -/
def change {α : Type} (part : Part σ Collection) (f : Collection → α × Collection) : Action σ α :=
  part.lift (Action.ofStep f)

/-- A collection in memory as a store, with a supply of identifiers. -/
def store (part : Part σ Collection) (ids : Part σ IdSource) : Store σ where
  toReader := reader part
  insertOne d := (part.pair ids).lift (Collection.insertOne d)
  insertMany batch := (part.pair ids).lift (Collection.insertMany batch)
  updateOne f patch := change part (Collection.updateOne f patch)
  updateMany f patch := change part (Collection.updateMany f patch)
  deleteOne f := change part (Collection.deleteOne f)
  deleteMany f := change part (Collection.deleteMany f)

end Collection
end Quire
