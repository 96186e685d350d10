import Quire.Action
import Quire.Document.Id
import Quire.Json.Printer
import Quire.Store.Pipeline
/-!
# Collections

Documents held in memory in insertion order, and the operations on them as functions of the
collection. Identifiers are given out when documents are inserted and never change afterwards.
-/
namespace Quire

/-- A collection of documents. -/
structure Collection where
  idField : String := "_id"
  docs : List Document := []
deriving Repr, Inhabited

namespace Collection

/-! ## Reading -/

/-- The documents that a request asks for, by the order that it asks for. -/
def select (c : Collection) (q : FindQuery) : List Document :=
  let found := (q.sort.sort (c.docs.filter fun d => q.filter.holds d)).drop q.skip
  let taken :=
    match q.limit with
    | some n => found.take n
    | none => found
  match q.projection with
  | some p => taken.map (p.apply c.idField)
  | none => taken

/-- The first document that a request asks for. -/
def selectOne (c : Collection) (q : FindQuery) : Option Document :=
  (c.select { q with limit := some 1 }).head?

/-- Whether the documents that satisfy a filter can be sorted. -/
def canSort (c : Collection) (f : Filter) (s : SortOrder) : Bool :=
  s.canSort (c.docs.filter fun d => f.holds d)

/-- Finds the documents that a request asks for. -/
def find (c : Collection) (q : FindQuery) : Except Fault (List Document) :=
  if c.canSort q.filter q.sort then .ok (c.select q) else .error .contradictoryOrder

/-- Finds the first document that a request asks for. All that match are sorted for it. -/
def findOne (c : Collection) (q : FindQuery) : Except Fault (Option Document) :=
  if c.canSort q.filter q.sort then .ok (c.selectOne q) else .error .contradictoryOrder

/-- The number of documents that satisfy a filter. -/
def count (c : Collection) (f : Filter) : Nat := (c.docs.filter fun d => f.holds d).length

/-- The documents after a pipeline. -/
def aggregate (c : Collection) (stages : List Stage) : List Document :=
  Stage.runAll c.idField stages c.docs

/-- Runs a pipeline, if all sorts in it go through. -/
def results (c : Collection) (stages : List Stage) : Except Fault (List Document) :=
  if Stage.canRunAll c.idField stages c.docs then .ok (c.aggregate stages)
  else .error .contradictoryOrder

section Answers

variable {c : Collection} {q : FindQuery}

theorem find_eq_ok (h : c.canSort q.filter q.sort = true) :
    c.find q = .ok (c.select q) := if_pos h

theorem findOne_eq_ok (h : c.canSort q.filter q.sort = true) :
    c.findOne q = .ok (c.selectOne q) := if_pos h

theorem findOne_of_sort_eq_empty (h : q.sort = .empty) :
    c.findOne q = .ok (c.selectOne q) := by
  refine findOne_eq_ok ?_
  rw [h]
  exact SortOrder.canSort_empty _

theorem eq_select_of_find {rows : List Document} (h : c.find q = .ok rows) :
    rows = c.select q := by
  rw [find] at h
  split at h <;> cases h
  rfl

theorem eq_aggregate_of_results {stages : List Stage} {rows : List Document}
    (h : c.results stages = .ok rows) : rows = c.aggregate stages := by
  rw [results] at h
  split at h <;> cases h
  rfl

end Answers

/-! ## Inserting -/

/-- Whether a document has the identifier. -/
def hasId (idField : String) (id : Value) (d : Document) : Bool :=
  (d.get? idField).any fun v => v.equal id

/-- The identifier of a document, where it is neither missing nor null. -/
def idOf? (idField : String) (d : Document) : Option Value :=
  (d.get? idField).filter (!·.isNull)

/-- A document as it is inserted beside others: a given identifier must be new, a missing one is
taken from the supply. -/
def prepare (idField : String) (others : List Document) (d : Document) (ids : IdSource) :
    Except Fault Document × IdSource :=
  match idOf? idField d with
  | some id =>
    if others.any (hasId idField id) then (.error (.store ("duplicate key: " ++ id.text)), ids)
    else (.ok d, ids)
  | none =>
    let (fresh, ids) := ids.next
    (.ok (d.set idField (.str fresh)), ids)

/-- Prepares documents one after another, each beside the ones before. -/
def prepareAll (idField : String) (others : List Document) :
    List Document → IdSource → Except Fault (List Document) × IdSource
  | [], ids => (.ok [], ids)
  | d :: rest, ids =>
    match prepare idField others d ids with
    | (.error e, ids) => (.error e, ids)
    | (.ok d, ids) =>
      match prepareAll idField (others ++ [d]) rest ids with
      | (.error e, ids) => (.error e, ids)
      | (.ok ds, ids) => (.ok (d :: ds), ids)

/-- Inserts a document and returns it as stored. -/
def insertOne (d : Document) : Action (Collection × IdSource) Document :=
  Action.ofFun fun (c, ids) =>
    match prepare c.idField c.docs d ids with
    | (.error e, ids) => (.error e, c, ids)
    | (.ok d, ids) => (.ok d, { c with docs := c.docs ++ [d] }, ids)

/-- Inserts all documents or none, and returns them as stored. -/
def insertMany (batch : List Document) : Action (Collection × IdSource) (List Document) :=
  Action.ofFun fun (c, ids) =>
    match prepareAll c.idField c.docs batch ids with
    | (.error e, ids) => (.error e, c, ids)
    | (.ok ds, ids) => (.ok ds, { c with docs := c.docs ++ ds }, ids)

/-! ## Changing -/

/-- Writes the fields of a patch in order of their names, the identifier excepted. -/
def applyPatch (idField : String) (patch : Document) (d : Document) : Document :=
  patch.foldl (fun d f => if f.1 = idField then d else d.setPath f.1 f.2) d

/-- Changes the first document that satisfies a condition, and returns it. -/
def changeFirst (p : Document → Bool) (change : Document → Document) :
    List Document → Option Document × List Document
  | [] => (none, [])
  | d :: rest =>
    if p d then (some (change d), change d :: rest)
    else
      let (found, rest) := changeFirst p change rest
      (found, d :: rest)

/-- Patches the first document that satisfies a filter, and returns it. -/
def updateOne (f : Filter) (patch : Document) (c : Collection) : Option Document × Collection :=
  let (found, docs) := changeFirst (fun d => f.holds d) (applyPatch c.idField patch) c.docs
  (found, { c with docs })

/-- Changes every document that satisfies a condition, and counts them. -/
def changeAll (p : Document → Bool) (change : Document → Document) :
    List Document → Nat × List Document
  | [] => (0, [])
  | d :: rest =>
    let (changed, rest) := changeAll p change rest
    if p d then (changed + 1, change d :: rest) else (changed, d :: rest)

/-- Patches every document that satisfies a filter, and returns their number. -/
def updateMany (f : Filter) (patch : Document) (c : Collection) : Nat × Collection :=
  let (changed, docs) := changeAll (fun d => f.holds d) (applyPatch c.idField patch) c.docs
  (changed, { c with docs })

/-- Removes the first element that satisfies a condition. -/
def removeFirst (p : Document → Bool) : List Document → Bool × List Document
  | [] => (false, [])
  | d :: rest =>
    if p d then (true, rest)
    else
      let (found, rest) := removeFirst p rest
      (found, d :: rest)

/-- Deletes the first document that satisfies a filter, and says whether there was one. -/
def deleteOne (f : Filter) (c : Collection) : Bool × Collection :=
  let (found, docs) := removeFirst (fun d => f.holds d) c.docs
  (found, { c with docs })

/-- Deletes every document that satisfies a filter, and returns by how many there are fewer. -/
def deleteMany (f : Filter) (c : Collection) : Nat × Collection :=
  let kept := c.docs.filter fun d => !f.holds d
  (c.docs.length - kept.length, { c with docs := kept })

end Collection
end Quire
