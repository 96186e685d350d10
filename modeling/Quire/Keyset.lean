import Quire.Fault
import Quire.Query.Filter
import Quire.Query.Sort
/-!
# Keyset order

A sort order fit for keyset paging names each field once and ends with the identifier, so that it
tells any two documents apart. The rows strictly after a position are a filter over that order.
-/
namespace Quire.SortOrder

/-- Takes over the fields that are new, and refuses a repetition in the other direction. -/
def distinctFields (seen : List SortField) : List SortField → Except Fault (List SortField)
  | [] => .ok seen
  | f :: fs =>
    if f.field = "" then .error (.invalidSort "empty field name")
    else
      match seen.find? (·.field == f.field) with
      | some g =>
        if g.direction = f.direction then distinctFields seen fs
        else
          .error (.invalidSort s!"field '{f.field}' appears with conflicting directions")
      | none => distinctFields (seen ++ [f]) fs

/-- The direction of most fields, in a tie that of the first one. -/
def dominant (fields : List SortField) : Direction :=
  let desc := fields.countP (·.direction == .desc)
  let asc := fields.length - desc
  if asc < desc then .desc
  else if desc < asc then .asc
  else (fields.head?.map (·.direction)).getD .asc

/-- Ends the fields with the identifier: what follows it falls away, and where it is missing it
comes last in the dominant direction. -/
def endWith (idField : String) (fields : List SortField) : List SortField :=
  if fields.any (·.field == idField) then
    fields.takeWhile (·.field != idField) ++ (fields.find? (·.field == idField)).toList
  else fields ++ [⟨idField, dominant fields⟩]

/-- The sort order for keyset paging. -/
def forKeyset (s : SortOrder) (idField : String) : Except Fault SortOrder :=
  if s.isEmpty then .error .missingSort
  else (distinctFields [] s.fields).map fun fields => ⟨endWith idField fields⟩

/-- The condition on a field to lie beyond a value. -/
def beyond (f : SortField) (value : Value) : Filter :=
  match f.direction with
  | .asc => .test .gt f.field value
  | .desc => .test .lt f.field value

/-- One alternative per field: equal in all fields before it and beyond in it. -/
def afterBranches (before : List Filter) : List (SortField × Value) → List Filter
  | [] => []
  | (f, v) :: rest =>
    Filter.conjunction (before ++ [beyond f v]) ::
      afterBranches (before ++ [.test .eq f.field v]) rest

/-- The filter of the rows of `base` strictly after a position. -/
def after (s : SortOrder) (base : Filter) (values : List Value) (id : Value) (idField : String) :
    Except Fault Filter :=
  if s.fields.getLast?.map (·.field) ≠ some idField then
    .error (.invalidSort s!"keyset sort must end with '{idField}'")
  else if values.length + 1 ≠ s.fields.length then .error .cursorSort
  else
    .ok (base.andAlso (Filter.disjunction (afterBranches [] (s.fields.zip (values ++ [id])))))

end Quire.SortOrder
