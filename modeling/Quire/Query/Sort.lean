import Quire.Document.Path
import Quire.Json.Order
import Quire.Fault
/-!
# Sort orders

A sort order is a list of fields with directions, earlier fields first. Documents that it does not
tell apart keep their places.
-/
namespace Quire

/-- Ascending or descending. -/
inductive Direction where
  | asc
  | desc
deriving DecidableEq, Repr

namespace Direction

/-- An ascending comparison seen in this direction. -/
def orient : Direction → Ordering → Ordering
  | .asc, o => o
  | .desc, o => o.swap

/-- `1` and `-1`. -/
def sign : Direction → Int
  | .asc => 1
  | .desc => -1

end Direction

/-- One field of a sort order. -/
structure SortField where
  field : String
  direction : Direction
deriving DecidableEq, Repr

/-- A sort order. -/
structure SortOrder where
  fields : List SortField
deriving DecidableEq, Repr, Inhabited

namespace SortOrder

/-- No order. -/
def empty : SortOrder := ⟨[]⟩

/-- Ascending by one field. -/
def ascending (field : String) : SortOrder := ⟨[⟨field, .asc⟩]⟩

/-- A further, least significant field. -/
def push (s : SortOrder) (field : String) (direction : Direction) : SortOrder :=
  ⟨s.fields ++ [⟨field, direction⟩]⟩

def isEmpty (s : SortOrder) : Bool := s.fields.isEmpty

def names (s : SortOrder) : List String := s.fields.map (·.field)

/-- The most significant field. -/
def primary? (s : SortOrder) : Option String := s.fields.head?.map (·.field)

/-- The direction of a field, the most significant one where it is repeated. -/
def directionOf? (s : SortOrder) (field : String) : Option Direction :=
  (s.fields.find? (·.field == field)).map (·.direction)

/-- Compares two documents field by field. -/
def compareBy (a b : Document) : List SortField → Ordering
  | [] => .eq
  | f :: fs =>
    match (a.fieldOrNull f.field).compare (b.fieldOrNull f.field) with
    | .eq => compareBy a b fs
    | o => f.direction.orient o

/-- The order of two documents. -/
def compare (s : SortOrder) (a b : Document) : Ordering := compareBy a b s.fields

/-- Puts an element in front of the trailing elements that are greater. The list runs backwards. -/
def insertBackwards {α : Type} (less : α → α → Bool) (x : α) : List α → List α
  | [] => [x]
  | y :: ys => if less x y then y :: insertBackwards less x ys else x :: y :: ys

/-- Sorts by insertion, and keeps equal elements in their order. This is the sorted list wherever
`less` is a strict order of the elements; `sorted` says where a sort may rely on that. -/
def stableSort {α : Type} (less : α → α → Bool) (xs : List α) : List α :=
  (xs.foldl (fun sorted x => insertBackwards less x sorted) []).reverse

/-- Documents in the order of their comparisons, if these can be relied on. -/
def sort (s : SortOrder) (docs : List Document) : List Document :=
  stableSort (fun a b => s.compare a b == .lt) docs

/-- How many of the documents come before one. -/
def rank (s : SortOrder) (docs : List Document) (d : Document) : Nat :=
  docs.countP fun e => s.compare e d == .lt

/-- Whether any two of the documents compare as their ranks do. Comparisons in binary64 blur large
numbers, so that they may contradict each other. -/
def agreesOn (s : SortOrder) (docs : List Document) : Bool :=
  let ranked := docs.map fun d => (d, s.rank docs d)
  ranked.all fun a => ranked.all fun b => s.compare a.1 b.1 == Ord.compare a.2 b.2

/-- So many documents are sorted by insertion, whatever their comparisons are. -/
def insertionLimit : Nat := 20

/-- Whether a sort of the documents is certain to go through. -/
def canSort (s : SortOrder) (docs : List Document) : Bool :=
  docs.length ≤ insertionLimit || s.agreesOn docs

/-- Without an order all documents tie. -/
theorem canSort_empty (docs : List Document) : empty.canSort docs = true := by
  have htie : ∀ a b : Document, empty.compare a b = .eq := fun _ _ => rfl
  have hrank : ∀ d, empty.rank docs d = 0 := fun d => by simp [rank, htie]
  simp [canSort, agreesOn, htie, hrank]

/-- Sorts documents. More than a few are merged, and merging may notice comparisons that contradict
each other; it is stopped wherever it may. -/
def sorted (s : SortOrder) (docs : List Document) : Except Fault (List Document) :=
  if s.canSort docs then .ok (s.sort docs) else .error .contradictoryOrder

/-- One token of the shorthand: a name after an optional sign. -/
def parseToken? (token : List Char) : Option SortField :=
  let (direction, name) :=
    match token with
    | '-' :: name => (Direction.desc, name)
    | '+' :: name => (Direction.asc, name)
    | name => (Direction.asc, name)
  if name.isEmpty then none else some ⟨String.ofList name, direction⟩

/-- Reads the shorthand `-createdAt,name`. Commas and blanks separate fields. -/
def parse (input : String) : Except Fault SortOrder :=
  let tokens := Text.pieces (fun c => c == ',' || Text.isBlank c) input.toList
  match (tokens.filter (!·.isEmpty)).mapM parseToken? with
  | some fields => .ok ⟨fields⟩
  | none => .error (.invalidSort s!"empty field name in '{input}'")

/-- The shorthand of a field. -/
def displayField (f : SortField) : List Char :=
  match f.direction with
  | .asc => f.field.toList
  | .desc => '-' :: f.field.toList

/-- The shorthand of a sort order. -/
def display (s : SortOrder) : String :=
  String.ofList (List.intercalate [','] (s.fields.map displayField))

end SortOrder
end Quire
