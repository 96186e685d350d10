import Quire.Json.Value
import Quire.Text.Blank
/-!
# Field paths

A path names a place inside a document by segments between dots. Reading descends through objects
by name and through arrays by index; writing descends through objects only and makes the missing
ones.
-/
namespace Quire

/-- The segments of a path. There is always at least one. -/
def segments (path : String) : List String :=
  (Text.pieces (· == '.') path.toList).map String.ofList

theorem segments_ne_nil (path : String) : segments path ≠ [] := by
  simp [segments, Text.pieces_ne_nil]

/-- The value below a value at the given segments. -/
def Value.at? : List String → Value → Option Value
  | [], v => some v
  | s :: rest, .obj fields => (Document.get? s fields).bind (Value.at? rest)
  | s :: rest, .arr items =>
    match Text.unsignedNumeral? s.toList with
    | some i => (items[i]?).bind (Value.at? rest)
    | none => none
  | _ :: _, _ => none

namespace Document

/-- The value at the given segments; the first one names a field. -/
def at? (path : List String) (d : Document) : Option Value := Value.at? path (.obj d)

/-- The value at a path. -/
def getPath? (path : String) (d : Document) : Option Value := at? (segments path) d

/-- The value at a path, null where there is none. -/
def fieldOrNull (path : String) (d : Document) : Value := (getPath? path d).getD .null

/-- The object at a field, an empty one where there is no object. -/
def child (name : String) (d : Document) : Document :=
  match get? name d with
  | some (.obj fields) => fields
  | _ => []

/-- Writes a value at the given segments, through objects that are made where missing. -/
def setAt (value : Value) : List String → Document → Document
  | [], d => d
  | [s], d => set s value d
  | s :: rest, d => set s (.obj (setAt value rest (child s d))) d

/-- Writes a value at a path. -/
def setPath (path : String) (value : Value) (d : Document) : Document :=
  setAt value (segments path) d

end Document
end Quire
