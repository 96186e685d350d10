import Quire.Json.Value
/-!
# Document identifiers

An identifier is a whole number or a text, and keeps the type that it has inside the document.
-/
namespace Quire

/-- A document identifier. -/
inductive DocumentId where
  | int (n : Int)
  | text (s : String)
deriving DecidableEq, Repr

namespace DocumentId

/-- The identifier in a value, where the value can be one. -/
def ofValue? : Value → Option DocumentId
  | .str s => some (.text s)
  | v => v.signed64?.map .int

/-- The value that a document holds for the identifier. -/
def toValue : DocumentId → Value
  | .int n => .int n
  | .text s => .str s

/-- The identifier as text. A number and its numeral have the same text. -/
def display : DocumentId → String
  | .int n => toString n
  | .text s => s

/-- The text of a textual identifier. -/
def text? : DocumentId → Option String
  | .int _ => none
  | .text s => some s

/-- Numbers come before texts. -/
def compare : DocumentId → DocumentId → Ordering
  | .int a, .int b => Ord.compare a b
  | .int _, .text _ => .lt
  | .text _, .int _ => .gt
  | .text a, .text b => Ord.compare a b

end DocumentId

/-- A supply of fresh identifiers: all the names it will ever give, and how many it has given. -/
structure IdSource where
  name : Nat → String
  issued : Nat

namespace IdSource

/-- The next identifier. -/
def next (s : IdSource) : String × IdSource := (s.name s.issued, { s with issued := s.issued + 1 })

end IdSource
end Quire
