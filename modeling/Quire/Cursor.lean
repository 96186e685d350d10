import Quire.Fault
import Quire.Json.Printer
import Quire.Json.Reader
import Quire.Query.Sort
import Quire.Token.Base64Url
import Quire.Token.Sha256
/-!
# Cursors

A cursor is a position in a sorted collection: the sort values and the identifier of one document.
It travels as an opaque token, the base64 form of a small JSON envelope with the fields `v` (format
version), `s` (signature of the sort order), `p` (primary field), `k` (sort values without the
identifier) and `i` (identifier).
-/
namespace Quire

/-- The text that names a sort order: every field with its sign. -/
def SortOrder.canonical (s : SortOrder) : List Char :=
  List.intercalate ['|'] (s.fields.map fun f =>
    f.field.toList ++ ':' :: Value.intChars f.direction.sign)

/-- A short name of a sort order, from the digest of its canonical text. -/
def SortOrder.signature (s : SortOrder) : String :=
  String.ofList (Sha256.hex ((Sha256.digest (Text.utf8 s.canonical)).take 8))

/-- A position in a sorted collection. -/
structure Cursor where
  version : Nat
  signature : String
  primary : String
  /-- The values of the sort fields other than the identifier. -/
  values : List Value
  id : Value
deriving Repr, BEq

namespace Cursor

/-- Longer tokens are refused unread. -/
def tokenLimit : Nat := 4096

/-- The position of a document. -/
def ofDocument (d : Document) (sort : SortOrder) (idField : String) (version : Nat) :
    Except Fault Cursor :=
  match (d.get? idField).filter (!·.isNull) with
  | none => .error (.internal s!"document has no '{idField}' field")
  | some id =>
    match sort.primary? with
    | none => .error .missingSort
    | some primary =>
      .ok {
        version, primary, id
        signature := sort.signature
        values := (sort.names.filter (· != idField)).map d.fieldOrNull }

/-- The envelope of a cursor. -/
def toValue (c : Cursor) : Value :=
  .obj [("v", .nat c.version), ("s", .str c.signature), ("p", .str c.primary),
    ("k", .arr c.values), ("i", c.id)]

/-- The token of a cursor. -/
def encode (c : Cursor) : String :=
  String.ofList (Base64Url.encode (Text.utf8 c.toValue.chars))

/-- The names of the envelope. -/
def fieldNames : List String := ["v", "s", "p", "k", "i"]

/-- The cursor of five values in the order of the envelope. -/
def ofValues? : List Value → Option Cursor
  | [.int v, .str s, .str p, .arr k, i] =>
    if 0 ≤ v ∧ v < twoPow 32 then some ⟨v.toNat, s, p, k, i⟩ else none
  | _ => none

/-- The fields of an envelope that belong to a cursor, in the order of writing. Other fields are
skipped, whatever they hold; every name must still be a proper text. -/
def envelopeFields? : List (List Piece × Raw) → Option (List (String × Value))
  | [] => some []
  | (name, raw) :: rest => do
    let k ← Raw.string? name
    let known ← envelopeFields? rest
    if fieldNames.contains k then
      let v ← raw.value? (Value.depthLimit - 1)
      some ((k, v) :: known)
    else some known

/-- The cursor in an envelope: an object with each field once, or an array of the five values. -/
def ofRaw? : Raw → Option Cursor
  | .obj fields => do
    let known ← envelopeFields? fields
    if known.length = fieldNames.length then
      let values ← fieldNames.mapM fun name => Document.get? name known
      ofValues? (values.map Value.normalize)
    else none
  | .arr items => do
    let values ← Raw.items? (Value.depthLimit - 1) items
    ofValues? (values.map Value.normalize)
  | _ => none

/-- The cursor of a token. -/
def decode (token : String) : Except Fault Cursor :=
  let bytes := Text.utf8 token.toList
  if bytes.isEmpty then .error (.invalidCursor "cursor is empty")
  else if tokenLimit < bytes.length then .error (.invalidCursor "cursor is too long")
  else
    match Base64Url.decode (Text.utf8 (Text.trim token.toList)) with
    | .error e => .error (.invalidCursor ("not valid base64: " ++ e.message))
    | .ok envelope =>
      match (Raw.read? (Text.glyphs envelope)).bind ofRaw? with
      | some c => .ok c
      | none => .error (.invalidCursor "malformed envelope")

/-- Refuses a cursor of another format version. -/
def checkVersion (c : Cursor) (expected : Nat) : Except Fault Unit :=
  if c.version = expected then .ok () else .error (.cursorVersion expected c.version)

/-- Refuses a cursor of another sort order. -/
def checkSort (c : Cursor) (sort : SortOrder) (idField : String) : Except Fault Unit :=
  if c.signature = sort.signature ∧
      c.values.length = (sort.names.filter (· != idField)).length then .ok ()
  else .error .cursorSort

/-- The cursor of a token that was issued for the given version and sort order. -/
def decodeFor (token : String) (sort : SortOrder) (idField : String) (version : Nat) :
    Except Fault Cursor := do
  let c ← decode token
  c.checkVersion version
  c.checkSort sort idField
  .ok c

end Cursor
end Quire
