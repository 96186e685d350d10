import Quire.Cursor
import Quire.Page
import Quire.Wire.Record
/-!
# Written forms of pages, cursors and error answers
-/
namespace Quire

open Wire

/-! ## Pages -/

namespace OffsetPage

/-- The fields of the written form. -/
def toFields (p : OffsetPage) : List (String × Value) :=
  [("docs", .documents p.docs), ("page", .nat p.page), ("limit", .nat p.limit),
    ("total", .nat p.total), ("pages", .nat p.pages), ("hasNext", .bool p.hasNext),
    ("hasPrev", .bool p.hasPrev)] ++ present "warning" (p.warning.map .str)

def toValue (p : OffsetPage) : Value := .obj p.toFields

def fieldNames : List String :=
  ["docs", "page", "limit", "total", "pages", "hasNext", "hasPrev", "warning"]

/-- The page in the slots of its fields. -/
def ofSlots? : List Slot → Option OffsetPage
  | [docs, page, limit, total, pages, hasNext, hasPrev, warning] => do
    some {
      docs := ← docs.required (list? document?)
      page := ← page.required nat64?
      limit := ← limit.required nat64?
      total := ← total.required nat64?
      pages := ← pages.required nat64?
      hasNext := ← hasNext.required bool?
      hasPrev := ← hasPrev.required bool?
      warning := ← warning.optionalOrMissing string? }
  | _ => none

def read? (v : Value) : Option OffsetPage := (slots? fieldNames v).bind ofSlots?

end OffsetPage

instance : Written OffsetPage := ⟨OffsetPage.toValue, OffsetPage.read?⟩

namespace KeysetPage

/-- The fields of the written form. -/
def toFields (p : KeysetPage) : List (String × Value) :=
  [("docs", .documents p.docs), ("limit", .nat p.limit), ("hasMore", .bool p.hasMore),
    ("next", .ofOption .str p.next)]

def toValue (p : KeysetPage) : Value := .obj p.toFields

def fieldNames : List String := ["docs", "limit", "hasMore", "next"]

/-- The page in the slots of its fields. -/
def ofSlots? : List Slot → Option KeysetPage
  | [docs, limit, hasMore, next] => do
    some {
      docs := ← docs.required (list? document?)
      limit := ← limit.required nat64?
      hasMore := ← hasMore.required bool?
      next := ← next.optional string? }
  | _ => none

def read? (v : Value) : Option KeysetPage := (slots? fieldNames v).bind ofSlots?

end KeysetPage

instance : Written KeysetPage := ⟨KeysetPage.toValue, KeysetPage.read?⟩

namespace ListResult

/-- The field that names the method. -/
def methodField (method : String) : String × Value := ("method", .str method)

def toValue : ListResult → Value
  | .offset p => .obj (methodField "offset" :: p.toFields)
  | .keyset p => .obj (methodField "keyset" :: p.toFields)
  | .aggregate p => .obj (methodField "aggregate" :: p.toFields)

/-- The list result of a record with a method. -/
def read? (v : Value) : Option ListResult := do
  match ← splitTag? "method" v with
  | ("offset", body) => (OffsetPage.read? body).map .offset
  | ("keyset", body) => (KeysetPage.read? body).map .keyset
  | ("aggregate", body) => (OffsetPage.read? body).map .aggregate
  | _ => none

/-- The names that the written form of a result uses. -/
def fieldNames : ListResult → List String
  | .keyset _ => "method" :: KeysetPage.fieldNames
  | _ => "method" :: OffsetPage.fieldNames

/-- Whether a name is written at most once. -/
def atMostOnce (fields : List (String × Value)) (name : String) : Bool :=
  (fields.countP fun f => f.1 == name) ≤ 1

/-- The list result of a text. No field of the result may be written twice. -/
def ofText? (s : String) : Option ListResult := do
  let written ← Value.readAsWritten? s
  let result ← read? written.normalize
  let fields := written.document?.getD []
  if result.fieldNames.all (atMostOnce fields) then some result else none

end ListResult

instance : Written ListResult := ⟨ListResult.toValue, ListResult.read?⟩

/-- The document of a text. -/
def Document.ofText? (s : String) : Option Document := (Value.read? s).bind Value.document?

/-! ## Cursors -/

def Cursor.read? (v : Value) : Option Cursor := do
  let slots ← slots? Cursor.fieldNames v
  let values ← slots.mapM (·.required Wire.value?)
  Cursor.ofValues? values

instance : Written Cursor := ⟨Cursor.toValue, Cursor.read?⟩

/-! ## Error answers -/

/-- What a caller is told about a fault. -/
structure ErrorAnswer where
  code : String
  message : String
  traceId : Option String := none
deriving DecidableEq, Repr

namespace ErrorAnswer

/-- The answer for a fault. -/
def ofFault (f : Fault) (traceId : Option String := none) : ErrorAnswer :=
  ⟨f.code, f.message, traceId⟩

def toValue (e : ErrorAnswer) : Value :=
  .obj ([("code", .str e.code), ("message", .str e.message)] ++
    present "trace_id" (e.traceId.map .str))

def read? (v : Value) : Option ErrorAnswer := do
  match ← slots? ["code", "message", "trace_id"] v with
  | [code, message, traceId] =>
    some ⟨← code.required string?, ← message.required string?, ← traceId.optional string?⟩
  | _ => none

end ErrorAnswer

instance : Written ErrorAnswer := ⟨ErrorAnswer.toValue, ErrorAnswer.read?⟩
end Quire
